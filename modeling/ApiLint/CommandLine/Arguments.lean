import ApiLint.Document.Source

/-!
# Arguments

What the arguments of the command line ask for. Options that take a value have it in the same
argument or in the next one, and none is given twice. The options of a command stand after its name,
and the option for the configuration before it.
-/

namespace ApiLint.CommandLine

inductive OutputFormat where
  | human
  | json
  deriving DecidableEq, Repr

def OutputFormat.ofName? : String → Option OutputFormat
  | "human" => some human
  | "json" => some json
  | _ => none

inductive Command where
  | lint (source : Option Source) (format : OutputFormat)
  | rules

inductive Request where
  | version
  | help
  | run (config : Option Path) (command : Command)

inductive Setter where
  | config
  | url
  | format
  deriving DecidableEq, Repr

namespace Setter

def name : Setter → String
  | config => "config"
  | url => "url"
  | format => "format"

def letter : Setter → Char
  | config => 'c'
  | url => 'u'
  | format => 'f'

end Setter

inductive UsageError where
  | noCommand
  | unknownCommand (name : String)
  | unexpected (argument : String)
  | noValue (option : Setter)
  | repeated (option : Setter)
  | badValue (option : Setter) (value : String)
  | emptyPath
  | pathAndUrl

def UsageError.message : UsageError → String
  | noCommand => "a command is required"
  | unknownCommand name => "unknown command '" ++ name ++ "'"
  | unexpected argument => "unexpected argument '" ++ argument ++ "'"
  | noValue option => "option '--" ++ option.name ++ "' requires a value"
  | repeated option => "option '--" ++ option.name ++ "' cannot be used twice"
  | badValue option value =>
    "invalid value '" ++ value ++ "' for option '--" ++ option.name ++ "'"
  | emptyPath => "the path of a document cannot be empty"
  | pathAndUrl => "option '--url' cannot be used with a path"

inductive Argument where
  | plain
  | separator
  | long (name : List Char) (value : Option (List Char))
  | short (letter : Char) (rest : List Char)

namespace Argument

def ofChars : List Char → Argument
  | ['-', '-'] => separator
  | '-' :: '-' :: r =>
    match r.dropWhile (· ≠ '=') with
    | [] => long r none
    | _ :: value => long (r.takeWhile (· ≠ '=')) (some value)
  | '-' :: c :: r => short c r
  | _ => plain

def isFlag (name : String) (letter : Char) : Argument → Bool
  | long n none => n = name.toList
  | short c _ => c = letter
  | _ => false

def isHelp (a : Argument) : Bool := a.isFlag "help" 'h'

def isVersion (a : Argument) : Bool := a.isFlag "version" 'V'

def attached? : List Char → Option String
  | [] => none
  | '=' :: value => some (String.ofList value)
  | value => some (String.ofList value)

def setter? (known : List Setter) : Argument → Option (Setter × Option String)
  | long name value =>
    (known.find? fun s => s.name.toList = name).map fun s => (s, value.map String.ofList)
  | short letter rest =>
    (known.find? fun s => s.letter = letter).map fun s => (s, attached? rest)
  | _ => none

end Argument

structure LintArguments where
  path : Option String
  url : Option String
  format : Option OutputFormat

namespace LintArguments

def none : LintArguments := ⟨.none, .none, .none⟩

def set (a : LintArguments) (value : String) : Setter → Except UsageError LintArguments
  | .config => .error (.unexpected value)
  | .url => if a.url.isSome then .error (.repeated .url) else .ok { a with url := value }
  | .format =>
    match OutputFormat.ofName? value with
    | .none => .error (.badValue .format value)
    | .some f =>
      if a.format.isSome then .error (.repeated .format) else .ok { a with format := f }

def setPath (a : LintArguments) (value : String) : Except UsageError LintArguments :=
  if a.path.isSome then .error (.unexpected value)
  else if value.isEmpty then .error .emptyPath
  else .ok { a with path := value }

def request (config : Option Path) (a : LintArguments) : Except UsageError Request :=
  match a.path, a.url with
  | .some _, .some _ => .error .pathAndUrl
  | path, url =>
    let source := (path.map fun p => Source.path ⟨p⟩) <|> url.map Source.url
    .ok (.run config (.lint source (a.format.getD .human)))

/-- Reads the arguments after the command. `waiting` is an option whose value comes next, and
after a separator all arguments are `paths`. -/
def parse (config : Option Path) (a : LintArguments) (waiting : Option Setter) (paths : Bool) :
    List String → Except UsageError Request
  | [] =>
    match waiting with
    | .some s => .error (.noValue s)
    | .none => a.request config
  | text :: args =>
    if paths then do parse config (← a.setPath text) .none true args
    else
      match waiting, Argument.ofChars text.toList with
      | .some s, .plain => do parse config (← a.set text s) .none false args
      | .some s, _ => .error (.noValue s)
      | .none, .plain => do parse config (← a.setPath text) .none false args
      | .none, .separator => parse config a .none true args
      | .none, argument =>
        if argument.isHelp then .ok .help
        else
          match argument.setter? [.url, .format] with
          | .some (s, .some value) => do parse config (← a.set value s) .none false args
          | .some (s, .none) => parse config a (.some s) false args
          | .none => .error (.unexpected text)

end LintArguments

def parseRules (config : Option Path) : List String → Except UsageError Request
  | [] => .ok (.run config .rules)
  | text :: args =>
    match Argument.ofChars text.toList, args with
    | .separator, [] => .ok (.run config .rules)
    | .separator, text :: _ => .error (.unexpected text)
    | argument, _ => if argument.isHelp then .ok .help else .error (.unexpected text)

def parseHelp : List String → Except UsageError Request
  | [] => .ok .help
  | name :: args =>
    if ["lint", "rules", "help"].contains name then
      args.head?.elim (.ok .help) fun next => .error (.unknownCommand next)
    else .error (.unknownCommand name)

namespace Request

def setConfig (config : Option Path) (value : String) : Except UsageError (Option Path) :=
  if value.isEmpty then .error (.noValue .config)
  else if config.isSome then .error (.repeated .config)
  else .ok (some ⟨value⟩)

def parseFrom (config : Option Path) (waiting : Bool) : List String → Except UsageError Request
  | [] => .error (if waiting then .noValue .config else .noCommand)
  | text :: args =>
    match waiting, Argument.ofChars text.toList with
    | true, .plain => do parseFrom (← setConfig config text) false args
    | true, _ => .error (.noValue .config)
    | false, .plain =>
      match text with
      | "lint" => LintArguments.none.parse config none false args
      | "rules" => parseRules config args
      | "help" => parseHelp args
      | _ => .error (.unknownCommand text)
    | false, .separator => .error (args.head?.elim .noCommand .unexpected)
    | false, argument =>
      if argument.isHelp then .ok .help
      else if argument.isVersion then .ok .version
      else
        match argument.setter? [.config] with
        | some (_, some value) => do parseFrom (← setConfig config value) false args
        | some (_, none) => parseFrom config true args
        | none => .error (.unexpected text)

def parse (args : List String) : Except UsageError Request := parseFrom none false args

end Request

end ApiLint.CommandLine
