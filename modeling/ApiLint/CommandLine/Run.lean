import ApiLint.CommandLine.Report
import ApiLint.Config.Loading
import ApiLint.Lint

/-!
# Runs of the command line

What a run prints and the status that it ends with, by its arguments and what it sees: the files,
what is fetched from URLs and what the readers of the formats say. A run that finds something or
cannot do its work ends with one, and one that is asked for in the wrong way with two.
-/

namespace ApiLint.CommandLine

structure Environment where
  files : FileSystem
  color : Bool
  fetch : String → Except String String
  wording : Wording

structure Outcome where
  status : Nat
  output : String
  errors : String

namespace Outcome

def usage : String :=
  "Usage: swaggerlint [--config <FILE>] lint [--url <URL>] [--format <human|json>] [PATH]\n" ++
    "       swaggerlint rules\n"

def ofUsageError (e : UsageError) : Outcome := ⟨2, "", "error: " ++ e.message ++ "\n\n" ++ usage⟩

def ofFindings (env : Environment) (format : OutputFormat) (fs : List Finding) : Outcome :=
  ⟨if fs.isEmpty then 0 else 1, Report.text format env.color fs, ""⟩

def hang (indent : Nat) (s : String) : String :=
  String.ofList (Text.replace ['\n'] ('\n' :: List.replicate indent ' ') s.toList)

def causes (w : Wording) : ConfigError → String
  | .unreadable e =>
    "    0: " ++ hang 7 ((ConfigError.unreadable e).message w) ++ "\n    1: " ++ hang 7 e.message
  | e => "    " ++ hang 4 (e.message w)

def ofConfigError (env : Environment) (path : Path) (e : ConfigError) : Outcome :=
  ⟨1, "", "Error: Failed to load config from " ++ path.text ++ "\n\nCaused by:\n" ++
    causes env.wording e ++ "\n"⟩

end Outcome

namespace Environment

def configPath? (env : Environment) (given : Option Path) : Option Path :=
  given <|> Config.find? env.files env.files.currentPath

def noInput : String := "Neither url nor path were provided for your swagger scheme"

def lintWith (env : Environment) (format : OutputFormat) (source : Option Source)
    (config : Config) : Outcome :=
  match source with
  | none => .ofFindings env format [.core noInput]
  | some s =>
    match s.load env.files env.fetch with
    | .error e => ⟨1, "", Report.documentError format env.color (e.message env.wording)⟩
    | .ok document =>
      .ofFindings env format (Linter.lint ⟨config, Config.default.rules, .builtin⟩ document)

def lint (env : Environment) (given : Option Path) (source : Option Source)
    (format : OutputFormat) : Outcome :=
  match env.configPath? given with
  | none => env.lintWith format source .default
  | some path =>
    match Config.load env.files path with
    | .error e => .ofConfigError env path e
    | .ok config => env.lintWith format source config

def pad (width : Nat) (s : String) : String :=
  s ++ String.ofList (List.replicate (width - s.length) ' ')

def rules (env : Environment) (g : Registry) : Outcome :=
  let width := (g.names.map String.length).foldl max 0
  let line (r : Rule) := painted env.color .cyan (pad width r.name) ++ "  " ++ r.description ++ "\n"
  ⟨0, String.join (g.rules.map line), ""⟩

def version : String := "swaggerlint 0.1.1\n"

def respond (env : Environment) : Request → Outcome
  | .version => ⟨0, version, ""⟩
  | .help => ⟨0, Outcome.usage, ""⟩
  | .run config (.lint source format) => env.lint config source format
  | .run _ .rules => env.rules .builtin

def run (env : Environment) (args : List String) : Outcome :=
  match Request.parse args with
  | .ok request => env.respond request
  | .error e => .ofUsageError e

end Environment

end ApiLint.CommandLine
