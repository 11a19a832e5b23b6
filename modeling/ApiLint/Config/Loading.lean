import ApiLint.Config.Basic
import ApiLint.Document.Source
import ApiLint.Files.FileSystem
import ApiLint.Text.Pieces

/-!
# Loading configurations

A configuration is read from a file together with the files that it extends. These come first, in
the order in which they are listed, and what extends them is put on top. A file that is still being
loaded may not be extended again, so that loading ends. The configuration of a directory is the
first file with one of a few names in it, or else in the nearest directory around it.
-/

namespace ApiLint

open Json

/-- Why a text is no configuration: it cannot be read, or its value is refused. -/
inductive Malformation where
  | unread
  | refused (reason : DecodeError RuleSetError)

def Malformation.message (w : Wording) (format : Format) (text : String) : Malformation → String
  | unread => w.unread format text
  | refused e => w.refused format text (e.message RuleSetError.message)

inductive ConfigError where
  | unreadable (reason : ReadError)
  | unknownFormat (path : Path)
  | malformed (path : Path) (format : Format) (text : String) (reason : Malformation)
  | blankRule (path : Path)
  | blankDefinition (path : Path)
  | blankPath (path : Path)
  | blankBase (path : Path) (entry : String)
  | badBase (path : Path) (entry : String) (reason : ConfigError)
  | cycle (path : Path)

namespace ConfigError

def invalid (path : Path) (problem : String) : String :=
  "Invalid configuration at " ++ path.text ++ ": " ++ problem

def blankIgnored (list : String) (path : Path) : String :=
  "Configuration validation error: ignored " ++ list ++ " in " ++ path.text ++
    " cannot contain empty names"

def cannotExtend (path : Path) (entry problem : String) : String :=
  "Cannot extend '" ++ entry ++ "' from " ++ path.text ++ ": " ++ problem

def message (w : Wording) : ConfigError → String
  | unreadable e => "IO error: " ++ e.message
  | unknownFormat path => "Unsupported config file format: " ++ path.text
  | malformed path format text reason =>
    invalid path (format.name ++ " parse error: " ++ reason.message w format text)
  | blankRule path => invalid path "Rule names cannot be empty"
  | blankDefinition path => blankIgnored "definitions" path
  | blankPath path => blankIgnored "paths" path
  | blankBase path entry => cannotExtend path entry "entry is empty"
  | badBase path entry reason => cannotExtend path entry (reason.message w)
  | cycle path => "Configuration extends itself through " ++ path.text

end ConfigError

namespace Config

def ofText? (format : Format) (s : String) : Except Malformation Config :=
  match format.valueAs? layout s with
  | some v => (ofValue? v).mapError .refused
  | none => .error .unread

def eitherFormatName : String := ".swaggerlintrc"

def formats (path : Path) : List Format :=
  match path.extension?.getD "" with
  | "yml" => [.yaml]
  | "yaml" => [.yaml]
  | "json" => [.json]
  | "" => if path.fileName? = some eitherFormatName.toList then [.yaml, .json] else []
  | _ => []

/-- The formats are tried one after the other, and the last one says what is wrong. -/
def parseAs? (path : Path) (text : String) : List Format → Except ConfigError Config
  | [] => .error (.unknownFormat path)
  | [format] => (ofText? format text).mapError (.malformed path format text)
  | format :: others =>
    match ofText? format text with
    | .ok c => .ok c
    | .error _ => parseAs? path text others

def parse? (path : Path) (text : String) : Except ConfigError Config :=
  parseAs? path text (formats path)

def validate (path : Path) (c : Config) : Except ConfigError Config :=
  if c.rules.names.any Text.isBlankText then .error (.blankRule path)
  else if c.ignore.definitions.any Text.isBlankText then .error (.blankDefinition path)
  else if c.ignore.paths.any Text.isBlankText then .error (.blankPath path)
  else .ok c

/-- The error of a base as seen from the file that extends it; a cycle stays what it is. -/
def baseError (path : Path) (entry : String) : ConfigError → ConfigError
  | .cycle p => .cycle p
  | e => .badBase path entry e

def directoryOf (path : Path) : Path := path.parent?.getD ⟨"."⟩

def basePath (path : Path) (entry : String) : Path := (directoryOf path).join ⟨entry⟩

def base (load : Path → Except ConfigError Config) (path : Path) (entry : String) :
    Except ConfigError Config :=
  if Text.isBlankText entry then .error (.blankBase path entry)
  else
    match load (basePath path entry) with
    | .ok c => .ok c
    | .error e => .error (baseError path entry e)

/-- A configuration on top of its bases, one after the other. One without bases stays what it is. -/
def extend (load : Path → Except ConfigError Config) (path : Path) (own : Config) :
    Except ConfigError Config :=
  if own.bases.isEmpty then .ok own
  else do
    let merged ← own.bases.foldlM (fun c entry => c.merge <$> base load path entry) empty
    return merged.merge own

def unchained (fs : FileSystem) (chain : List Target) : Nat :=
  fs.entries.countP fun e => !chain.contains (.found e.1)

theorem countP_lt {A : Type} {p q : A → Bool} {xs : List A} {a : A} (h : ∀ x, q x → p x)
    (ha : a ∈ xs) (hp : p a = true) (hq : q a = false) : xs.countP q < xs.countP p := by
  induction xs with
  | nil => cases ha
  | cons x xs ih =>
    have hle : xs.countP q ≤ xs.countP p := List.countP_mono_left fun x _ => h x
    rw [List.countP_cons, List.countP_cons]
    rcases List.mem_cons.1 ha with rfl | ha
    · simp only [hp, hq]
      simp
      omega
    · have := ih ha
      have : (if q x = true then 1 else 0) ≤ (if p x = true then 1 else 0) := by
        by_cases hx : q x = true
        · simp [hx, h x hx]
        · simp [hx]
      omega

theorem unchained_cons {fs : FileSystem} {chain : List Target} {path : Path} {text : String}
    (hc : fs.target path ∉ chain) (hr : fs.read path = .ok text) :
    unchained fs (fs.target path :: chain) < unchained fs chain := by
  obtain ⟨e, he, hp⟩ := FileSystem.target_of_read hr
  rw [hp] at hc ⊢
  refine countP_lt (fun x hx => ?_) he ?_ ?_
  · simp only [List.contains_cons, Bool.not_or, Bool.and_eq_true] at hx
    exact hx.2
  · simpa using hc
  · simp

def loadFrom (fs : FileSystem) (chain : List Target) (path : Path) : Except ConfigError Config :=
  if _hc : fs.target path ∈ chain then .error (.cycle path)
  else
    match _hr : fs.read path with
    | .error e => .error (.unreadable e)
    | .ok text => do
      let own ← parse? path text
      let c ← extend (fun p => loadFrom fs (fs.target path :: chain) p) path own
      validate path c
termination_by unchained fs chain
decreasing_by exact unchained_cons _hc _hr

def load (fs : FileSystem) (path : Path) : Except ConfigError Config := loadFrom fs [] path

def loadText (fs : FileSystem) (path : Path) (text : String) : Except ConfigError Config := do
  let own ← parse? path text
  let c ← extend (loadFrom fs [fs.target path]) path own
  validate path c

def fileNames : List String :=
  [".swaggerlintrc.yml", ".swaggerlintrc.yaml", ".swaggerlintrc.json", ".swaggerlintrc",
    "swaggerlint.config.yml", "swaggerlint.config.yaml", "swaggerlint.config.json"]

def candidates (directory : Path) : List Path :=
  fileNames.map fun name => directory.join ⟨name⟩

def inDirectory? (fs : FileSystem) (directory : Path) : Option Path :=
  (candidates directory).find? fs.isFile

def ancestors (directory : Path) : List Path :=
  directory :: match _h : directory.parent? with
    | some parent => ancestors parent
    | none => []
termination_by directory.text.length
decreasing_by exact Path.length_parent _h

def find? (fs : FileSystem) (directory : Path) : Option Path :=
  (ancestors directory).findSome? (inDirectory? fs)

end Config

end ApiLint
