import ApiLint.Files.Path

/-!
# File systems

A finite set of files, directories and links, each with the names that lead to it from the root. A
path is followed from the working directory; every step but the last has to reach a directory, and a
link stands for the path that is written in it.
-/

namespace ApiLint

inductive Entry where
  | file (bytes : ByteArray)
  | directory
  /-- Leads on from the directory that the link is in. -/
  | link (path : Path)

structure FileSystem where
  entries : List (List String × Entry)
  current : List String

inductive ReadError where
  | notFound
  | notDirectory
  | isDirectory
  | nameTooLong
  | tooManyLinks
  | zeroInName
  | notText
  deriving DecidableEq, Repr

def ReadError.message : ReadError → String
  | notFound => "No such file or directory (os error 2)"
  | notDirectory => "Not a directory (os error 20)"
  | isDirectory => "Is a directory (os error 21)"
  | nameTooLong => "File name too long (os error 36)"
  | tooManyLinks => "Too many levels of symbolic links (os error 40)"
  | zeroInName => "file name contained an unexpected NUL byte"
  | notText => "stream did not contain valid UTF-8"

/-- What a path leads to, or how it is spelled if that is nothing. -/
inductive Target where
  | found (names : List String)
  | missing (spelling : List (List Char))
  deriving DecidableEq, Repr

namespace FileSystem

def get? (fs : FileSystem) (names : List String) : Option Entry :=
  if names.isEmpty then some .directory else fs.entries.lookup names

def between (names : List String) : List (List String) :=
  (List.range names.length).tail.map fun n => names.take n

def insert (fs : FileSystem) (names : List String) (e : Entry) : FileSystem :=
  let missing := (between names).filter fun n => (fs.get? n).isNone
  { fs with entries := (names, e) :: missing.map (fun n => (n, .directory)) ++ fs.entries }

def ofDirectory (current : List String) : FileSystem :=
  insert ⟨[], current⟩ current .directory

def currentPath (fs : FileSystem) : Path := ⟨"/" ++ "/".intercalate fs.current⟩

def maxNameSize : Nat := 255

/-- A path by which something is opened has fewer bytes than this. -/
def maxPathSize : Nat := 4096

def maxLinks : Nat := 40

def step (fs : FileSystem) (names : List String) (segment : List Char) :
    Except ReadError (List String) :=
  match fs.get? names with
  | none => .error .notFound
  | some (.file _) | some (.link _) => .error .notDirectory
  | some .directory =>
    if Path.isSilent segment then .ok names
    else if segment = ['.', '.'] then .ok names.dropLast
    else
      let name := String.ofList segment
      if maxNameSize < name.utf8ByteSize then .error .nameTooLong
      else if (fs.get? (names ++ [name])).isSome then .ok (names ++ [name])
      else .error .notFound

def start (directory : List String) (p : Path) : List String :=
  if p.isAbsolute then [] else directory

/-- Takes segments up to the first link, where `followed` goes on. -/
def along (fs : FileSystem)
    (followed : List String → List (List Char) → Except ReadError (List String)) :
    List String → List (List Char) → Except ReadError (List String)
  | names, [] => .ok names
  | names, segment :: segments => do
    let next ← fs.step names segment
    match fs.get? next with
    | some (.link p) => followed (start names p) (p.segments ++ segments)
    | _ => fs.along followed next segments

def follow (fs : FileSystem) : Nat → List String → List (List Char) → Except ReadError (List String)
  | 0 => fs.along fun _ _ => .error .tooManyLinks
  | links + 1 => fs.along (fs.follow links)

/-- The names of what a path leads to. It is followed step by step, so that its length is free. -/
def resolve (fs : FileSystem) (p : Path) : Except ReadError (List String) :=
  if p.text.isEmpty then .error .notFound
  else fs.follow maxLinks (start fs.current p) p.segments

def find? (fs : FileSystem) (p : Path) : Except ReadError Entry :=
  if p.text.toList.contains '\x00' then .error .zeroInName
  else if maxPathSize ≤ p.text.utf8ByteSize then .error .nameTooLong
  else do
    match fs.get? (← fs.resolve p) with
    | some e => .ok e
    | none => .error .notFound

theorem resolve_of_find? {fs : FileSystem} {p : Path} {e : Entry} (h : fs.find? p = .ok e) :
    ∃ names, fs.resolve p = .ok names ∧ fs.get? names = some e := by
  simp only [find?, bind, Except.bind] at h
  split at h
  · cases h
  split at h
  · cases h
  cases hr : fs.resolve p with
  | error r => simp [hr] at h
  | ok names =>
    simp only [hr] at h
    cases he : fs.get? names with
    | none => simp [he] at h
    | some d =>
      simp only [he, Except.ok.injEq] at h
      exact ⟨names, rfl, by rw [he, h]⟩

def isFile (fs : FileSystem) (p : Path) : Bool :=
  match fs.find? p with
  | .ok (.file _) => true
  | _ => false

def read (fs : FileSystem) (p : Path) : Except ReadError String := do
  match ← fs.find? p with
  | .directory => .error .isDirectory
  | .link _ => .error .tooManyLinks
  | .file bytes =>
    match String.fromUTF8? bytes with
    | some text => .ok text
    | none => .error .notText

def target (fs : FileSystem) (p : Path) : Target :=
  match fs.resolve p with
  | .ok names => .found names
  | .error _ => .missing p.normal

theorem mem_of_lookup {names : List String} {e : Entry} :
    {entries : List (List String × Entry)} → entries.lookup names = some e → (names, e) ∈ entries
  | [], h => by simp at h
  | (n, d) :: entries, h => by
    rw [List.lookup_cons] at h
    split at h
    case h_1 heq => simp_all
    case h_2 => exact List.mem_cons_of_mem _ (mem_of_lookup h)

theorem target_of_read {fs : FileSystem} {p : Path} {text : String} (h : fs.read p = .ok text) :
    ∃ e ∈ fs.entries, fs.target p = .found e.1 := by
  simp only [read, bind, Except.bind] at h
  cases hf : fs.find? p with
  | error r => simp [hf] at h
  | ok e =>
    obtain ⟨names, hr, he⟩ := resolve_of_find? hf
    cases e with
    | directory => simp [hf] at h
    | link path => simp [hf] at h
    | file bytes =>
      simp only [get?] at he
      split at he
      case isTrue => cases he
      case isFalse =>
        exact ⟨(names, .file bytes), mem_of_lookup he, by simp only [target, hr]⟩

example : (FileSystem.mk [(["a"], .file .empty), (["b"], .link ⟨"./a"⟩)] []).target ⟨"b"⟩ =
    .found ["a"] := by
  decide

end FileSystem

end ApiLint
