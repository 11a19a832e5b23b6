import ApiLint.CommandLine.Run

/-!
# The program

Reads what a run may look at from the disk, prints its outcome, and ends with its status.
-/

namespace ApiLint.Program

open CommandLine

/-- What is on disk at a place. A link leads to where the path comes out in the end. -/
def entryAt (names : List String) : IO (Option Entry) := do
  let path := "/" ++ "/".intercalate names
  try
    let real := toString (← IO.FS.realPath path)
    if real ≠ path then return some (.link ⟨real⟩)
    return some (.file (← IO.FS.readBinFile path))
  catch
    | .inappropriateType _ 21 _ => return some .directory
    | _ => return none

def look (fs : FileSystem) (names : List String) : IO FileSystem := do
  if (fs.get? names).isSome then return fs
  match ← entryAt names with
  | some e => return fs.insert names e
  | none => return fs

def namesOf (p : Path) : List String :=
  (p.segments.filter fun segment => !Path.isSilent segment).map String.ofList

def lookFor (fs : FileSystem) (p : Path) : IO FileSystem := do
  let mut fs := fs
  let mut names := FileSystem.start fs.current p
  for segment in p.segments do
    if segment = ['.', '.'] then
      names := names.dropLast
    else if !Path.isSilent segment then
      names := names ++ [String.ofList segment]
      fs ← look fs names
      if let some (.link q) := fs.get? names then
        names := namesOf q
        fs ← (FileSystem.between names ++ [names]).foldlM look fs
  return fs

partial def lookForConfig (fs : FileSystem) (p : Path) : IO FileSystem := do
  if fs.isFile p then return fs
  let fs ← lookFor fs p
  match fs.read p with
  | .ok text =>
    match Config.parse? p text with
    | .ok c => (c.bases.map (Config.basePath p)).foldlM lookForConfig fs
    | .error _ => return fs
  | .error _ => return fs

def filesFor (current : List String) : Request → IO FileSystem
  | .run config (.lint source _) => do
    let fs := FileSystem.ofDirectory current
    let configs := match config with
      | some p => [p]
      | none => (Config.ancestors fs.currentPath).flatMap Config.candidates
    let fs ← configs.foldlM lookForConfig fs
    match source with
    | some (.path p) => lookFor fs p
    | _ => return fs
  | _ => return .ofDirectory current

def isOn? (name : String) : IO (Option Bool) := do
  return (← IO.getEnv name).map fun v => v ≠ "0"

/-- Whether to use colors: as the variables say that force or forbid them, or else in a terminal. -/
def color : IO Bool := do
  let force ← isOn? "CLICOLOR_FORCE"
  let forbid ← isOn? "NO_COLOR"
  let allow ← isOn? "CLICOLOR"
  let terminal ← (← IO.getStdout).isTty
  return force == some true || (forbid.isNone && allow.getD true && terminal)

/-- The readers of this program only say whether they take a text. -/
def wording : Wording where
  unread _ _ := ""
  refused _ _ reason := reason

def fetch (_url : String) : Except String String := .error "documents are read from files only"

end ApiLint.Program

open ApiLint Program CommandLine in
def main (args : List String) : IO UInt32 := do
  let current := ((toString (← IO.currentDir)).splitOn "/").filter fun name => name ≠ ""
  let files ← match Request.parse args with
    | .ok request => filesFor current request
    | .error _ => pure (.ofDirectory current)
  let outcome := Environment.run ⟨files, ← color, fetch, wording⟩ args
  IO.print outcome.output
  IO.eprint outcome.errors
  return UInt32.ofNat outcome.status
