import ApiLint.Rule.Basic
import ApiLint.Text.Pieces

/-!
# No trailing slash

Hosts, base paths, path names and server addresses do not end with a slash, unless they are nothing
else.
-/

namespace ApiLint.Rule

open Json

def hasTrailingSlash (url : String) : Bool := 1 < url.utf8ByteSize && Text.endsWith "/" url

def trailingSlash (location : Location) (url : String) : Report :=
  .message location ("Url cannot end with a slash \"" ++ url ++ "\".")

def checkUrl (key : String) (location : Location) (node : Value) : List Report :=
  match node.stringAt? key with
  | some url => if hasTrailingSlash url then [trailingSlash (location.child key) url] else []
  | none => []

def checkPathNames (location : Location) (node : Value) : List Report :=
  ((node.members?.getD []).keys.filter hasTrailingSlash).map fun path =>
    trailingSlash (location.child path) path

def noTrailingSlash : Rule where
  name := "no-trailing-slash"
  description := "Url should not end with a slash"
  swagger := ⟨[.swagger, .paths], fun kind _ location node =>
    match kind with
    | .swagger => checkUrl "host" location node ++ checkUrl "basePath" location node
    | .paths => checkPathNames location node
    | _ => []⟩
  openApi := ⟨[.paths, .server], fun kind _ location node =>
    match kind with
    | .paths => checkPathNames location node
    | .server => checkUrl "url" location node
    | _ => []⟩

end ApiLint.Rule
