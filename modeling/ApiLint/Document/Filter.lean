import ApiLint.Config.Ignore
import ApiLint.Json.Value
import ApiLint.Text.Pieces

/-!
# Dialects and their ignored members

There are two families of documents, told apart by the version field in an object that also has the
objects `info` and `paths`. Ignored members are taken out of their containers, and nothing else
changes: Swagger documents honour the lists of paths and definitions, OpenAPI documents those of
paths and components.
-/

namespace ApiLint

open Json

inductive Dialect where
  | swagger
  | openApi
  deriving DecidableEq, Repr

namespace Dialect

def name : Dialect → String
  | swagger => "Swagger 2.0"
  | openApi => "OpenAPI 3.x"

def hasObject (document : Value) (key : String) : Bool :=
  (document.get? key >>= Value.members?).isSome

def detect? (document : Value) : Option Dialect :=
  if hasObject document "info" && hasObject document "paths" then
    if document.stringAt? "swagger" = some "2.0" then some swagger
    else match document.stringAt? "openapi" with
      | some version => if Text.startsWith "3." version then some openApi else none
      | none => none
  else none

end Dialect

namespace Json.Value

def modifyMembers (f : Members → Members) : List String → Value → Value
  | [], .object ms => .object (f ms)
  | key :: path, .object ms =>
    .object (ms.map fun m => if m.1 = key then (m.1, modifyMembers f path m.2) else m)
  | _, v => v

end Json.Value

namespace Ignore

/-- The containers that a dialect honours, each with the names that are ignored in it. -/
def lists (i : Ignore) : Dialect → List (List String × List String)
  | .swagger => [(["paths"], i.paths), (["definitions"], i.definitions)]
  | .openApi =>
    (["paths"], i.paths) :: OpenApi.Section.all.map fun s => (s.container, i.components s)

def hasAny (document : Value) (container names : List String) : Bool :=
  match document.descend? container >>= Value.members? with
  | some ms => names.any fun name => ms.contains name
  | none => false

def removeNames (names : List String) (ms : Members) : Members :=
  ms.filter fun m => !names.contains m.1

def filter? (i : Ignore) (dialect : Dialect) (document : Value) : Option Value :=
  if (i.lists dialect).any fun l => hasAny document l.1 l.2 then
    some ((i.lists dialect).foldl (fun d l => d.modifyMembers (removeNames l.2) l.1) document)
  else none

def filter (i : Ignore) (dialect : Dialect) (document : Value) : Value :=
  (i.filter? dialect document).getD document

end Ignore

end ApiLint
