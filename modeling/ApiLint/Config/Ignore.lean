import ApiLint.Json.Decode
import ApiLint.OpenApi.Basic

/-!
# Ignore lists

The names of the members that are taken out of a document before it is walked: paths, definitions,
and the members of each section of the components.
-/

namespace ApiLint

open Json OpenApi

structure Ignore where
  definitions : List String
  paths : List String
  components : Section → List String

namespace Ignore

def empty : Ignore := ⟨[], [], fun _ => []⟩

def componentsEmpty (components : Section → List String) : Bool :=
  Section.all.all fun s => (components s).isEmpty

def isEmpty (i : Ignore) : Bool :=
  i.definitions.isEmpty && i.paths.isEmpty && componentsEmpty i.components

def section? (i : Ignore) (key : String) : List String :=
  match Section.ofKey? key with
  | some s => i.components s
  | none => []

/-- The names of the first list, then those that only the second has. -/
def union (xs ys : List String) : List String :=
  ys.foldl (fun acc y => if acc.contains y then acc else acc ++ [y]) xs

def merge (i j : Ignore) : Ignore :=
  ⟨union i.definitions j.definitions, union i.paths j.paths,
    fun s => union (i.components s) (j.components s)⟩

def listMember (key : String) (xs : List String) : Members :=
  if xs.isEmpty then [] else [(key, .ofTexts xs)]

def componentMembers (components : Section → List String) : Members :=
  Section.all.flatMap fun s => listMember s.key (components s)

def toValue (i : Ignore) : Value :=
  .object (listMember "definitions" i.definitions ++ listMember "paths" i.paths ++
    if componentsEmpty i.components then []
    else [("components", .object (componentMembers i.components))])

def componentFields : Decode.Fields where
  type := "struct ComponentsIgnore"
  names := Section.all.map Section.key
  required := 0
  closed := true

def fields : Decode.Fields where
  type := "struct IgnoreConfig"
  names := ["definitions", "paths", "components"]
  required := 0
  closed := true

variable {E : Type}

def setComponent (components : Section → List String) (key : String) (v : Value) :
    Except (DecodeError E) (Section → List String) := do
  let names ← Decode.texts v
  return fun s => if s.key = key then names else components s

def setField (i : Ignore) (key : String) (v : Value) : Except (DecodeError E) Ignore :=
  match key with
  | "definitions" => return { i with definitions := ← Decode.texts v }
  | "paths" => return { i with paths := ← Decode.texts v }
  | "components" =>
    return { i with components := ← Decode.record componentFields (fun _ => []) setComponent v }
  | _ => return i

def ofValue? (v : Value) : Except (DecodeError E) Ignore := Decode.record fields empty setField v

end Ignore

end ApiLint
