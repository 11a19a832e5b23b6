import ApiLint.Json.Value
import ApiLint.Text.Pieces

/-!
# Locations and references

The place of a node in a document is given by the member names and the decimal element indices that
lead to it from the root. Locations are ordered by their segments, and these by their characters.

A node with a text under `$ref` is a reference. One that starts with `#` is internal: it names a
member of a section of the document, as the section's place, written as a pointer, and one more
segment. In that segment `~1` stands for a slash and `~0` for a tilde.
-/

namespace ApiLint

structure Location where
  segments : List String
  deriving DecidableEq, Repr

namespace Location

def root : Location := ⟨[]⟩

def child (l : Location) (segment : String) : Location := ⟨l.segments ++ [segment]⟩

def index (l : Location) (i : Nat) : Location := l.child (Nat.repr i)

def isRoot (l : Location) : Bool := l.segments.isEmpty

def last? (l : Location) : Option String := l.segments.getLast?

def text (l : Location) : String := String.ofList (Text.join '.' (l.segments.map String.toList))

def before : List String → List String → Bool
  | _, [] => false
  | [], _ :: _ => true
  | a :: as, b :: bs => a < b || (a == b && before as bs)

def less (l m : Location) : Bool := before l.segments m.segments

@[simp] theorem segments_child (l : Location) (segment : String) :
    (l.child segment).segments = l.segments ++ [segment] := rfl

@[simp] theorem segments_root : root.segments = [] := rfl

end Location

open Json

namespace Reference

def ofNode? (node : Value) : Option String := node.stringAt? "$ref"

def isInternal (reference : String) : Bool := Text.startsWith "#" reference

def pointerTo (container : List String) : String :=
  String.ofList ('#' :: (container.flatMap (fun key => '/' :: key.toList) ++ ['/']))

def unescape (segment : List Char) : List Char :=
  Text.replace ['~', '0'] ['~'] (Text.replace ['~', '1'] ['/'] segment)

inductive Resolution where
  | internal (name : String) (location : Location) (node : Value)
  | external
  | unresolved

def nameIn? (container : List String) (reference : String) : Option String :=
  match Text.stripStart? (pointerTo container).toList reference.toList with
  | some (c :: r) =>
    if (c :: r).contains '/' then none else some (String.ofList (unescape (c :: r)))
  | _ => none

def resolve (root : Value) (container : List String) (reference : String) : Resolution :=
  if isInternal reference then
    match nameIn? container reference with
    | some name =>
      match root.descend? container >>= (·.get? name) with
      | some node => .internal name ⟨container ++ [name]⟩ node
      | none => .unresolved
    | none => .unresolved
  else .external

theorem resolve_eq_internal {root : Value} {container : List String} {reference name : String}
    {location : Location} {node : Value}
    (h : resolve root container reference = .internal name location node) :
    location = ⟨container ++ [name]⟩ ∧
      ∃ holder, root.descend? container = some holder ∧ holder.get? name = some node := by
  unfold resolve at h
  split at h
  case isFalse => cases h
  case isTrue =>
    split at h
    case h_2 => cases h
    case h_1 =>
      split at h
      case h_2 => cases h
      case h_1 found =>
        cases h
        exact ⟨rfl, Option.bind_eq_some_iff.1 found⟩

end Reference

end ApiLint
