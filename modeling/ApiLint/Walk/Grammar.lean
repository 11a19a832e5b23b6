import ApiLint.Document.Reference

/-!
# Grammars of documents

A grammar says what may stand at each position of a document: whether the node may be a boolean or a
reference instead, under which kind it is recorded, what shape it must have, and at which positions
its children stand. The children of a node are told apart by their segments.
-/

namespace ApiLint.Walk

open Json

inductive Shape where
  | object
  | array
  deriving DecidableEq, Repr

def Shape.fits : Shape → Value → Bool
  | object, v => v.members?.isSome
  | array, v => v.items?.isSome

/-- What stands in one place: one node at a position, or a list or a map of such nodes. -/
inductive Place (P : Type) where
  | one (position : P)
  | items (position : P)
  | entries (position : P)
  deriving DecidableEq, Repr

/-- A group of children of a node. Members whose name starts with `x-` are vendor extensions. -/
inductive Branch (P : Type) where
  | field (key : String) (place : Place P)
  | members (extensions : Bool) (place : Place P)
  | elements (place : Place P)
  deriving DecidableEq, Repr

/-- What a reference does in a position: it is an ordinary node, it is recorded, or it is recorded
and followed into a section. -/
inductive Replacement (S : Type) where
  | never
  | recorded
  | followed (into : S)
  deriving DecidableEq, Repr

structure Form (K S P : Type) where
  boolean : Bool := false
  replacement : Replacement S := .never
  kind : Option K := none
  shape : Option Shape := none
  branches : Value → List (Branch P) := fun _ => []

structure Grammar (K S P : Type) where
  form : P → Form K S P
  reference : K
  root : P
  paths : P
  sections : List S
  mem_sections : ∀ s, s ∈ sections
  key : S → String
  holder : List String
  member : S → P

namespace Grammar

variable {K S P : Type}

def container (g : Grammar K S P) (s : S) : List String := g.holder ++ [g.key s]

def formOf (g : Grammar K S P) : Place P → Form K S P
  | .one p => g.form p
  | .items p =>
    { boolean := false, replacement := .never, kind := none, shape := some .array,
      branches := fun _ => [.elements (.one p)] }
  | .entries p =>
    { boolean := false, replacement := .never, kind := none, shape := some .object,
      branches := fun _ => [.members true (.one p)] }

end Grammar

structure Child (P : Type) where
  segment : String
  place : Place P
  node : Value

def isExtension (key : String) : Bool := Text.startsWith "x-" key

namespace Branch

variable {P : Type}

def one (key : String) (p : P) : Branch P := field key (.one p)

def items (key : String) (p : P) : Branch P := field key (.items p)

def entries (key : String) (p : P) : Branch P := field key (.entries p)

def children (v : Value) : Branch P → List (Child P)
  | field key place =>
    match v.get? key with
    | some w => [⟨key, place, w⟩]
    | none => []
  | members extensions place =>
    match v.members? with
    | some ms =>
      (ms.filter fun m => extensions || !isExtension m.1).map fun m => ⟨m.1, place, m.2⟩
    | none => []
  | elements place =>
    match v.items? with
    | some xs => xs.zipIdx.map fun (x, i) => ⟨Nat.repr i, place, x⟩
    | none => []

theorem sizeOf_lt_of_mem_children {v : Value} {branch : Branch P} {c : Child P}
    (h : c ∈ branch.children v) : sizeOf c.node < sizeOf v := by
  cases branch with
  | field key place =>
    cases hv : v.members? with
    | none => simp [children, Value.get?, hv] at h
    | some ms =>
      cases hw : Members.get? ms key with
      | none => simp [children, Value.get?, hv, hw] at h
      | some w =>
        obtain rfl : c = ⟨key, place, w⟩ := by simpa [children, Value.get?, hv, hw] using h
        exact Value.sizeOf_lt_of_mem_members hv (Members.mem_of_get? hw)
  | members extensions place =>
    cases hv : v.members? with
    | none => simp [children, hv] at h
    | some ms =>
      simp only [children, hv, List.mem_map] at h
      obtain ⟨m, hm, rfl⟩ := h
      exact Value.sizeOf_lt_of_mem_members hv (List.mem_filter.1 hm).1
  | elements place =>
    cases hv : v.items? with
    | none => simp [children, hv] at h
    | some xs =>
      simp only [children, hv, List.mem_map] at h
      obtain ⟨⟨x, i⟩, hx, rfl⟩ := h
      exact Value.sizeOf_lt_of_mem_items hv (List.fst_mem_of_mem_zipIdx hx)

end Branch

namespace Form

variable {K S P : Type}

def children (form : Form K S P) (v : Value) : List (Child P) :=
  (form.branches v).flatMap (·.children v)

theorem sizeOf_lt_of_mem_children {form : Form K S P} {v : Value} {c : Child P}
    (h : c ∈ form.children v) : sizeOf c.node < sizeOf v := by
  obtain ⟨branch, -, hc⟩ := List.mem_flatMap.1 h
  exact Branch.sizeOf_lt_of_mem_children hc

/-- The references to follow when a reference stands here, or nothing if the node is not replaced by
one. -/
def replacedBy? (form : Form K S P) (v : Value) : Option (List (S × String)) :=
  match form.replacement with
  | .never => none
  | .recorded => (Reference.ofNode? v).map fun _ => []
  | .followed s =>
    (Reference.ofNode? v).map fun r => if Reference.isInternal r then [(s, r)] else []

def mismatch? (form : Form K S P) (v : Value) : Option Shape :=
  match form.shape with
  | some shape => if shape.fits v then none else some shape
  | none => none

end Form

end ApiLint.Walk
