import ApiLint.Walk.Grammar

/-!
# Walking one node

The trail of a node is what a walk records in it and below it, without following references: the
visited nodes, each before its children, and the references that may be followed. A node of the
wrong shape ends the walk.
-/

namespace ApiLint.Walk

open Json

structure Visit (K : Type) where
  kind : K
  location : Location
  node : Value

structure ShapeError where
  location : Location
  expected : Shape
  deriving DecidableEq, Repr

namespace Shape

def description : Shape → String
  | object => "an object"
  | array => "an array"

end Shape

def ShapeError.message (e : ShapeError) : String :=
  "expected " ++ e.expected.description ++ " at \"" ++ e.location.text ++ "\""

structure Trail (K S : Type) where
  visits : List (Visit K)
  references : List (S × String)

namespace Trail

variable {K S : Type}

def empty : Trail K S := ⟨[], []⟩

def append (s t : Trail K S) : Trail K S := ⟨s.visits ++ t.visits, s.references ++ t.references⟩

def concat (ts : List (Trail K S)) : Trail K S :=
  ⟨ts.flatMap Trail.visits, ts.flatMap Trail.references⟩

def record (kind : Option K) (location : Location) (node : Value) (t : Trail K S) : Trail K S :=
  match kind with
  | some k => ⟨⟨k, location, node⟩ :: t.visits, t.references⟩
  | none => t

@[simp] theorem visits_append (s t : Trail K S) : (s.append t).visits = s.visits ++ t.visits := rfl

@[simp] theorem references_append (s t : Trail K S) :
    (s.append t).references = s.references ++ t.references := rfl

@[simp] theorem concat_nil : concat ([] : List (Trail K S)) = empty := rfl

theorem concat_cons (t : Trail K S) (ts : List (Trail K S)) :
    concat (t :: ts) = t.append (concat ts) := by
  simp [concat, append]

end Trail

namespace Grammar

variable {K S P : Type}

def trail (g : Grammar K S P) (place : Place P) (location : Location) (node : Value) :
    Except ShapeError (Trail K S) :=
  let form := g.formOf place
  if form.boolean && node.isBool then .ok .empty
  else match form.replacedBy? node with
    | some references => .ok ⟨[⟨g.reference, location, node⟩], references⟩
    | none =>
      match form.mismatch? node with
      | some shape => .error ⟨location, shape⟩
      | none => do
        let below ← (form.children node).attach.mapM fun (c : {c // c ∈ form.children node}) =>
          g.trail c.val.place (location.child c.val.segment) c.val.node
        return (Trail.concat below).record form.kind location node
termination_by sizeOf node
decreasing_by exact Form.sizeOf_lt_of_mem_children c.property

def trails (g : Grammar K S P) (location : Location) (children : List (Child P)) :
    Except ShapeError (List (Trail K S)) :=
  children.mapM fun c => g.trail c.place (location.child c.segment) c.node

theorem trail_eq (g : Grammar K S P) (place : Place P) (location : Location) (node : Value) :
    g.trail place location node =
      if (g.formOf place).boolean && node.isBool then .ok .empty
      else match (g.formOf place).replacedBy? node with
        | some references => .ok ⟨[⟨g.reference, location, node⟩], references⟩
        | none =>
          match (g.formOf place).mismatch? node with
          | some shape => .error ⟨location, shape⟩
          | none =>
            (g.trails location ((g.formOf place).children node)).map fun below =>
              (Trail.concat below).record (g.formOf place).kind location node := by
  rw [trail]
  simp only [trails]
  split
  · rfl
  · split
    · rfl
    · split
      · rfl
      · rw [List.mapM_subtype (g := fun c => g.trail c.place (location.child c.segment) c.node)
          (fun _ _ => rfl), List.unattach_attach]
        rfl

end Grammar

end ApiLint.Walk
