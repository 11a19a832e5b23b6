import ApiLint.Proofs.Dialects.Ignored
import ApiLint.Proofs.Document.Reordering
import ApiLint.Proofs.Walk.Reordering

/-!
# Reordered documents in both dialects

In neither grammar do the branches of a node depend on the order of its members. So a document and
its reorderings are walked alike, with what is ignored in them or without.
-/

namespace ApiLint

open Json Walk Grammar

theorem Swagger.orderFree : grammar.OrderFree := by
  intro p v w h
  cases p with
  | parameter =>
    change Position.parameterBranches v = Position.parameterBranches w
    unfold Position.parameterBranches
    rw [h.stringAt?_eq]
  | schema =>
    have hitems := h.isSome_get?_bind "items" fun _ _ hxy => hxy.isSome_items?
    simp only [grammar, Position.form, Position.schemaItems, hitems]
  | _ => rfl

theorem OpenApi.orderFree : grammar.OrderFree := by
  intro p v w h
  cases p with
  | parameter =>
    change Position.parameterBranches v = Position.parameterBranches w
    unfold Position.parameterBranches
    rw [h.isSome_get?]
  | securityScheme =>
    change Position.securitySchemeBranches v = Position.securitySchemeBranches w
    unfold Position.securitySchemeBranches
    rw [h.stringAt?_eq]
  | schema =>
    have hitems := h.isSome_get?_bind "items" fun _ _ hxy => hxy.isSome_items?
    simp only [grammar, Position.form, Position.schemaItems, hitems]
  | _ => rfl

namespace Walked

variable {K S P : Type} [DecidableEq K]

/-- Both walks fail, or both come to an end and have the same locations under every kind, up to
their order. -/
def SameLocations : Except ShapeError (List (Visit K)) → Except ShapeError (List (Visit K)) → Prop
  | .ok vs, .ok ws =>
    ∀ kind, ((ofKind vs kind).map Visit.location).Perm ((ofKind ws kind).map Visit.location)
  | .error _, .error _ => True
  | _, _ => False

theorem sameLocations_walk [DecidableEq S] {g : Grammar K S P} (hg : g.OrderFree)
    (hsep : g.Separated) {d d' : Value} (h : d.Reordered d') (hd : d.Distinct) :
    SameLocations (g.walk d) (g.walk d') := by
  cases hv : g.walk d with
  | ok vs =>
    obtain ⟨ws, hw⟩ := exists_walk_reordered hg hsep.sections h hd hv
    rw [hw]
    exact perm_locations hg hsep h hd hv hw
  | error e =>
    cases hw : g.walk d' with
    | ok ws =>
      obtain ⟨vs, hv'⟩ := exists_walk_reordered hg hsep.sections h.symm (h.distinct hd) hw
      rw [hv] at hv'
      cases hv'
    | error e' => trivial

end Walked

end ApiLint
