import ApiLint.OpenApi.Grammar
import ApiLint.Proofs.Walk.Operations
import ApiLint.Swagger.Grammar

/-!
# Operations of both dialects

In both grammars a path item has operations under the names of methods, and no other position leads
to one.
-/

namespace ApiLint

open Json Walk Grammar

namespace Swagger

def Position.operative : List Position := [leaf .operation, paths, pathItem, operation]

theorem lacks_operations : grammar.Lacks .operation (· ∉ Position.operative) where
  reference := by decide
  kind p hp := by
    cases p with
    | leaf kind =>
      intro h
      obtain rfl := Option.some.inj h
      exact hp List.mem_cons_self
    | operation => exact absurd (by decide) hp
    | _ => exact of_decide_eq_true rfl
  below p hp v := by
    cases p with
    | paths | pathItem | operation => exact absurd (by decide) hp
    | parameter =>
      change ∀ branch ∈ Position.parameterBranches v, _
      unfold Position.parameterBranches
      split <;> decide
    | schema =>
      change ∀ branch ∈ (Position.form .schema).branches v, _
      simp only [Position.form, Position.schemaItems]
      split <;> decide
    | _ => exact of_decide_eq_true rfl

theorem operates :
    grammar.Operates .operation methods .pathItem .operation (· ∉ Position.operative) where
  lacks := lacks_operations
  root := by decide
  member s := by cases s <;> decide
  paths := rfl
  item := ⟨.pathItem, [.items "parameters" .parameter], by decide, by decide, rfl⟩
  operation := ⟨_, fun _ => of_decide_eq_true rfl, rfl⟩

end Swagger

namespace OpenApi

def Position.operative : List Position := [leaf .operation, paths, pathItem, operation]

theorem lacks_operations : grammar.Lacks .operation (· ∉ Position.operative) where
  reference := by decide
  kind p hp := by
    cases p with
    | leaf kind =>
      intro h
      obtain rfl := Option.some.inj h
      exact hp List.mem_cons_self
    | operation => exact absurd (by decide) hp
    | _ => exact of_decide_eq_true rfl
  below p hp v := by
    cases p with
    | paths | pathItem | operation => exact absurd (by decide) hp
    | parameter =>
      change ∀ branch ∈ Position.parameterBranches v, _
      unfold Position.parameterBranches
      split <;> decide
    | schema =>
      change ∀ branch ∈ (Position.form .schema).branches v, _
      simp only [Position.form, Position.schemaItems]
      split <;> decide
    | securityScheme =>
      change ∀ branch ∈ Position.securitySchemeBranches v, _
      unfold Position.securitySchemeBranches
      split <;> decide
    | _ => exact of_decide_eq_true rfl

theorem operates :
    grammar.Operates .operation methods .pathItem .operation (· ∉ Position.operative) where
  lacks := lacks_operations
  root := by decide
  member s := by cases s <;> decide
  paths := rfl
  item := ⟨.pathItem, [Position.servers, Position.parameters], by decide, by decide, rfl⟩
  operation := ⟨_, fun _ => of_decide_eq_true rfl, rfl⟩

end OpenApi

end ApiLint
