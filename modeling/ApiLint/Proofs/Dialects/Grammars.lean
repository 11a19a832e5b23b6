import ApiLint.OpenApi.Grammar
import ApiLint.Proofs.Walk.Positions
import ApiLint.Swagger.Grammar

/-!
# The grammars of both dialects

In both grammars the branches of every position are told apart by their keys, and the parts of a
walk have separate places. No reference is followed from the objects at the top, and operations
stand under the names of methods.
-/

namespace ApiLint

open Json Walk

namespace Swagger

theorem Position.apart (p : Position) (v : Value) : Branch.Apart (p.form.branches v) := by
  cases p with
  | parameter =>
    change Branch.Apart (parameterBranches v)
    unfold parameterBranches
    split <;> exact .inl rfl
  | schema =>
    simp only [form, schemaItems]
    split <;> decide
  | _ => exact of_decide_eq_true rfl

theorem separated : grammar.Separated where
  apart := Position.apart
  sections := by decide
  keys := by
    intro s t h
    cases s <;> cases t <;> first | rfl | exact absurd h (by decide)
  paths := ⟨rfl, rfl, rfl⟩
  heads s := by cases s <;> decide
  leaves v branch hb := by
    have hb : branch ∈ (grammar.form grammar.root).branches v := hb
    simp only [grammar, Position.form, List.mem_cons, List.not_mem_nil, or_false] at hb
    rcases hb with rfl | rfl | rfl | rfl | rfl | rfl | rfl | rfl | rfl
    all_goals first
      | exact ⟨_, _, rfl, fun _ => ⟨_, rfl⟩⟩
      | exact ⟨_, _, rfl, fun h => absurd h (by decide)⟩

def Position.IsTop : Position → Prop
  | leaf _ | root | info | securityDefinitions | securityScheme | tag => True
  | _ => False

theorem quiet : grammar.Quiet Position.IsTop where
  replacement p hp s h := by cases p <;> first | exact hp | exact nomatch h
  below p hp v branch hb := by
    have hb : branch ∈ p.form.branches v := hb
    cases p <;> try exact hp.elim
    all_goals
      simp only [Position.form, List.mem_cons, List.not_mem_nil, or_false] at hb
    case root =>
      rcases hb with rfl | rfl | rfl | rfl | rfl | rfl | rfl | rfl | rfl <;> trivial
    case info => rcases hb with rfl | rfl <;> trivial
    all_goals subst hb; trivial

theorem Position.kind_ne_operation {p : Position} (hp : p ≠ .pathItem) (v : Value) :
    ∀ branch ∈ p.form.branches v, branch.place.position.form.kind ≠ some .operation := by
  cases p with
  | pathItem => exact absurd rfl hp
  | parameter =>
    change ∀ branch ∈ parameterBranches v, _
    unfold parameterBranches
    split <;> decide
  | schema =>
    simp only [form, schemaItems]
    split <;> decide
  | _ => exact of_decide_eq_true rfl

theorem keyed_operation : grammar.Keyed .operation methods where
  reference := by decide
  below p v branch hb hk := by
    by_cases hp : p = .pathItem
    · subst hp
      rcases List.mem_append.1 hb with hb | hb
      · obtain ⟨key, hkey, rfl⟩ := List.mem_map.1 hb
        exact ⟨key, hkey, _, rfl⟩
      · have hnone : ∀ branch ∈ [Branch.items "parameters" Position.parameter],
            branch.place.position.form.kind ≠ some .operation := by decide
        exact absurd hk (hnone branch hb)
    · exact absurd hk (Position.kind_ne_operation hp v branch hb)
  root := by decide
  paths := by decide
  member s := by cases s <;> decide

end Swagger

namespace OpenApi

theorem Position.apart (p : Position) (v : Value) : Branch.Apart (p.form.branches v) := by
  cases p with
  | parameter =>
    change Branch.Apart (parameterBranches v)
    unfold parameterBranches
    split <;> decide
  | schema =>
    simp only [form, schemaItems]
    split <;> decide
  | securityScheme =>
    change Branch.Apart (securitySchemeBranches v)
    unfold securitySchemeBranches
    split <;> decide
  | _ => exact of_decide_eq_true rfl

theorem separated : grammar.Separated where
  apart := Position.apart
  sections := by decide
  keys := by
    intro s t h
    have hkey : Section.key s = Section.key t := h
    exact Option.some.inj (by rw [← Section.ofKey?_key s, hkey, Section.ofKey?_key])
  paths := ⟨rfl, rfl, rfl⟩
  heads s := by cases s <;> decide
  leaves v branch hb := by
    have hb : branch ∈ (grammar.form grammar.root).branches v := hb
    simp only [grammar, Position.form, List.mem_cons, List.not_mem_nil, or_false] at hb
    rcases hb with rfl | rfl | rfl | rfl | rfl | rfl | rfl
    all_goals first
      | exact ⟨_, _, rfl, fun _ => ⟨_, rfl⟩⟩
      | exact ⟨_, _, rfl, fun h => absurd h (by decide)⟩

def Position.IsTop : Position → Prop
  | leaf _ | root | info | server | tag => True
  | _ => False

theorem quiet : grammar.Quiet Position.IsTop where
  replacement p hp s h := by cases p <;> first | exact hp | exact nomatch h
  below p hp v branch hb := by
    have hb : branch ∈ p.form.branches v := hb
    cases p <;> try exact hp.elim
    all_goals
      simp only [Position.form, List.mem_cons, List.not_mem_nil, or_false] at hb
    case root => rcases hb with rfl | rfl | rfl | rfl | rfl | rfl | rfl <;> trivial
    case info => rcases hb with rfl | rfl <;> trivial
    all_goals subst hb; trivial

theorem Position.kind_ne_operation {p : Position} (hp : p ≠ .pathItem) (v : Value) :
    ∀ branch ∈ p.form.branches v, branch.place.position.form.kind ≠ some .operation := by
  cases p with
  | pathItem => exact absurd rfl hp
  | parameter =>
    change ∀ branch ∈ parameterBranches v, _
    unfold parameterBranches
    split <;> decide
  | schema =>
    simp only [form, schemaItems]
    split <;> decide
  | securityScheme =>
    change ∀ branch ∈ securitySchemeBranches v, _
    unfold securitySchemeBranches
    split <;> decide
  | _ => exact of_decide_eq_true rfl

theorem keyed_operation : grammar.Keyed .operation methods where
  reference := by decide
  below p v branch hb hk := by
    by_cases hp : p = .pathItem
    · subst hp
      rcases List.mem_append.1 hb with hb | hb
      · obtain ⟨key, hkey, rfl⟩ := List.mem_map.1 hb
        exact ⟨key, hkey, _, rfl⟩
      · have hnone : ∀ branch ∈ [Position.servers, Position.parameters],
            branch.place.position.form.kind ≠ some .operation := by decide
        exact absurd hk (hnone branch hb)
    · exact absurd hk (Position.kind_ne_operation hp v branch hb)
  root := by decide
  paths := by decide
  member s := by cases s <;> decide

end OpenApi

end ApiLint
