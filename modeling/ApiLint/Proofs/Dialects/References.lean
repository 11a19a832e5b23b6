import ApiLint.Proofs.Dialects.Ignored
import ApiLint.Proofs.Walk.References

/-!
# References of both dialects

The kinds of nodes that a reference may replace, and that each position at which such a node stands
looks for one.
-/

namespace ApiLint

open Json Walk Grammar

namespace Swagger

def replaceable : List Kind := [.pathItem, .parameter, .response, .schema]

def Position.IsSound : Position → Prop
  | leaf kind => kind ≠ .reference ∧ kind ∉ replaceable
  | _ => True

theorem Position.sound_of_mem_branches (p : Position) (v : Value) :
    ∀ branch ∈ p.form.branches v, branch.place.position.IsSound := by
  cases p with
  | parameter =>
    change ∀ branch ∈ parameterBranches v, _
    unfold parameterBranches
    split <;> simp [Branch.one, Branch.place, Place.position, IsSound]
  | schema =>
    simp only [form, schemaItems]
    split <;> simp [Branch.one, Branch.items, Branch.entries, Branch.place, Place.position, IsSound,
      externalDocs, replaceable]
  | _ =>
    simp [form, methods, Branch.one, Branch.items, Branch.place, Place.position, IsSound,
      externalDocs, security, replaceable]

theorem refers : grammar.Refers replaceable Position.IsSound where
  below p _ v := p.sound_of_mem_branches v
  root := trivial
  paths := trivial
  member s := by cases s <;> trivial
  kind p hp := by
    cases p with
    | leaf kind => exact fun h => hp.1 (Option.some.inj h)
    | _ => exact of_decide_eq_true rfl
  gives_way p hp := by
    cases p with
    | leaf kind => exact .inr fun k hk h => hp.2 (Option.some.inj h ▸ hk)
    | _ => exact of_decide_eq_true rfl
  own := by decide

end Swagger

namespace OpenApi

def replaceable : List Kind :=
  [.pathItem, .schema, .exampleObject, .header, .response, .link, .requestBody, .parameter,
    .callback, .securityScheme]

def Position.IsSound : Position → Prop
  | leaf kind => kind ≠ .reference ∧ kind ∉ replaceable
  | _ => True

theorem Position.sound_of_mem_branches (p : Position) (v : Value) :
    ∀ branch ∈ p.form.branches v, branch.place.position.IsSound := by
  cases p with
  | parameter =>
    change ∀ branch ∈ parameterBranches v, _
    unfold parameterBranches
    split <;> simp [Branch.one, Branch.entries, Branch.place, Place.position, IsSound, content,
      examples]
  | schema =>
    simp only [form, schemaItems]
    split <;> simp [Branch.one, Branch.items, Branch.entries, Branch.place, Place.position, IsSound,
      externalDocs, replaceable]
  | securityScheme =>
    change ∀ branch ∈ securitySchemeBranches v, _
    unfold securitySchemeBranches
    split <;> simp [Branch.one, Branch.place, Place.position, IsSound]
  | _ =>
    simp [form, methods, flows, Branch.one, Branch.items, Branch.entries, Branch.place,
      Place.position, IsSound, externalDocs, security, servers, parameters, examples, content,
      headers, replaceable]

theorem refers : grammar.Refers replaceable Position.IsSound where
  below p _ v := p.sound_of_mem_branches v
  root := trivial
  paths := trivial
  member s := by cases s <;> trivial
  kind p hp := by
    cases p with
    | leaf kind => exact fun h => hp.1 (Option.some.inj h)
    | _ => exact of_decide_eq_true rfl
  gives_way p hp := by
    cases p with
    | leaf kind => exact .inr fun k hk h => hp.2 (Option.some.inj h ▸ hk)
    | _ => exact of_decide_eq_true rfl
  own := by decide

end OpenApi

theorem leafReferences_recorded {document : Value} (hd : document.Distinct) :
    (∀ vs, Swagger.grammar.walk document = .ok vs →
      Swagger.grammar.LeafReferences Swagger.replaceable vs) ∧
    (∀ vs, OpenApi.grammar.walk document = .ok vs →
      OpenApi.grammar.LeafReferences OpenApi.replaceable vs) := by
  constructor
  case left =>
    intro vs h
    exact leafReferences_walk Swagger.refers Swagger.separated Swagger.rooted hd h
  case right =>
    intro vs h
    exact leafReferences_walk OpenApi.refers OpenApi.separated OpenApi.rooted hd h

theorem leafReferences_recorded_looped : looped.Distinct ∧
    (∃ vs, Swagger.grammar.walk looped = .ok vs ∧
      Swagger.grammar.LeafReferences Swagger.replaceable vs) ∧
    (∃ vs, OpenApi.grammar.walk looped = .ok vs ∧
      OpenApi.grammar.LeafReferences OpenApi.replaceable vs) := by
  obtain ⟨hswagger, hopenApi⟩ := leafReferences_recorded distinct_looped
  exact ⟨distinct_looped, ⟨_, swagger_walk_looped, hswagger _ swagger_walk_looped⟩,
    ⟨_, openApi_walk_looped, hopenApi _ openApi_walk_looped⟩⟩

end ApiLint
