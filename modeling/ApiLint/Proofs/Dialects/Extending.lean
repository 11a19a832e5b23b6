import ApiLint.Proofs.Dialects.Ignored
import ApiLint.Proofs.Walk.ExtendedWalk

/-!
# Vendor extensions in both dialects

Neither grammar looks at extensions to tell what a node is. Where members of any name are children,
as in the name maps of Swagger, an extension is a child too. All other nodes that are recorded pass
over it.
-/

namespace ApiLint

open Json Walk Grammar Walked

namespace Extension

theorem isSome_get?_put {key : String} (hk : isExtension key = false) (e : Extension) (spot : Spot)
    (v : Value) : ((e.put spot v).get? key).isSome = (v.get? key).isSome := by
  rw [get?_put fun _ => hk, Option.isSome_map]

theorem isSome_items?_at (key : String) (hk : isExtension key = false) (e : Extension)
    (spot : Spot) (v : Value) : ((e.put spot v).get? key >>= Value.items?).isSome =
      (v.get? key >>= Value.items?).isSome := by
  rw [get?_put fun _ => hk]
  cases v.get? key with
  | none => rfl
  | some w => exact isSome_items?_put e _ w

end Extension

namespace Swagger

def nameMaps : List Kind :=
  [.headers, .definitions, .parametersDefinitions, .responsesDefinitions, .securityDefinitions]

theorem Position.branches_put (p : Position) (e : Extension) (spot : Spot) (v : Value) :
    p.form.branches (e.put spot v) = p.form.branches v := by
  cases p with
  | parameter =>
    change parameterBranches (e.put spot v) = parameterBranches v
    unfold parameterBranches
    rw [Extension.stringAt?_put (by decide)]
  | schema =>
    have hitems := Extension.isSome_items?_at "items" (by decide) e spot v
    simp only [form, schemaItems, hitems]
  | _ => rfl

theorem Position.plain (p : Position) (v : Value) : ∀ branch ∈ p.form.branches v, branch.Plain := by
  cases p with
  | parameter =>
    change ∀ branch ∈ parameterBranches v, _
    unfold parameterBranches
    split <;> decide
  | schema =>
    simp only [form, schemaItems]
    split <;> decide
  | _ => exact of_decide_eq_true rfl

theorem steady : grammar.Steady where
  branches := Position.branches_put
  plain := Position.plain
  paths _ := of_decide_eq_true rfl
  holder := List.forall_mem_nil _
  key s := by cases s <;> decide

theorem passesOver {k : Kind} (hk : k ∉ nameMaps) : grammar.PassesOver k := by
  intro p hp v
  cases p with
  | headers => exact absurd (Option.some.inj hp ▸ hk) (by decide)
  | securityDefinitions => exact absurd (Option.some.inj hp ▸ hk) (by decide)
  | parameter =>
    change ∀ branch ∈ Position.parameterBranches v, _
    unfold Position.parameterBranches
    split <;> decide
  | schema =>
    simp only [grammar, Position.form, Position.schemaItems]
    split <;> decide
  | _ => exact of_decide_eq_true rfl

theorem ne_container {document : Value} {vs : List (Visit Kind)}
    (h : grammar.walk document = .ok vs) {w : Visit Kind} (hw : w ∈ vs) (hk : w.kind ∉ nameMaps)
    (s : Section) : w.location.segments ≠ grammar.container s := by
  intro hl
  have habove := above_of_mem_walk separated rooted (.inr ⟨s, rfl⟩) h hw (hl ▸ List.prefix_rfl)
  have htops := mem_tops_of_above habove
  -- What stands at a container is recorded as a name map.
  have hmaps : ∀ top ∈ tops, top.1 = grammar.container s → top.2 ∈ nameMaps := by
    cases s <;> decide
  exact hk (hmaps _ htops hl)

end Swagger

namespace OpenApi

theorem Position.branches_put (p : Position) (e : Extension) (spot : Spot) (v : Value) :
    p.form.branches (e.put spot v) = p.form.branches v := by
  cases p with
  | parameter =>
    change parameterBranches (e.put spot v) = parameterBranches v
    unfold parameterBranches
    rw [Extension.isSome_get?_put (by decide)]
  | securityScheme =>
    change securitySchemeBranches (e.put spot v) = securitySchemeBranches v
    unfold securitySchemeBranches
    rw [Extension.stringAt?_put (by decide)]
  | schema =>
    have hitems := Extension.isSome_items?_at "items" (by decide) e spot v
    simp only [form, schemaItems, hitems]
  | _ => rfl

theorem Position.plain (p : Position) (v : Value) : ∀ branch ∈ p.form.branches v, branch.Plain := by
  cases p with
  | parameter =>
    change ∀ branch ∈ parameterBranches v, _
    unfold parameterBranches
    split <;> decide
  | schema =>
    simp only [form, schemaItems]
    split <;> decide
  | securityScheme =>
    change ∀ branch ∈ securitySchemeBranches v, _
    unfold securitySchemeBranches
    split <;> decide
  | _ => exact of_decide_eq_true rfl

theorem steady : grammar.Steady where
  branches := Position.branches_put
  plain := Position.plain
  paths _ := of_decide_eq_true rfl
  holder := by decide
  key s := by cases s <;> decide

theorem passesOver (k : Kind) : grammar.PassesOver k := by
  intro p _ v
  cases p with
  | parameter =>
    change ∀ branch ∈ Position.parameterBranches v, _
    unfold Position.parameterBranches
    split <;> decide
  | schema =>
    simp only [grammar, Position.form, Position.schemaItems]
    split <;> decide
  | securityScheme =>
    change ∀ branch ∈ Position.securitySchemeBranches v, _
    unfold Position.securitySchemeBranches
    split <;> decide
  | _ => exact of_decide_eq_true rfl

theorem ne_container {document : Value} {vs : List (Visit Kind)}
    (h : grammar.walk document = .ok vs) {w : Visit Kind} (hw : w ∈ vs) (s : Section) :
    w.location.segments ≠ grammar.container s := by
  intro hl
  have habove := above_of_mem_walk separated rooted (.inr ⟨s, rfl⟩) h hw (hl ▸ List.prefix_rfl)
  have htops := mem_tops_of_above habove
  -- Nothing is recorded at a container, only at the components that it is in.
  have hnone : ∀ top ∈ tops, top.1 ≠ grammar.container s := by
    cases s <;> decide
  exact hnone _ htops hl

end OpenApi

variable {K S P : Type} [DecidableEq K] [DecidableEq S] {g : Grammar K S P} {document : Value}

/-- The extension stands in the object at a location, and the walk records what it records without
it, in the same order. -/
structure PassedOver (g : Grammar K S P) (document : Value) (vs : List (Visit K)) (l : Location)
    (ms : Members) (e : Extension) : Prop where
  put : (document.modifyAt e.into l.segments).at? l.segments = some (.object (e.among ms))
  walked : ∃ ws, g.walk (document.modifyAt e.into l.segments) = .ok ws ∧ ∀ kind,
    (ofKind ws kind).map Visit.location = (ofKind vs kind).map Visit.location

theorem passedOver_of_steady (hg : g.Steady) (hsep : g.Separated) (hd : document.Distinct)
    {vs : List (Visit K)} (h : g.walk document = .ok vs) {w : Visit K} (hw : w ∈ vs)
    (hk : g.PassesOver w.kind) (hc : ∀ s, w.location.segments ≠ g.container s) {ms : Members}
    (hnode : w.node = .object ms) (e : Extension) :
    PassedOver g document vs w.location ms e where
  put := by
    rw [Value.at?_modifyAt, (faithful_walk hsep.sections hd h).reached w hw, hnode]
    rfl
  walked := by
    obtain ⟨ws, hws, hlabels⟩ := exists_walk_extended hg hsep hd h hw hk hc e
    refine ⟨ws, hws, fun kind => ?_⟩
    rw [locations_ofKind, locations_ofKind, hlabels]

/-- Vendor extensions do not change a walk, wherever they are no names of members. -/
theorem passedOver_extensions (hd : document.Distinct) (e : Extension) :
    (∀ vs, Swagger.grammar.walk document = .ok vs → ∀ w ∈ vs, ∀ ms, w.node = .object ms →
      w.kind ∉ Swagger.nameMaps → PassedOver Swagger.grammar document vs w.location ms e) ∧
    (∀ vs, OpenApi.grammar.walk document = .ok vs → ∀ w ∈ vs, ∀ ms, w.node = .object ms →
      PassedOver OpenApi.grammar document vs w.location ms e) := by
  constructor
  case left =>
    intro vs h w hw ms hnode hk
    exact passedOver_of_steady Swagger.steady Swagger.separated hd h hw (Swagger.passesOver hk)
      (Swagger.ne_container h hw hk) hnode e
  case right =>
    intro vs h w hw ms hnode
    exact passedOver_of_steady OpenApi.steady OpenApi.separated hd h hw (OpenApi.passesOver w.kind)
      (OpenApi.ne_container h hw) hnode e

def note : Extension := ⟨"x-note", .object [("text", .string "internal")], 0, by decide⟩

theorem passedOver_extensions_looped : looped.Distinct ∧
    (∃ vs, Swagger.grammar.walk looped = .ok vs ∧
      PassedOver Swagger.grammar looped vs ⟨["parameters", "a/b"]⟩
        [("$ref", .string "#/parameters/a~1b")] note) ∧
    (∃ vs, OpenApi.grammar.walk looped = .ok vs ∧
      PassedOver OpenApi.grammar looped vs ⟨["components"]⟩
        [("parameters", selfParameters "#/components/parameters")] note) := by
  obtain ⟨hswagger, hopenApi⟩ := passedOver_extensions distinct_looped note
  refine ⟨distinct_looped, ⟨_, swagger_walk_looped, ?_⟩, ⟨_, openApi_walk_looped, ?_⟩⟩
  · exact hswagger _ swagger_walk_looped ⟨.reference, ⟨["parameters", "a/b"]⟩, _⟩
      (by simp [pointer]) _ rfl (by decide)
  · exact hopenApi _ openApi_walk_looped ⟨.components, ⟨["components"]⟩, _⟩ (by simp) _ rfl

end ApiLint
