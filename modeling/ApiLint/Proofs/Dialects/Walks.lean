import ApiLint.Lint
import ApiLint.Proofs.Dialects.Grammars
import ApiLint.Proofs.Walk.Fidelity
import ApiLint.Proofs.Walk.Run
import Mathlib

/-!
# Walks of both dialects

What a walk leaves under each kind, in both dialects: the records of the plain walk, no location
twice, and at every location the node that is recorded with it. And how it comes there: every run
ends, and enters no member twice.
-/

namespace ApiLint

open Json Walk Grammar Outcome

variable {K S P : Type} {g : Grammar K S P} {root : Value}

namespace Walked

variable [DecidableEq K]

def bucket (visits : List (Visit K)) (kind : K) : List (Value × Location) :=
  (ofKind visits kind).map fun v => (v.node, v.location)

/-- Both walks fail, or both come to an end and have the same records under every kind, up to their
order. -/
def SameBuckets : Except ShapeError (List (Visit K)) → Except ShapeError (List (Visit K)) → Prop
  | .ok vs, .ok ws => ∀ kind, (bucket vs kind).Perm (bucket ws kind)
  | .error _, .error _ => True
  | _, _ => False

theorem perm_bucket {vs ws : List (Visit K)} (h : vs.Perm ws) (kind : K) :
    (bucket vs kind).Perm (bucket ws kind) :=
  (h.filter _).map _

theorem sameBuckets_of_walk [DecidableEq S] (hs : g.sections.Nodup) (hd : root.Distinct) :
    SameBuckets (g.walk root) (g.plainWalk root) := by
  have hiff : (∃ vs, g.walk root = .ok vs) ↔ ∃ ws, g.plainWalk root = .ok ws :=
    (exists_walk_iff hs hd).trans exists_plainWalk_iff.symm
  cases hv : g.walk root with
  | ok vs =>
    obtain ⟨ws, hw⟩ := hiff.1 ⟨vs, hv⟩
    rw [hw]
    exact perm_bucket (walk_perm hs hd hv hw)
  | error e =>
    cases hw : g.plainWalk root with
    | error e' => trivial
    | ok ws =>
      obtain ⟨vs, hv'⟩ := hiff.2 ⟨ws, hw⟩
      rw [hv] at hv'
      cases hv'

theorem nodup_ofKinds {vs : List (Visit K)} {kinds : List K} (hk : kinds.Nodup)
    (h : (vs.map Visit.location).Nodup) :
    ((kinds.flatMap (ofKind vs)).map Visit.location).Nodup := by
  rw [List.map_flatMap, List.nodup_flatMap]
  constructor
  · intro kind _
    exact h.sublist (List.filter_sublist.map _)
  · refine hk.imp ?_
    intro k k' hne l hl hl'
    obtain ⟨v, hv, rfl⟩ := List.mem_map.1 hl
    obtain ⟨w, hw, heq⟩ := List.mem_map.1 hl'
    obtain ⟨hv, hkv⟩ := List.mem_filter.1 hv
    obtain ⟨hw, hkw⟩ := List.mem_filter.1 hw
    obtain rfl := List.inj_on_of_nodup_map h hw hv heq
    exact hne ((of_decide_eq_true hkv).symm.trans (of_decide_eq_true hkw))

end Walked

open Walked

theorem walk_of_self_reference [DecidableEq S] (top visits : List (Visit K)) (m : Member S)
    (reference : String) (ht : g.trail (.one g.root) .root root = .ok ⟨top, []⟩)
    (hp : g.pathsTrail root = .ok .empty)
    (hx : g.expandSections root ⟨top, [], []⟩ = .ok ⟨visits, [(m.group, reference)], [m.key]⟩)
    (hm : g.target? root m.group reference = some m) : g.walk root = .ok visits := by
  have hagain : g.enter ⟨visits, [], [m.key]⟩ m = .ok ⟨visits, [], [m.key]⟩ :=
    enter_of_mem List.mem_cons_self
  have hdrain : g.drain root ⟨visits, [(m.group, reference)], [m.key]⟩ =
      .ok ⟨visits, [], [m.key]⟩ := by
    rw [drain_cons rfl, hm]
    change g.enter _ m >>= _ = _
    rw [hagain]
    exact drain_nil rfl
  simp only [walk, bind_eq_ok_iff, pure_eq_ok_iff]
  refine ⟨_, ht, _, hp, _, drain_nil rfl, _, ?_, _, hdrain, rfl⟩
  simpa [Trail.append, Trail.empty] using hx

def pointer (reference : String) : Value := .object [("$ref", .string reference)]

def selfParameters (container : String) : Value :=
  .object [("a/b", pointer (container ++ "/a~1b"))]

def looped : Value :=
  .object [("parameters", selfParameters "#/parameters"),
    ("components", .object [("parameters", selfParameters "#/components/parameters")])]

theorem distinct_looped : looped.Distinct := by
  simp [looped, selfParameters, pointer, Members.keys]

theorem swagger_walk_looped : Swagger.grammar.walk looped = .ok
    [⟨.swagger, .root, looped⟩,
      ⟨.parametersDefinitions, ⟨["parameters"]⟩, selfParameters "#/parameters"⟩,
      ⟨.reference, ⟨["parameters", "a/b"]⟩, pointer "#/parameters/a~1b"⟩] := by
  refine walk_of_self_reference [⟨.swagger, .root, looped⟩,
      ⟨.parametersDefinitions, ⟨["parameters"]⟩, selfParameters "#/parameters"⟩] _
    ⟨.parameters, "a/b", ⟨["parameters", "a/b"]⟩, pointer "#/parameters/a~1b"⟩
    "#/parameters/a~1b" ?_ ?_ ?_ ?_
  all_goals cbv

theorem openApi_walk_looped : OpenApi.grammar.walk looped = .ok
    [⟨.openApi, .root, looped⟩,
      ⟨.components, ⟨["components"]⟩,
        .object [("parameters", selfParameters "#/components/parameters")]⟩,
      ⟨.reference, ⟨["components", "parameters", "a/b"]⟩,
        pointer "#/components/parameters/a~1b"⟩] := by
  refine walk_of_self_reference [⟨.openApi, .root, looped⟩,
      ⟨.components, ⟨["components"]⟩,
        .object [("parameters", selfParameters "#/components/parameters")]⟩] _
    ⟨.parameters, "a/b", ⟨["components", "parameters", "a/b"]⟩,
      pointer "#/components/parameters/a~1b"⟩
    "#/components/parameters/a~1b" ?_ ?_ ?_ ?_
  all_goals cbv

theorem sameBuckets_plainWalk {document : Value} (hd : document.Distinct) :
    SameBuckets (Swagger.grammar.walk document) (Swagger.grammar.plainWalk document) ∧
    SameBuckets (OpenApi.grammar.walk document) (OpenApi.grammar.plainWalk document) :=
  ⟨sameBuckets_of_walk Swagger.separated.sections hd,
    sameBuckets_of_walk OpenApi.separated.sections hd⟩

theorem sameBuckets_plainWalk_looped : looped.Distinct ∧
    SameBuckets (Swagger.grammar.walk looped) (Swagger.grammar.plainWalk looped) ∧
    SameBuckets (OpenApi.grammar.walk looped) (OpenApi.grammar.plainWalk looped) :=
  ⟨distinct_looped, sameBuckets_plainWalk distinct_looped⟩

theorem nodup_recorded_locations {document : Value} (hd : document.Distinct) :
    (∀ vs, Swagger.grammar.walk document = .ok vs →
      ((Swagger.Kind.all.flatMap (ofKind vs)).map Visit.location).Nodup) ∧
    (∀ vs, OpenApi.grammar.walk document = .ok vs →
      ((OpenApi.Kind.all.flatMap (ofKind vs)).map Visit.location).Nodup) := by
  constructor
  case left =>
    intro vs h
    exact nodup_ofKinds (by decide) (nodup_locations Swagger.separated hd h)
  case right =>
    intro vs h
    exact nodup_ofKinds (by decide) (nodup_locations OpenApi.separated hd h)

theorem nodup_recorded_locations_looped : looped.Distinct ∧
    (∃ vs, Swagger.grammar.walk looped = .ok vs ∧
      ((Swagger.Kind.all.flatMap (ofKind vs)).map Visit.location).Nodup) ∧
    (∃ vs, OpenApi.grammar.walk looped = .ok vs ∧
      ((OpenApi.Kind.all.flatMap (ofKind vs)).map Visit.location).Nodup) := by
  obtain ⟨hswagger, hopenApi⟩ := nodup_recorded_locations distinct_looped
  exact ⟨distinct_looped, ⟨_, swagger_walk_looped, hswagger _ swagger_walk_looped⟩,
    ⟨_, openApi_walk_looped, hopenApi _ openApi_walk_looped⟩⟩

theorem faithful_recorded_locations {document : Value} (hd : document.Distinct) :
    (∀ vs, Swagger.grammar.walk document = .ok vs → Swagger.grammar.Faithful document vs) ∧
    (∀ vs, OpenApi.grammar.walk document = .ok vs → OpenApi.grammar.Faithful document vs) := by
  constructor
  case left =>
    intro vs h
    exact faithful_walk Swagger.separated.sections hd h
  case right =>
    intro vs h
    exact faithful_walk OpenApi.separated.sections hd h

theorem faithful_recorded_locations_looped : looped.Distinct ∧
    (∃ vs, Swagger.grammar.walk looped = .ok vs ∧ Swagger.grammar.Faithful looped vs) ∧
    (∃ vs, OpenApi.grammar.walk looped = .ok vs ∧ OpenApi.grammar.Faithful looped vs) := by
  obtain ⟨hswagger, hopenApi⟩ := faithful_recorded_locations distinct_looped
  exact ⟨distinct_looped, ⟨_, swagger_walk_looped, hswagger _ swagger_walk_looped⟩,
    ⟨_, openApi_walk_looped, hopenApi _ openApi_walk_looped⟩⟩

theorem runsThrough_documents (document : Value) :
    Swagger.grammar.RunsThrough document ∧ OpenApi.grammar.RunsThrough document :=
  ⟨runsThrough Swagger.grammar document, runsThrough OpenApi.grammar document⟩

end ApiLint
