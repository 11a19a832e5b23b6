import ApiLint.Proofs.Dialects.Reordering
import ApiLint.Proofs.Lint.Isolation
import ApiLint.Proofs.Rule.Reordering

/-!
# Linting reordered documents

A document and its reorderings have the same findings up to their order. The visits to both under
one kind are at the same locations, the nodes that stand there are reordered, and a rule says the
same of them.
-/

namespace ApiLint

open Json Walk Grammar Walked

variable {document document' : Value}

def reportsAt (check : Location → Value → List Report) (d : Value) (l : Location) : List Report :=
  match d.at? l.segments with
  | some node => check l node
  | none => []

theorem reportsAt_perm {check : Location → Value → List Report}
    (hcheck : ∀ l v w, v.Reordered w → (check l v).Perm (check l w)) {d d' : Value}
    (h : d.Reordered d') (l : Location) : (reportsAt check d l).Perm (reportsAt check d' l) := by
  unfold reportsAt
  cases hx : d.at? l.segments with
  | some x =>
    obtain ⟨y, hy, hxy⟩ := h.at? hx
    rw [hy]
    exact hcheck l x y hxy
  | none =>
    cases hy : d'.at? l.segments with
    | some y =>
      obtain ⟨x, hx', -⟩ := h.symm.at? hy
      rw [hx] at hx'
      cases hx'
    | none => exact .refl _

namespace Subscription

variable {K S P : Type} [DecidableEq K] {s : Subscription K}

theorem flatMap_check_eq {d : Value} {vs : List (Visit K)}
    (hvs : ∀ v ∈ vs, d.at? v.location.segments = some v.node)
    (check : Location → Value → List Report) (kind : K) :
    ((ofKind vs kind).flatMap fun v => check v.location v.node) =
      ((ofKind vs kind).map Visit.location).flatMap (reportsAt check d) := by
  rw [List.flatMap_map]
  refine List.flatMap_congr fun v hv => ?_
  rw [reportsAt, hvs v (List.mem_filter.1 hv).1]

theorem OrderFree.reports_perm [DecidableEq S] {g : Grammar K S P} (hg : g.OrderFree)
    (hsep : g.Separated) (hs : s.OrderFree) {d d' : Value} (h : d.Reordered d') (hd : d.Distinct)
    {vs ws : List (Visit K)} (hv : g.walk d = .ok vs) (hw : g.walk d' = .ok ws)
    (setting : Setting) : (s.reports setting vs).Perm (s.reports setting ws) := by
  -- A check is given the node of a visit, and that is the node at the location of the visit.
  have hfaithful := (faithful_walk hsep.sections hd hv).reached
  have hfaithful' := (faithful_walk hsep.sections (h.distinct hd) hw).reached
  refine List.Perm.flatMap_left _ fun kind hkind => ?_
  rw [flatMap_check_eq hfaithful (s.check kind setting) kind,
    flatMap_check_eq hfaithful' (s.check kind setting) kind]
  have hlocations := perm_locations hg hsep h hd hv hw kind
  exact hlocations.flatMap fun l _ => reportsAt_perm (hs kind hkind setting) h l

end Subscription

namespace Linter

theorem exists_walked_reordered {dialect : Dialect} {d d' : Value} (h : d.Reordered d')
    (hd : d.Distinct) {walked : Walked} (hw : Walked.ofDocument? dialect d = .ok walked) :
    ∃ walked', Walked.ofDocument? dialect d' = .ok walked' ∧
      ∀ r ∈ Registry.builtin.rules, ∀ setting,
        (r.reports setting walked).Perm (r.reports setting walked') := by
  cases dialect with
  | swagger =>
    obtain ⟨vs, hv, rfl⟩ := Outcome.map_eq_ok_iff.1 hw
    obtain ⟨ws, hw⟩ := exists_walk_reordered Swagger.orderFree Swagger.separated.sections h hd hv
    refine ⟨.swagger ws, Outcome.map_eq_ok_iff.2 ⟨ws, hw, rfl⟩, fun r hr setting => ?_⟩
    have hfree := (Rule.orderFree_builtin r hr).1
    exact hfree.reports_perm Swagger.orderFree Swagger.separated h hd hv hw setting
  | openApi =>
    obtain ⟨vs, hv, rfl⟩ := Outcome.map_eq_ok_iff.1 hw
    obtain ⟨ws, hw⟩ := exists_walk_reordered OpenApi.orderFree OpenApi.separated.sections h hd hv
    refine ⟨.openApi ws, Outcome.map_eq_ok_iff.2 ⟨ws, hw, rfl⟩, fun r hr setting => ?_⟩
    have hfree := (Rule.orderFree_builtin r hr).2
    exact hfree.reports_perm OpenApi.orderFree OpenApi.separated h hd hv hw setting

theorem lint_perm_of_walks {config : Config} {defaults : RuleSet} (h : document.Reordered document')
    (hd : document.Distinct) {walked : Walked}
    (hw : Walks ⟨config, defaults, .builtin⟩ document walked) :
    (lint ⟨config, defaults, .builtin⟩ document).Perm
      (lint ⟨config, defaults, .builtin⟩ document') := by
  obtain ⟨dialect, hdialect, hwalk⟩ := id hw
  have hfilter := config.ignore.reordered_filter dialect h
  obtain ⟨walked', hwalk', hreports⟩ :=
    exists_walked_reordered hfilter (config.ignore.distinct_filter dialect hd) hwalk
  have hw' : Walks ⟨config, defaults, .builtin⟩ document' walked' :=
    ⟨dialect, (Dialect.detect?_eq h).symm.trans hdialect, hwalk'⟩
  have hseen : ∀ r ∈ Registry.builtin.rules, ∀ setting, (r.reports setting walked).Perm
      ((r.reports setting walked').filter fun _ => true) := by
    intro r hr setting
    rw [List.filter_true]
    exact hreports r hr setting
  -- Nothing is hidden from view, the findings only change places.
  have hrun := run_perm (l := ⟨config, defaults, .builtin⟩) (fun _ => true) hseen rfl
  rw [List.filter_true] at hrun
  rw [lint_eq_run hw, lint_eq_run hw']
  exact hrun

end Linter

theorem lint_reordered (config : Config) (defaults : RuleSet) (hd : document.Distinct)
    (h : document.Reordered document') :
    Dialect.detect? document = Dialect.detect? document' ∧
    SameLocations (Swagger.grammar.walk (config.ignore.filter .swagger document))
      (Swagger.grammar.walk (config.ignore.filter .swagger document')) ∧
    SameLocations (OpenApi.grammar.walk (config.ignore.filter .openApi document))
      (OpenApi.grammar.walk (config.ignore.filter .openApi document')) ∧
    ∀ walked, Linter.Walks ⟨config, defaults, .builtin⟩ document walked →
      (Linter.lint ⟨config, defaults, .builtin⟩ document).Perm
        (Linter.lint ⟨config, defaults, .builtin⟩ document') := by
  have hfilter := fun dialect => config.ignore.reordered_filter dialect h
  have hdistinct := fun dialect => config.ignore.distinct_filter dialect hd
  refine ⟨Dialect.detect?_eq h, ?_, ?_, fun walked hw => Linter.lint_perm_of_walks h hd hw⟩
  · exact sameLocations_walk Swagger.orderFree Swagger.separated (hfilter _) (hdistinct _)
  · exact sameLocations_walk OpenApi.orderFree OpenApi.separated (hfilter _) (hdistinct _)

def turnedSchemas (container : String) : Value :=
  .object [("Owner", pointer (container ++ "/Pet")), ("Pet", petSchema)]

def turnedPetStore : Value :=
  .object [("definitions", turnedSchemas "#/definitions"), ("info", .object []),
    ("components", .object [("schemas", petSchemas "#/components/schemas")]),
    ("paths", .object [("/owners/", .object []), ("/pets/", .object [])]),
    ("swagger", .string "2.0")]

theorem reordered_petStore : petStore.Reordered turnedPetStore := by
  have hpaths : (Value.object [("/pets/", .object []), ("/owners/", .object [])]).Reordered
      (.object [("/owners/", .object []), ("/pets/", .object [])]) :=
    .of_perm (by decide) (.swap _ _ _)
  have hdefinitions : (petSchemas "#/definitions").Reordered (turnedSchemas "#/definitions") :=
    .of_perm (by decide) (.swap _ _ _)
  refine .of_members (by decide) ?_
  simp [hpaths, hdefinitions, Value.Reordered.refl]

theorem lint_reordered_petStore : petStore.Distinct ∧ petStore.Reordered turnedPetStore ∧
    petLinter.Walks petStore (.swagger petVisits) ∧
    (petLinter.lint petStore).Perm (petLinter.lint turnedPetStore) := by
  obtain ⟨-, -, -, hperm⟩ :=
    lint_reordered petLinter.config .empty distinct_petStore reordered_petStore
  exact ⟨distinct_petStore, reordered_petStore, walks_petStore, hperm _ walks_petStore⟩

end ApiLint
