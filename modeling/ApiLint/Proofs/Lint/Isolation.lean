import ApiLint.Proofs.Lint.Places
import ApiLint.Proofs.Rule.Isolation

/-!
# Isolation of what is ignored

Ignoring a member takes the findings at and below it out of the result, and nothing happens to the
others, but that they may stand in another order. A rule makes its reports visit by visit, so it
loses those about the visits that are lost, and of a visit above a container it loses what the
members that are taken out gave rise to.
-/

namespace ApiLint

open Json Walk Grammar Ignore

variable {K S P : Type} {g : Grammar K S P} {container names : List String} {root : Value}

theorem Report.Within.hidden {l : Location} {node : Value} {r : Report} (h : r.Within l node)
    (hl : hides container names l = true) : hides container names r.location = true := by
  obtain ⟨path, hpath, -⟩ := h
  exact hides_of_within hl ⟨path, hpath.symm⟩

theorem Report.Within.not_hides {l : Location} {node : Value} {r : Report} (h : r.Within l node)
    (hl : hides container names l = false) (habove : ¬ l.segments <+: container) :
    hides container names r.location = false := by
  have hnot : ∀ name ∈ names, ¬ container ++ [name] <+: l.segments := by
    intro name hname hpre
    rw [hides_iff.2 ⟨name, hname, hpre⟩] at hl
    cases hl
  rw [Bool.eq_false_iff, Ne, hides_iff]
  rintro ⟨name, hname, hpre⟩
  obtain ⟨path, hpath, -⟩ := h
  rw [hpath] at hpre
  -- The member stands on the way to the report: before the node, at it, or after it.
  rcases List.prefix_or_prefix_of_prefix hpre (List.prefix_append l.segments path) with h | h
  · exact hnot name hname h
  · rcases List.prefix_concat_iff.1 h with h | h
    · exact hnot name hname (h ▸ List.prefix_rfl)
    · exact habove h

namespace Subscription

variable {s : Subscription K} {top : K} {setting : Setting} {v : Visit K}

theorem check_hidden (hp : s.Points top) (hkind : v.kind ∈ s.kinds)
    (hv : hides container names v.location = true) :
    ((s.check v.kind setting v.location v.node).filter fun r =>
      !hides container names r.location) = [] := by
  refine List.filter_eq_nil_iff.2 fun r hr => ?_
  rw [(hp.within v.kind hkind setting v.location v.node r hr).hidden hv]
  exact Bool.false_ne_true

theorem check_trim (hp : s.Points top) (hs : s.Spares g) (hc : g.Loses container)
    (hkind : v.kind ∈ s.kinds)
    (ha : v.location.segments <+: container → g.Above root v.location v.kind)
    (hv : hides container names v.location = false) :
    s.check v.kind setting v.location (v.trim container names).node =
      (s.check v.kind setting v.location v.node).filter fun r =>
        !hides container names r.location := by
  by_cases hpre : v.location.segments <+: container
  case pos =>
    rw [Visit.trim, if_pos hpre]
    exact hs hc (ha hpre) hpre hkind names setting v.node
  case neg =>
    rw [Visit.trim_of_not_prefix hpre]
    refine (List.filter_eq_self.2 fun r hr => ?_).symm
    rw [(hp.within v.kind hkind setting v.location v.node r hr).not_hides hv hpre]
    rfl

variable [DecidableEq K] {vs ws : List (Visit K)}

theorem ofKind_cut (vs : List (Visit K)) (kind : K) :
    Walked.ofKind (cut container names vs) kind = cut container names (Walked.ofKind vs kind) := by
  simp only [Walked.ofKind, cut, List.filter_map, List.filter_filter]
  refine congrArg (List.map _) (List.filter_congr fun v _ => ?_)
  simp [Bool.and_comm]

theorem reports_perm (h : ws.Perm vs) : (s.reports setting ws).Perm (s.reports setting vs) :=
  List.Perm.flatMap_left _ fun _ _ => (h.filter _).flatMap_right _

theorem reports_cut (hp : s.Points top) (hs : s.Spares g) (hc : g.Loses container)
    (ha : ∀ v ∈ vs, v.location.segments <+: container → g.Above root v.location v.kind) :
    s.reports setting (cut container names vs) =
      (s.reports setting vs).filter fun r => !hides container names r.location := by
  simp only [reports, List.filter_flatMap]
  refine List.flatMap_congr fun kind hkind => ?_
  have hof : ∀ v ∈ Walked.ofKind vs kind, v ∈ vs ∧ v.kind = kind := by
    intro v hv
    obtain ⟨hv, hk⟩ := List.mem_filter.1 hv
    exact ⟨hv, of_decide_eq_true hk⟩
  rw [ofKind_cut]
  refine (flatMap_cut (fun v hv hhidden => ?_) fun v hv hleft => ?_).trans
    List.filter_flatMap
  · obtain ⟨-, rfl⟩ := hof v hv
    exact check_hidden hp hkind hhidden
  · obtain ⟨hmem, rfl⟩ := hof v hv
    rw [Visit.location_trim]
    exact check_trim hp hs hc hkind (ha v hmem) hleft

end Subscription

namespace Linter

variable {seen : Location → Bool} {walked walked' : Walked}

theorem block_perm {registry : Registry} {defaults : RuleSet}
    (h : ∀ r ∈ registry.rules, ∀ setting, (r.reports setting walked').Perm
      ((r.reports setting walked).filter fun p => seen p.location))
    (hroot : seen .root = true) (entry : String × Setting) :
    (block registry defaults walked' entry).Perm
      ((block registry defaults walked entry).filter fun f => seen f.location) := by
  have hplain : ∀ f : Finding, f.location = .root →
      [f].Perm ([f].filter fun f => seen f.location) := by
    intro f hf
    rw [List.filter_singleton, hf, hroot]
    rfl
  unfold block
  split
  case h_1 => exact hplain _ rfl
  case h_2 r hr =>
    split
    case h_1 => exact .nil
    case h_2 setting hs =>
      split
      case isTrue =>
        have hmap := (h r (List.mem_of_find?_eq_some hr) setting).map r.finding
        rw [List.filter_map]
        simpa only [Function.comp_def, Rule.location_finding] using hmap
      case isFalse => exact hplain _ rfl

theorem run_perm {l : Linter} (seen : Location → Bool)
    (h : ∀ r ∈ l.registry.rules, ∀ setting, (r.reports setting walked').Perm
      ((r.reports setting walked).filter fun p => seen p.location))
    (hroot : seen .root = true) :
    (l.run walked').Perm ((l.run walked).filter fun f => seen f.location) := by
  have hending : ((ending l.registry l.config.rules.entries).filter fun f => seen f.location) =
      ending l.registry l.config.rules.entries := by
    unfold ending
    split
    case isTrue => rfl
    case isFalse =>
      refine List.filter_eq_self.2 fun f hf => ?_
      rw [List.mem_singleton.1 hf]
      exact hroot
  rw [run_eq, run_eq, List.filter_append, hending, List.filter_flatMap]
  exact (List.Perm.flatMap_left _ fun entry _ => block_perm h hroot entry).append_right _

theorem exists_walk_run [DecidableEq K] [DecidableEq S] {l : Linter} {i : Ignore}
    {dialect : Dialect} (hg : g.Separated) (hr : g.Rooted)
    (hls : ∀ e ∈ i.lists dialect, g.Loses e.1) {top : K} (wrap : List (Visit K) → Walked)
    (sub : Rule → Subscription K)
    (hwrap : ∀ (r : Rule) setting vs, r.reports setting (wrap vs) = (sub r).reports setting vs)
    (hrules : ∀ r ∈ l.registry.rules, (sub r).Points top ∧ (sub r).Spares g)
    (hd : root.Distinct) {vs : List (Visit K)} (h : g.walk root = .ok vs) :
    ∃ ws, g.walk (i.filter dialect root) = .ok ws ∧ (l.run (wrap ws)).Perm
      ((l.run (wrap vs)).filter fun f => !i.covers dialect f.location) := by
  simp only [filter_eq i dialect hd, covers_eq]
  refine walk_withoutAll hg hr (fun vs => l.run (wrap vs)) Finding.location ?_ hls hd h
  intro d container names vs ws hd hc hw hperm
  have hroot : (!hides container names .root) = true := by
    rw [hides_above (l := .root) List.nil_prefix]
    rfl
  refine run_perm (fun m => !hides container names m) (fun r hr' setting => ?_) hroot
  obtain ⟨hpoints, hspares⟩ := hrules r hr'
  rw [hwrap, hwrap, ← Subscription.reports_cut hpoints hspares hc fun v hv hpre =>
    above_of_mem_walk hg hr hc hw hv hpre]
  exact Subscription.reports_perm hperm

end Linter

variable {document : Value}

theorem exists_run_filter (config : Config) (defaults : RuleSet) (i : Ignore) {dialect : Dialect}
    {walked : Walked} (hd : document.Distinct)
    (hw : Walked.ofDocument? dialect document = .ok walked) :
    ∃ walked', Walked.ofDocument? dialect (i.filter dialect document) = .ok walked' ∧
      (Linter.run ⟨config, defaults, .builtin⟩ walked').Perm
        ((Linter.run ⟨config, defaults, .builtin⟩ walked).filter fun f =>
          !i.covers dialect f.location) := by
  cases dialect with
  | swagger =>
    obtain ⟨vs, hvs, rfl⟩ := Outcome.map_eq_ok_iff.1 hw
    obtain ⟨ws, hws, hperm⟩ := Linter.exists_walk_run (l := ⟨config, defaults, .builtin⟩)
      Swagger.separated Swagger.rooted Swagger.loses_of_mem_lists Walked.swagger Rule.swagger
      (fun _ _ _ => rfl)
      (fun r hr => ⟨(Rule.points_builtin r hr).1, (Rule.spares_builtin r hr).1⟩) hd hvs
    exact ⟨.swagger ws, Outcome.map_eq_ok_iff.2 ⟨ws, hws, rfl⟩, hperm⟩
  | openApi =>
    obtain ⟨vs, hvs, rfl⟩ := Outcome.map_eq_ok_iff.1 hw
    obtain ⟨ws, hws, hperm⟩ := Linter.exists_walk_run (l := ⟨config, defaults, .builtin⟩)
      OpenApi.separated OpenApi.rooted OpenApi.loses_of_mem_lists Walked.openApi Rule.openApi
      (fun _ _ _ => rfl)
      (fun r hr => ⟨(Rule.points_builtin r hr).2, (Rule.spares_builtin r hr).2⟩) hd hvs
    exact ⟨.openApi ws, Outcome.map_eq_ok_iff.2 ⟨ws, hws, rfl⟩, hperm⟩

theorem lint_isolates_ignored (config : Config) (defaults : RuleSet) {dialect : Dialect}
    {walked : Walked} (hd : document.Distinct)
    (hdialect : Dialect.detect? document = some dialect)
    (hwalked : Walked.ofDocument? dialect document = .ok walked) :
    (Linter.lint ⟨config, defaults, .builtin⟩ document).Perm
      ((Linter.lint ⟨{ config with ignore := .empty }, defaults, .builtin⟩ document).filter
        fun f => !config.ignore.covers dialect f.location) := by
  obtain ⟨walked', hw, hperm⟩ := exists_run_filter config defaults config.ignore hd hwalked
  have hleft : (⟨config, defaults, .builtin⟩ : Linter).Walks document walked' :=
    ⟨dialect, hdialect, hw⟩
  have hall : (⟨{ config with ignore := .empty }, defaults, .builtin⟩ : Linter).Walks
      document walked := ⟨dialect, hdialect, by rw [filter_empty]; exact hwalked⟩
  rw [Linter.lint_eq_run hleft, Linter.lint_eq_run hall]
  exact hperm

theorem lint_isolates_ignored_petStore : petStore.Distinct ∧
    Dialect.detect? petStore = some .swagger ∧
    ∃ walked, Walked.ofDocument? .swagger petStore = .ok walked ∧
      (petLinter.lint petStore).Perm
        ((Linter.lint ⟨{ petLinter.config with ignore := .empty }, .empty, .builtin⟩
          petStore).filter fun f => !noOwners.covers .swagger f.location) := by
  obtain ⟨vs, hvs⟩ := exists_walk_petStore.1
  have hdialect : Dialect.detect? petStore = some .swagger := by cbv
  have hwalked : Walked.ofDocument? .swagger petStore = .ok (.swagger vs) :=
    Outcome.map_eq_ok_iff.2 ⟨vs, hvs, rfl⟩
  exact ⟨distinct_petStore, hdialect, _, hwalked,
    lint_isolates_ignored petLinter.config .empty distinct_petStore hdialect hwalked⟩

end ApiLint
