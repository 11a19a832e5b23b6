import ApiLint.Proofs.Config.Names
import ApiLint.Proofs.Lint.Places
import ApiLint.Proofs.Rule.Uniqueness

/-!
# No finding twice

A walk makes no two visits at one location, a rule reports no two things about one place, and a
configuration has no two entries of one name. So no finding is returned twice, and two findings of
one rule are about different places.
-/

namespace ApiLint

open Json Walk Grammar Walked

variable {document : Value}

namespace Subscription

variable {K S P : Type} [DecidableEq K] {s : Subscription K}

theorem reports_eq (s : Subscription K) (setting : Setting) (vs : List (Visit K)) :
    s.reports setting vs =
      (s.kinds.flatMap (ofKind vs)).flatMap fun v => s.check v.kind setting v.location v.node := by
  rw [reports, List.flatMap_assoc]
  refine List.flatMap_congr fun kind _ => List.flatMap_congr fun v hv => ?_
  have hkind : v.kind = kind := of_decide_eq_true (List.mem_filter.1 hv).2
  rw [hkind]

theorem Traces.nodup_reports {stands : K → Location → Prop} {origin : Location → Location}
    (h : s.Traces stands origin) {vs : List (Visit K)} (hn : (vs.map Visit.location).Nodup)
    (hd : ∀ v ∈ vs, v.node.Distinct) (hs : ∀ v ∈ vs, stands v.kind v.location)
    (setting : Setting) : ((s.reports setting vs).map Report.location).Nodup := by
  have hvisit : ∀ v ∈ s.kinds.flatMap (ofKind vs), v ∈ vs ∧ v.kind ∈ s.kinds := by
    intro v hv
    obtain ⟨kind, hkind, hv⟩ := List.mem_flatMap.1 hv
    obtain ⟨hmem, heq⟩ := List.mem_filter.1 hv
    have hk : v.kind = kind := of_decide_eq_true heq
    exact ⟨hmem, hk ▸ hkind⟩
  have horigin : ∀ v ∈ s.kinds.flatMap (ofKind vs),
      ∀ r ∈ s.check v.kind setting v.location v.node, origin r.location = v.location := by
    intro v hv
    obtain ⟨hv, hkind⟩ := hvisit v hv
    exact h.origin_eq v.kind hkind setting v.location v.node (hs v hv)
  rw [reports_eq, List.map_flatMap, List.nodup_flatMap]
  constructor
  · intro v hv
    obtain ⟨hv, hkind⟩ := hvisit v hv
    exact h.nodup v.kind hkind setting v.location v.node (hd v hv)
  · -- What is reported about two visits leads back to two locations.
    refine (List.pairwise_map.1 (nodup_ofKinds h.kinds hn)).imp_of_mem ?_
    intro v w hv hw hne l hlv hlw
    obtain ⟨r, hr, rfl⟩ := List.mem_map.1 hlv
    obtain ⟨r', hr', hl⟩ := List.mem_map.1 hlw
    apply hne
    rw [← horigin v hv r hr, ← horigin w hw r' hr', hl]

theorem Traces.nodup_of_walk [DecidableEq S] {g : Grammar K S P} (hg : g.Separated) {operation : K}
    {methods : List String} (hk : g.Keyed operation methods) (hm : "summary" ∉ methods)
    {origin : Location → Location} (h : s.Traces (Rule.Standing operation) origin) {d : Value}
    (hd : d.Distinct) {vs : List (Visit K)} (hw : g.walk d = .ok vs) (setting : Setting) :
    ((s.reports setting vs).map Report.location).Nodup := by
  refine h.nodup_reports (nodup_locations hg hd hw) (fun v hv => ?_) (fun v hv hkind hlast => ?_)
    setting
  · exact hd.of_at? ((faithful_walk hg.sections hd hw).reached v hv)
  · obtain ⟨key, hkey, heq⟩ := hk.last_of_mem_walk hw hv hkind
    obtain rfl := Option.some.inj (heq.symm.trans hlast)
    exact hm hkey

end Subscription

namespace Linter

variable {defaults : RuleSet} {walked : Walked}

theorem nodup_reports {dialect : Dialect} {d : Value} (hd : d.Distinct)
    (hw : Walked.ofDocument? dialect d = .ok walked) {r : Rule}
    (hr : r ∈ Registry.builtin.rules) (setting : Setting) :
    ((r.reports setting walked).map Report.location).Nodup := by
  obtain ⟨⟨_, hswagger⟩, _, hopenApi⟩ := Rule.traces_builtin r hr
  cases dialect with
  | swagger =>
    obtain ⟨vs, hvs, rfl⟩ := Outcome.map_eq_ok_iff.1 hw
    exact hswagger.nodup_of_walk Swagger.separated Swagger.keyed_operation (by decide) hd hvs
      setting
  | openApi =>
    obtain ⟨vs, hvs, rfl⟩ := Outcome.map_eq_ok_iff.1 hw
    exact hopenApi.nodup_of_walk OpenApi.separated OpenApi.keyed_operation (by decide) hd hvs
      setting

/-- Two findings, and they are about different places if one rule has found them. -/
def Differ (f f' : Finding) : Prop :=
  f ≠ f' ∧ (f.name = f'.name → f.name ≠ Finding.coreName → f.location ≠ f'.location)

theorem differ_of_location {f f' : Finding} (h : f.location ≠ f'.location) : Differ f f' :=
  ⟨fun heq => h (congrArg Finding.location heq), fun _ _ => h⟩

theorem differ_core {message message' : String} (h : message ≠ message') :
    Differ (.core message) (.core message') :=
  ⟨fun heq => h (congrArg Finding.message heq), fun _ hne => absurd rfl hne⟩

theorem differ_of_name {f f' : Finding} (h : f.name ≠ f'.name) : Differ f f' :=
  ⟨fun heq => h (congrArg Finding.name heq), fun heq => absurd heq h⟩

theorem unknownRule_injective : Function.Injective unknownRule := by
  intro name name' h
  have hlists := congrArg String.toList h
  simp only [unknownRule, String.toList_append, List.append_assoc] at hlists
  exact String.toList_injective (List.append_cancel_right (List.append_cancel_left hlists))

theorem unknownRule_ne (name : String) : unknownRule name ≠ noEnabledRules := by
  intro h
  have hhead := congrArg (fun s => s.toList.head?) h
  simp [unknownRule, noEnabledRules] at hhead

theorem name_of_mem_block {registry : Registry} {entry : String × Setting} {f : Finding}
    (hf : f ∈ block registry defaults walked entry) :
    f = .core (unknownRule entry.1) ∨ f.name = entry.1 ∧ entry.1 ∈ registry.names := by
  unfold block at hf
  split at hf
  case h_1 => exact .inl (List.mem_singleton.1 hf)
  case h_2 r hr =>
    have hname := Registry.name_of_get? hr
    have hmem : entry.1 ∈ registry.names := by
      rw [← hname]
      exact List.mem_map_of_mem (List.mem_of_find?_eq_some hr)
    refine .inr ⟨?_, hmem⟩
    split at hf
    case h_1 => cases hf
    case h_2 setting _ =>
      by_cases ha : r.accepts setting = true
      · rw [if_pos ha] at hf
        exact name_of_mem_reports hr hf
      · rw [if_neg ha] at hf
        obtain rfl := List.mem_singleton.1 hf
        rfl

theorem pairwise_block {registry : Registry}
    (h : ∀ r ∈ registry.rules, ∀ setting, ((r.reports setting walked).map Report.location).Nodup)
    (entry : String × Setting) : (block registry defaults walked entry).Pairwise Differ := by
  unfold block
  split
  case h_1 => exact List.pairwise_singleton _ _
  case h_2 r hr =>
    split
    case h_1 => exact .nil
    case h_2 setting _ =>
      by_cases ha : r.accepts setting = true
      · rw [if_pos ha]
        refine List.pairwise_map.2 ?_
        refine (List.pairwise_map.1 (h r (List.mem_of_find?_eq_some hr) setting)).imp ?_
        intro p p' hne
        refine differ_of_location ?_
        rwa [Rule.location_finding, Rule.location_finding]
      · rw [if_neg ha]
        exact List.pairwise_singleton _ _

theorem coreName_not_mem : Finding.coreName ∉ Registry.builtin.names := by decide

theorem pairwise_blocks {entries : List (String × Setting)} (hn : (entries.map (·.1)).Nodup)
    (h : ∀ r ∈ Registry.builtin.rules, ∀ setting,
      ((r.reports setting walked).map Report.location).Nodup) :
    (entries.flatMap (block .builtin defaults walked) ++ ending .builtin entries).Pairwise
      Differ := by
  refine List.pairwise_append.2
    ⟨List.pairwise_flatMap.2 ⟨fun e _ => pairwise_block h e, ?_⟩, ?_, ?_⟩
  · -- Two entries have different names, and so have their findings, or the messages differ.
    refine (List.pairwise_map.1 hn).imp ?_
    intro e e' hne f hf f' hf'
    rcases name_of_mem_block hf with rfl | ⟨hname, hmem⟩ <;>
      rcases name_of_mem_block hf' with rfl | ⟨hname', hmem'⟩
    · exact differ_core fun heq => hne (unknownRule_injective heq)
    · refine differ_of_name fun heq => coreName_not_mem ?_
      rwa [← hname', ← heq] at hmem'
    · refine differ_of_name fun heq => coreName_not_mem ?_
      rwa [← hname, heq] at hmem
    · refine differ_of_name ?_
      rwa [hname, hname']
  · unfold ending
    split
    · exact .nil
    · exact List.pairwise_singleton _ _
  · intro f hf f' hf'
    obtain ⟨e, -, hf⟩ := List.mem_flatMap.1 hf
    obtain rfl : f' = .core noEnabledRules := by
      unfold ending at hf'
      split at hf'
      · cases hf'
      · exact List.mem_singleton.1 hf'
    rcases name_of_mem_block hf with rfl | ⟨hname, hmem⟩
    · exact differ_core (unknownRule_ne e.1)
    · refine differ_of_name fun heq => coreName_not_mem ?_
      rwa [← hname, heq] at hmem

theorem pairwise_lint {config : Config} (defaults : RuleSet) (hn : config.rules.names.Nodup)
    (hd : document.Distinct) :
    (lint ⟨config, defaults, .builtin⟩ document).Pairwise Differ := by
  cases hdialect : Dialect.detect? document with
  | none =>
    rw [lint_of_undetected hdialect]
    exact List.pairwise_singleton _ _
  | some dialect =>
    cases hw : Walked.ofDocument? dialect (config.ignore.filter dialect document) with
    | error e =>
      rw [lint_of_error hdialect hw]
      exact List.pairwise_singleton _ _
    | ok walked =>
      rw [lint_of_walks ⟨dialect, hdialect, hw⟩]
      exact pairwise_blocks hn fun r hr =>
        nodup_reports (config.ignore.distinct_filter dialect hd) hw hr

end Linter

theorem nodup_lint (config : Config) (defaults : RuleSet) (hc : config.rules.Built)
    (hd : document.Distinct) : (Linter.lint ⟨config, defaults, .builtin⟩ document).Nodup ∧
      (Linter.lint ⟨config, defaults, .builtin⟩ document).Pairwise fun f f' =>
        f.name = f'.name → f.name ≠ Finding.coreName → f.location ≠ f'.location := by
  have hpairwise := Linter.pairwise_lint defaults hc.nodup_names hd
  exact ⟨hpairwise.imp fun h => h.1, hpairwise.imp fun h => h.2⟩

theorem nodup_lint_petStore : Config.default.rules.Built ∧ petStore.Distinct ∧
    (Linter.lint ⟨Config.default, .empty, .builtin⟩ petStore).Nodup ∧
      (Linter.lint ⟨Config.default, .empty, .builtin⟩ petStore).Pairwise fun f f' =>
        f.name = f'.name → f.name ≠ Finding.coreName → f.location ≠ f'.location :=
  ⟨Config.built_default, distinct_petStore,
    nodup_lint Config.default .empty Config.built_default distinct_petStore⟩

end ApiLint
