import ApiLint.Proofs.Dialects.Ignored
import ApiLint.Proofs.Lint.Blocks
import ApiLint.Proofs.Rule.Places
import Mathlib

/-!
# Places of findings

What a running rule finds is somewhere below the root of the user's document. The rule goes on from
the location of a visit, which leads to the visited node of the filtered document, and taking
members out of containers gives nothing another place.
-/

namespace ApiLint

open Json Walk Grammar

variable {document : Value} {f : Finding}

@[simp] theorem Rule.location_finding (r : Rule) (p : Report) :
    (r.finding p).location = p.location := by
  cases p <;> rfl

namespace Linter

variable {l : Linter} {walked : Walked}

/-- A finding about the input or the configuration, which no rule reports. -/
inductive General : Finding → Prop where
  | core (message : String) : General (.core message)
  | walker (message : String) : General (.walker message)
  | invalid (name : String) : General (.plain name invalidSetting .root)

/-- The rule is the one of its name, and an entry of the configuration lets it run with the setting,
which the rule accepts. -/
def Runs (l : Linter) (r : Rule) (setting : Setting) : Prop :=
  l.registry.get? r.name = some r ∧ ∃ s, (r.name, s) ∈ l.config.rules.entries ∧
    setting? l.defaults r s = some setting ∧ r.accepts setting = true

theorem general_or_report_of_mem_block {entry : String × Setting}
    (he : entry ∈ l.config.rules.entries)
    (hf : f ∈ block l.registry l.defaults walked entry) :
    General f ∨ ∃ r setting, l.Runs r setting ∧ ∃ report ∈ r.reports setting walked,
      f = r.finding report := by
  unfold block at hf
  split at hf
  case h_1 =>
    obtain rfl := List.mem_singleton.1 hf
    exact .inl (.core _)
  case h_2 r hr =>
    split at hf
    case h_1 => cases hf
    case h_2 setting hs =>
      split at hf
      case isTrue ha =>
        obtain ⟨report, hreport, rfl⟩ := List.mem_map.1 hf
        have hname := Registry.name_of_get? hr
        exact .inr ⟨r, setting, ⟨hname ▸ hr, entry.2, hname ▸ he, hs, ha⟩, report, hreport, rfl⟩
      case isFalse =>
        obtain rfl := List.mem_singleton.1 hf
        exact .inl (.invalid _)

theorem general_or_report_of_mem_lint (hf : f ∈ l.lint document) :
    General f ∨ ∃ walked, l.Walks document walked ∧ ∃ r setting, l.Runs r setting ∧
      ∃ report ∈ r.reports setting walked, f = r.finding report := by
  cases hd : Dialect.detect? document with
  | none =>
    rw [lint_of_undetected hd] at hf
    obtain rfl := List.mem_singleton.1 hf
    exact .inl (.core _)
  | some dialect =>
    cases hw : Walked.ofDocument? dialect (l.config.ignore.filter dialect document) with
    | error e =>
      rw [lint_of_error hd hw] at hf
      obtain rfl := List.mem_singleton.1 hf
      exact .inl (.walker _)
    | ok walked =>
      have hwalks : l.Walks document walked := ⟨dialect, hd, hw⟩
      rw [lint_of_walks hwalks] at hf
      rcases List.mem_append.1 hf with hf | hf
      · obtain ⟨entry, he, hf⟩ := List.mem_flatMap.1 hf
        exact (general_or_report_of_mem_block he hf).imp_right fun h => ⟨walked, hwalks, h⟩
      · unfold ending at hf
        split at hf
        · cases hf
        · obtain rfl := List.mem_singleton.1 hf
          exact .inl (.core _)

theorem exists_report_of_mem_lint (hf : f ∈ l.lint document) (hcore : f.name ≠ Finding.coreName)
    (hwalker : f.name ≠ Finding.walkerName) (hvalid : f ≠ .plain f.name invalidSetting .root) :
    ∃ walked, l.Walks document walked ∧ ∃ r ∈ l.registry.rules, ∃ setting,
      ∃ report ∈ r.reports setting walked, f = r.finding report := by
  rcases general_or_report_of_mem_lint hf with h | ⟨walked, hw, r, setting, hr, hreport⟩
  · cases h with
    | core message => exact absurd rfl hcore
    | walker message => exact absurd rfl hwalker
    | invalid name => exact absurd rfl hvalid
  · exact ⟨walked, hw, r, List.mem_of_find?_eq_some hr.1, setting, hreport⟩

end Linter

theorem Subscription.mem_reports_iff {K : Type} [DecidableEq K] {s : Subscription K}
    {setting : Setting} {vs : List (Visit K)} {report : Report} :
    report ∈ s.reports setting vs ↔
      ∃ v ∈ vs, v.kind ∈ s.kinds ∧ report ∈ s.check v.kind setting v.location v.node := by
  simp only [reports, Walked.ofKind, List.mem_flatMap, List.mem_filter, decide_eq_true_eq]
  constructor
  · rintro ⟨kind, hkind, v, ⟨hv, rfl⟩, hr⟩
    exact ⟨v, hv, hkind, hr⟩
  · rintro ⟨v, hv, hkind, hr⟩
    exact ⟨v.kind, hkind, v, ⟨hv, rfl⟩, hr⟩

theorem Subscription.Points.exists_at? {K S P : Type} [DecidableEq K] [DecidableEq S]
    {g : Grammar K S P} (hg : g.Separated) (hr : g.Rooted) {top : K}
    (htop : (g.form g.root).kind = some top) {s : Subscription K} (h : s.Points top) {d : Value}
    (hd : d.Distinct) {vs : List (Visit K)} (hw : g.walk d = .ok vs) {setting : Setting}
    {report : Report} (hreport : report ∈ s.reports setting vs) :
    report.location.segments ≠ [] ∧ ∃ x, d.at? report.location.segments = some x := by
  obtain ⟨v, hv, hkind, hmem⟩ := mem_reports_iff.1 hreport
  obtain ⟨path, hpath, hsome⟩ := h.within v.kind hkind setting v.location v.node report hmem
  obtain ⟨x, hx⟩ := Option.isSome_iff_exists.1 hsome
  constructor
  case right =>
    refine ⟨x, ?_⟩
    rw [hpath]
    exact Value.at?_append_eq_some ((faithful_walk hg.sections hd hw).reached v hv) hx
  case left =>
    -- Only the root itself is visited at the root, and a rule reports something below it.
    intro hroot
    rw [hpath] at hroot
    obtain ⟨hsegments, rfl⟩ := List.append_eq_nil_iff.1 hroot
    have hpre : v.location.segments <+: ["paths"] := by rw [hsegments]; exact List.nil_prefix
    rcases above_of_mem_walk hg hr (.inl rfl) hw hv hpre with ⟨-, hk⟩ | ⟨key, _, -, hl, -⟩
    · obtain rfl := Option.some.inj (htop.symm.trans hk)
      rw [List.append_nil] at hpath
      exact h.below hkind setting v.location v.node report hmem (congrArg Location.mk hpath)
    · rw [hl] at hsegments
      simp at hsegments

theorem exists_at?_of_mem_lint (config : Config) (defaults : RuleSet) (hd : document.Distinct)
    (hf : f ∈ Linter.lint ⟨config, defaults, .builtin⟩ document)
    (hname : f.name ∈ Registry.builtin.names)
    (hvalid : f ≠ .plain f.name Linter.invalidSetting .root) :
    f.location.segments ≠ [] ∧ ∃ v, document.at? f.location.segments = some v := by
  have hcore : f.name ≠ Finding.coreName := by
    intro h
    rw [h] at hname
    exact absurd hname (by decide)
  have hwalker : f.name ≠ Finding.walkerName := by
    intro h
    rw [h] at hname
    exact absurd hname (by decide)
  obtain ⟨walked, ⟨dialect, -, hw⟩, r, hr, setting, report, hreport, rfl⟩ :=
    Linter.exists_report_of_mem_lint hf hcore hwalker hvalid
  obtain ⟨hswagger, hopenApi⟩ := Rule.points_builtin r hr
  have hd' := config.ignore.distinct_filter dialect hd
  rw [Rule.location_finding]
  have hfound : report.location.segments ≠ [] ∧
      ∃ x, (config.ignore.filter dialect document).at? report.location.segments = some x := by
    cases dialect with
    | swagger =>
      obtain ⟨vs, hvs, rfl⟩ := Outcome.map_eq_ok_iff.1 hw
      exact hswagger.exists_at? Swagger.separated Swagger.rooted rfl hd' hvs hreport
    | openApi =>
      obtain ⟨vs, hvs, rfl⟩ := Outcome.map_eq_ok_iff.1 hw
      exact hopenApi.exists_at? OpenApi.separated OpenApi.rooted rfl hd' hvs hreport
  obtain ⟨hne, x, hx⟩ := hfound
  exact ⟨hne, Ignore.exists_at?_of_filter hx⟩

def petLinter : Linter :=
  ⟨⟨[], ⟨[("object-prop-casing", .enabled), ("no-trailing-slash", .enabled)]⟩, noOwners⟩, .empty,
    .builtin⟩

def petName : Finding :=
  Rule.objectPropCasing.finding (.template ⟨["definitions", "Pet", "properties", "pet_name"]⟩
    "casing" (Rule.casingData "pet_name" .camel))

def petPath : Finding :=
  Rule.noTrailingSlash.finding (Rule.trailingSlash ⟨["paths", "/pets/"]⟩ "/pets/")

theorem walks_petStore : petLinter.Walks petStore (.swagger petVisits) := by
  refine ⟨.swagger, by cbv, ?_⟩
  change Except.map Walked.swagger (Swagger.grammar.walk (noOwners.filter .swagger petStore)) = _
  rw [filter_petStore, swagger_walk_petsOnly]
  rfl

theorem lint_petStore : petLinter.lint petStore = [petName, petPath] := by
  rw [Linter.lint_of_walks walks_petStore]
  cbv

theorem exists_at?_of_mem_lint_petStore : petStore.Distinct ∧
    petName ∈ petLinter.lint petStore ∧ petName.name ∈ Registry.builtin.names ∧
    petName ≠ .plain petName.name Linter.invalidSetting .root ∧
    petName.location.segments ≠ [] ∧
    ∃ v, petStore.at? petName.location.segments = some v := by
  have hf : petName ∈ petLinter.lint petStore := by
    rw [lint_petStore]
    exact List.mem_cons_self
  have hname : petName.name ∈ Registry.builtin.names := by decide
  have hvalid : petName ≠ .plain petName.name Linter.invalidSetting .root := by
    intro h
    have hroot : petName.location = .root := congrArg Finding.location h
    exact absurd hroot (by decide)
  exact ⟨distinct_petStore, hf, hname, hvalid,
    exists_at?_of_mem_lint petLinter.config .empty distinct_petStore hf hname hvalid⟩

end ApiLint
