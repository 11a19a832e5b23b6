import ApiLint.Proofs.Config.Merging
import ApiLint.Proofs.Lint.Places

/-!
# Default settings

A rule that is only enabled runs with the custom setting that the project has for it, or else with
its own default. So `true` may be written out as what it stands for, and what the project says by
`true` or `false` counts for nothing: a lint run looks at its custom settings only.
-/

namespace ApiLint

open Json Walk

namespace RuleSet

def custom? (rs : RuleSet) (name : String) : Option Setting :=
  (rs.get? name).filter Setting.isCustom

/-- Of the entries that are `true` or `false` some are removed and some are set anew. -/
inductive Adjusted : List (String × Setting) → List (String × Setting) → Prop where
  | nil : Adjusted [] []
  | keep {es es' : List (String × Setting)} (entry : String × Setting) (h : Adjusted es es') :
    Adjusted (entry :: es) (entry :: es')
  | remove {es es' : List (String × Setting)} {name : String} {s : Setting}
    (hs : s.isCustom = false) (h : Adjusted es es') : Adjusted ((name, s) :: es) es'
  | toggle {es es' : List (String × Setting)} {name : String} {s s' : Setting}
    (hs : s.isCustom = false) (hs' : s'.isCustom = false) (h : Adjusted es es') :
    Adjusted ((name, s) :: es) ((name, s') :: es')

theorem custom?_cons (name key : String) (s : Setting) (es : List (String × Setting)) :
    custom? ⟨(name, s) :: es⟩ key =
      if key = name then (if s.isCustom then some s else none) else custom? ⟨es⟩ key := by
  rw [custom?, get?, lookup_cons_eq]
  split
  · simp [Option.filter]
  · rfl

namespace Adjusted

variable {es es' : List (String × Setting)}

theorem names_sublist (h : Adjusted es es') : (es'.map (·.1)).Sublist (es.map (·.1)) := by
  induction h with
  | nil => exact .slnil
  | keep entry _ ih => exact ih.cons_cons entry.1
  | remove _ _ ih => exact ih.cons _
  | toggle _ _ _ ih => exact ih.cons_cons _

theorem custom?_eq (h : Adjusted es es') (hn : (es.map (·.1)).Nodup) (key : String) :
    custom? ⟨es'⟩ key = custom? ⟨es⟩ key := by
  induction h with
  | nil => rfl
  | keep entry h ih =>
    obtain ⟨name, s⟩ := entry
    rw [custom?_cons, custom?_cons, ih (List.nodup_cons.1 hn).2]
  | @remove es es' name s hs h ih =>
    obtain ⟨hfresh, hes⟩ := List.nodup_cons.1 hn
    rw [custom?_cons, hs]
    by_cases hkey : key = name
    · -- No other entry has this name, so it has no setting once its entry is removed.
      have hnone : es'.lookup key = none :=
        lookup_eq_none (hkey ▸ fun hmem => hfresh (h.names_sublist.subset hmem))
      rw [custom?, get?, hnone, if_pos hkey]
      rfl
    · rw [ih hes, if_neg hkey]
  | toggle hs hs' _ ih =>
    rw [custom?_cons, custom?_cons, hs, hs', ih (List.nodup_cons.1 hn).2]
    rfl

end Adjusted

end RuleSet

namespace Linter

variable {registry : Registry} {defaults defaults' : RuleSet} {walked : Walked}

theorem defaultSetting_eq (defaults : RuleSet) (r : Rule) : defaultSetting defaults r =
    ((defaults.custom? r.name).or r.default).getD .enabled := by
  unfold defaultSetting RuleSet.custom?
  cases defaults.get? r.name with
  | none => rfl
  | some s => cases s <;> rfl

theorem block_congr (h : ∀ name, defaults'.custom? name = defaults.custom? name)
    (entry : String × Setting) :
    block registry defaults' walked entry = block registry defaults walked entry := by
  have hsetting : ∀ r s, setting? defaults' r s = setting? defaults r s := by
    intro r s
    cases s <;> simp only [setting?, defaultSetting_eq, h]
  simp only [block, hsetting]

/-- An entry as it stands, or the `true` of a known rule written out: as the project's custom
setting if there is one, and else as the default that the rule has. -/
inductive WritesOut (registry : Registry) (defaults : RuleSet) :
    String × Setting → String × Setting → Prop where
  | same (entry : String × Setting) : WritesOut registry defaults entry entry
  | project {name : String} {r : Rule} {s : Setting} (hr : registry.get? name = some r)
    (hs : defaults.custom? name = some s) :
    WritesOut registry defaults (name, .enabled) (name, s)
  | own {name : String} {r : Rule} {s : Setting} (hr : registry.get? name = some r)
    (hnone : defaults.custom? name = none) (hs : r.default = some s) :
    WritesOut registry defaults (name, .enabled) (name, s)

theorem setting?_of_isCustom (defaults : RuleSet) (r : Rule) {s : Setting}
    (h : s.isCustom = true) : setting? defaults r s = some s ∧ s.isEnabled = true := by
  cases s with
  | custom primary options => exact ⟨rfl, rfl⟩
  | _ => cases h

theorem block_of_default (walked : Walked) {name : String} {r : Rule} {s : Setting}
    (hr : registry.get? name = some r) (hcustom : s.isCustom = true)
    (hs : (defaults.custom? name).or r.default = some s) :
    block registry defaults walked (name, s) = block registry defaults walked (name, .enabled) ∧
      enables registry (name, s) = enables registry (name, .enabled) := by
  obtain ⟨hsetting, henabled⟩ := setting?_of_isCustom defaults r hcustom
  have htrue : setting? defaults r .enabled = some s := by
    rw [setting?, defaultSetting_eq, Registry.name_of_get? hr, hs]
    rfl
  rw [block_of_setting hr hsetting, block_of_setting hr htrue, enables, enables, henabled]
  exact ⟨rfl, rfl⟩

theorem block_writtenOut (walked : Walked) {e e' : String × Setting}
    (h : WritesOut registry defaults e e')
    (hr : ∀ r ∈ registry.rules, r.default.all Setting.isCustom) :
    block registry defaults walked e' = block registry defaults walked e ∧
      enables registry e' = enables registry e := by
  cases h with
  | same => exact ⟨rfl, rfl⟩
  | project hget hs =>
    refine block_of_default walked hget (Option.filter_eq_some_iff.1 hs).2 ?_
    rw [hs]
    rfl
  | own hget hnone hs =>
    have hcustom := hr _ (List.mem_of_find?_eq_some hget)
    rw [hs] at hcustom
    refine block_of_default walked hget hcustom ?_
    rw [hnone, hs]
    rfl

theorem blocks_writtenOut (walked : Walked) {es es' : List (String × Setting)}
    (h : List.Forall₂ (WritesOut registry defaults) es es')
    (hr : ∀ r ∈ registry.rules, r.default.all Setting.isCustom) :
    es'.flatMap (block registry defaults walked) = es.flatMap (block registry defaults walked) ∧
      es'.any (enables registry) = es.any (enables registry) := by
  induction h with
  | nil => exact ⟨rfl, rfl⟩
  | cons hentry _ ih =>
    obtain ⟨hblock, henables⟩ := block_writtenOut walked hentry hr
    rw [List.flatMap_cons, List.flatMap_cons, List.any_cons, List.any_cons, hblock, henables, ih.1,
      ih.2]
    exact ⟨rfl, rfl⟩

theorem run_writtenOut {l : Linter} {rules : RuleSet}
    (hr : ∀ r ∈ l.registry.rules, r.default.all Setting.isCustom)
    (hw : List.Forall₂ (WritesOut l.registry l.defaults) l.config.rules.entries rules.entries)
    (hc : ∀ name, defaults.custom? name = l.defaults.custom? name) :
    run ⟨{ l.config with rules }, defaults, l.registry⟩ walked = l.run walked := by
  obtain ⟨hblocks, hany⟩ := blocks_writtenOut walked hw hr
  have hsame : block l.registry defaults walked = block l.registry l.defaults walked :=
    funext (block_congr hc)
  simp only [run_eq, ending, hsame, hblocks, hany]

theorem lint_writtenOut (l : Linter) (document : Value) {rules defaults : RuleSet}
    (hr : ∀ r ∈ l.registry.rules, r.default.all Setting.isCustom) (hn : l.defaults.names.Nodup)
    (hw : List.Forall₂ (WritesOut l.registry l.defaults) l.config.rules.entries rules.entries)
    (ha : RuleSet.Adjusted l.defaults.entries defaults.entries) :
    lint ⟨{ l.config with rules }, defaults, l.registry⟩ document = l.lint document ∧
      ∀ (d : RuleSet) (r : Rule) (s : Setting), (setting? d r s).isSome = s.isEnabled := by
  refine ⟨?_, isSome_setting?⟩
  unfold lint
  split
  case h_1 => rfl
  case h_2 dialect _ =>
    dsimp only
    split
    case h_1 => rfl
    case h_2 walked _ => exact run_writtenOut hr hw (ha.custom?_eq hn)

def plainLinter : Linter where
  config := ⟨[], ⟨[("object-prop-casing", .enabled), ("latin-definitions-only", .enabled),
    ("no-trailing-slash", .enabled), ("no-owners", .enabled)]⟩, noOwners⟩
  defaults := ⟨[("no-trailing-slash", .disabled), ("object-prop-casing", .custom "snake" none),
    ("latin-definitions-only", .enabled)]⟩
  registry := .builtin

def writtenRules : RuleSet :=
  ⟨[("object-prop-casing", .custom "snake" none),
    ("latin-definitions-only", .custom "" (some [("ignore", .array [])])),
    ("no-trailing-slash", .enabled), ("no-owners", .enabled)]⟩

def adjustedDefaults : RuleSet :=
  ⟨[("object-prop-casing", .custom "snake" none), ("latin-definitions-only", .disabled)]⟩

theorem lint_writtenOut_petStore :
    (∀ r ∈ Registry.builtin.rules, r.default.all Setting.isCustom) ∧
    plainLinter.defaults.names.Nodup ∧
    List.Forall₂ (WritesOut .builtin plainLinter.defaults) plainLinter.config.rules.entries
      writtenRules.entries ∧
    RuleSet.Adjusted plainLinter.defaults.entries adjustedDefaults.entries ∧
    lint ⟨{ plainLinter.config with rules := writtenRules }, adjustedDefaults, .builtin⟩ petStore =
      plainLinter.lint petStore := by
  have hr : ∀ r ∈ Registry.builtin.rules, r.default.all Setting.isCustom := by decide
  have hn : plainLinter.defaults.names.Nodup := by decide
  have hw : List.Forall₂ (WritesOut .builtin plainLinter.defaults) plainLinter.config.rules.entries
      writtenRules.entries :=
    .cons (.project rfl rfl) (.cons (.own rfl rfl rfl) (.cons (.same _) (.cons (.same _) .nil)))
  have ha : RuleSet.Adjusted plainLinter.defaults.entries adjustedDefaults.entries :=
    .remove rfl (.keep _ (.toggle rfl rfl .nil))
  exact ⟨hr, hn, hw, ha, (plainLinter.lint_writtenOut petStore hr hn hw ha).1⟩

end Linter

end ApiLint
