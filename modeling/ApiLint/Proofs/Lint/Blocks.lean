import ApiLint.Lint

/-!
# Blocks of findings

All rules add to one list, and one counter says how many of them were enabled. Still each entry of a
configuration has a block of its own in the list, which the other entries have no part in, and the
blocks stand in the order of the entries. So a rule that is turned off takes its block along and
nothing else, and another order of the entries is another order of the blocks.
-/

namespace ApiLint

open Json Walk

namespace Linter

variable {registry : Registry} {defaults : RuleSet} {walked : Walked} {name : String}

def block (registry : Registry) (defaults : RuleSet) (walked : Walked)
    (entry : String × Setting) : List Finding :=
  match registry.get? entry.1 with
  | none => [.core (unknownRule entry.1)]
  | some r =>
    match setting? defaults r entry.2 with
    | none => []
    | some setting =>
      if r.accepts setting then (r.reports setting walked).map r.finding
      else [.plain entry.1 invalidSetting .root]

def enables (registry : Registry) (entry : String × Setting) : Bool :=
  (registry.get? entry.1).isSome && entry.2.isEnabled

def ending (registry : Registry) (entries : List (String × Setting)) : List Finding :=
  if entries.any (enables registry) then [] else [.core noEnabledRules]

@[simp] theorem setting?_disabled (defaults : RuleSet) (r : Rule) :
    setting? defaults r .disabled = none := rfl

theorem isSome_setting? (defaults : RuleSet) (r : Rule) (s : Setting) :
    (setting? defaults r s).isSome = s.isEnabled := by
  cases s <;> rfl

theorem block_of_unknown (h : registry.get? name = none) (s : Setting) :
    block registry defaults walked (name, s) = [.core (unknownRule name)] := by
  simp only [block, h]

theorem block_of_disabled {r : Rule} (h : registry.get? name = some r) :
    block registry defaults walked (name, .disabled) = [] := by
  simp only [block, h, setting?_disabled]

theorem block_of_setting {r : Rule} {s setting : Setting} (h : registry.get? name = some r)
    (hs : setting? defaults r s = some setting) :
    block registry defaults walked (name, s) =
      if r.accepts setting then (r.reports setting walked).map r.finding
      else [.plain name invalidSetting .root] := by
  simp only [block, h, hs]

theorem name_of_mem_reports {r : Rule} {setting : Setting} {f : Finding}
    (h : registry.get? name = some r) (hf : f ∈ (r.reports setting walked).map r.finding) :
    f.name = name := by
  obtain ⟨report, -, rfl⟩ := List.mem_map.1 hf
  rw [Rule.name_finding, Registry.name_of_get? h]

theorem step_eq (l : Linter) (walked : Walked) (t : Tally) (entry : String × Setting) :
    l.step walked t entry = ⟨t.findings ++ block l.registry l.defaults walked entry,
      t.enabled + if enables l.registry entry then 1 else 0⟩ := by
  unfold step block enables
  cases l.registry.get? entry.1 with
  | none => rfl
  | some r =>
    -- Whether the counter goes up is read off the setting that the rule runs with.
    dsimp only
    rw [← isSome_setting? l.defaults r entry.2]
    cases setting? l.defaults r entry.2 with
    | none => simp
    | some setting =>
      dsimp only
      split <;> rfl

theorem foldl_step (l : Linter) (walked : Walked) (entries : List (String × Setting)) (t : Tally) :
    entries.foldl (l.step walked) t =
      ⟨t.findings ++ entries.flatMap (block l.registry l.defaults walked),
        t.enabled + entries.countP (enables l.registry)⟩ := by
  -- The induction carries what earlier entries have found along, as it stands.
  induction entries generalizing t with
  | nil => simp
  | cons entry entries ih =>
    rw [List.foldl_cons, ih, step_eq]
    simp only [List.flatMap_cons, List.append_assoc, List.countP_cons, Tally.mk.injEq, true_and]
    omega

theorem run_eq (l : Linter) (walked : Walked) :
    l.run walked = l.config.rules.entries.flatMap (block l.registry l.defaults walked) ++
      ending l.registry l.config.rules.entries := by
  have hany : l.config.rules.entries.countP (enables l.registry) = 0 ↔
      l.config.rules.entries.any (enables l.registry) = false := by
    rw [List.countP_eq_zero, List.any_eq_false]
  simp only [run, foldl_step, ending, Tally.report, Tally.empty, List.nil_append, Nat.zero_add,
    hany]
  cases l.config.rules.entries.any (enables l.registry) <;> simp

def withRules (l : Linter) (rules : RuleSet) : Linter :=
  { l with config := { l.config with rules } }

theorem setEntry_of_not_mem {pre post : List (String × Setting)} (h : name ∉ pre.map Prod.fst)
    (s t : Setting) : RuleSet.setEntry name t (pre ++ (name, s) :: post) =
      pre ++ (name, t) :: post := by
  induction pre with
  | nil => simp [RuleSet.setEntry]
  | cons entry pre ih =>
    obtain ⟨hne, hpre⟩ : name ≠ entry.1 ∧ name ∉ pre.map Prod.fst := by simpa using h
    simp only [List.cons_append, RuleSet.setEntry, Ne.symm hne, if_false, ih hpre]

theorem ending_of_disabled (registry : Registry) (pre post : List (String × Setting))
    (name : String) (s : Setting) :
    ending registry (pre ++ (name, .disabled) :: post) =
      if enables registry (name, s) && !(pre ++ post).any (enables registry) then
        [.core noEnabledRules]
      else ending registry (pre ++ (name, s) :: post) := by
  have hoff : enables registry (name, .disabled) = false := by simp [enables, Setting.isEnabled]
  simp only [ending, List.any_append, List.any_cons, hoff]
  cases enables registry (name, s) <;> cases pre.any (enables registry) <;>
    cases post.any (enables registry) <;> rfl

theorem ending_perm {es es' : List (String × Setting)} (h : es'.Perm es) :
    ending registry es' = ending registry es := by
  rw [ending, ending, h.any_eq]

/-- What one entry of a configuration comes to. -/
structure BlockLaws (registry : Registry) (defaults : RuleSet) (walked : Walked) : Prop where
  unknown : ∀ name s, registry.get? name = none →
    block registry defaults walked (name, s) = [.core (unknownRule name)]
  disabled : ∀ name r, registry.get? name = some r →
    block registry defaults walked (name, .disabled) = []
  invalid : ∀ name r s setting, registry.get? name = some r →
    setting? defaults r s = some setting → r.accepts setting = false →
    block registry defaults walked (name, s) = [.plain name invalidSetting .root]
  valid : ∀ name r s setting, registry.get? name = some r →
    setting? defaults r s = some setting → r.accepts setting = true →
    block registry defaults walked (name, s) = (r.reports setting walked).map r.finding ∧
    ∀ f ∈ block registry defaults walked (name, s), f.name = name

theorem blockLaws (registry : Registry) (defaults : RuleSet) (walked : Walked) :
    BlockLaws registry defaults walked where
  unknown _ s h := block_of_unknown h s
  disabled _ _ h := block_of_disabled h
  invalid name r s setting h hs ha := by
    rw [block_of_setting h hs, ha]
    rfl
  valid name r s setting h hs ha := by
    rw [block_of_setting h hs, if_pos ha]
    exact ⟨rfl, fun f hf => name_of_mem_reports h hf⟩

def Walks (l : Linter) (document : Value) (walked : Walked) : Prop :=
  ∃ dialect, Dialect.detect? document = some dialect ∧
    Walked.ofDocument? dialect (l.config.ignore.filter dialect document) = .ok walked

theorem lint_of_undetected {l : Linter} {document : Value}
    (h : Dialect.detect? document = none) : l.lint document = [.core unsupportedDocument] := by
  simp only [lint, h]

theorem lint_of_error {l : Linter} {document : Value} {dialect : Dialect} {e : ShapeError}
    (hd : Dialect.detect? document = some dialect)
    (he : Walked.ofDocument? dialect (l.config.ignore.filter dialect document) = .error e) :
    l.lint document = [.walker e.message] := by
  simp only [lint, hd, he]

theorem lint_eq_run {l : Linter} {document : Value} (h : l.Walks document walked) :
    l.lint document = l.run walked := by
  obtain ⟨dialect, hd, hw⟩ := h
  simp only [lint, hd, hw]

theorem lint_of_walks {l : Linter} {document : Value} (h : l.Walks document walked) :
    l.lint document = l.config.rules.entries.flatMap (block l.registry l.defaults walked) ++
      ending l.registry l.config.rules.entries :=
  (lint_eq_run h).trans (run_eq l walked)

theorem lint_withRules {l : Linter} {document : Value} (h : l.Walks document walked)
    (entries : List (String × Setting)) : (l.withRules ⟨entries⟩).lint document =
      entries.flatMap (block l.registry l.defaults walked) ++ ending l.registry entries :=
  lint_of_walks (l := l.withRules ⟨entries⟩) h

/-- How the findings of a run come about. -/
structure Dispatches (l : Linter) (document : Value) : Prop where
  unsupported : Dialect.detect? document = none →
    l.lint document = [.core unsupportedDocument]
  unwalkable : ∀ dialect e, Dialect.detect? document = some dialect →
    Walked.ofDocument? dialect (l.config.ignore.filter dialect document) = .error e →
    l.lint document = [.walker e.message]
  blocks : ∀ walked, l.Walks document walked →
    l.lint document = l.config.rules.entries.flatMap (block l.registry l.defaults walked) ++
      ending l.registry l.config.rules.entries
  laws : ∀ walked, BlockLaws l.registry l.defaults walked
  turnedOff : ∀ walked, l.Walks document walked → ∀ pre name s post,
    l.config.rules.entries = pre ++ (name, s) :: post → name ∉ pre.map Prod.fst →
    (l.registry.get? name).isSome →
    l.lint document = pre.flatMap (block l.registry l.defaults walked) ++
      block l.registry l.defaults walked (name, s) ++
      post.flatMap (block l.registry l.defaults walked) ++
      ending l.registry l.config.rules.entries ∧
    (l.withRules (l.config.rules.set name .disabled)).lint document =
      pre.flatMap (block l.registry l.defaults walked) ++
      post.flatMap (block l.registry l.defaults walked) ++
      if enables l.registry (name, s) && !(pre ++ post).any (enables l.registry) then
        [.core noEnabledRules]
      else ending l.registry l.config.rules.entries
  permuted : ∀ walked, l.Walks document walked → ∀ entries,
    entries.Perm l.config.rules.entries →
    (entries.map (block l.registry l.defaults walked)).Perm
      (l.config.rules.entries.map (block l.registry l.defaults walked)) ∧
    (l.withRules ⟨entries⟩).lint document =
      (entries.map (block l.registry l.defaults walked)).flatten ++
      ending l.registry l.config.rules.entries

theorem lint_dispatches (l : Linter) (document : Value) : l.Dispatches document where
  unsupported h := lint_of_undetected h
  unwalkable _ _ hd he := lint_of_error hd he
  blocks walked h := lint_of_walks h
  laws walked := blockLaws l.registry l.defaults walked
  turnedOff walked h pre name s post hsplit hpre hknown := by
    obtain ⟨r, hr⟩ := Option.isSome_iff_exists.1 hknown
    have hset : l.config.rules.set name .disabled = ⟨pre ++ (name, .disabled) :: post⟩ := by
      rw [RuleSet.set, hsplit, setEntry_of_not_mem hpre]
    constructor
    · rw [lint_of_walks h, hsplit]
      simp only [List.flatMap_append, List.flatMap_cons, List.append_assoc]
    · rw [hset, lint_withRules h, ending_of_disabled _ _ _ _ s, hsplit]
      simp only [List.flatMap_append, List.flatMap_cons, block_of_disabled hr, List.nil_append]
  permuted walked h entries hperm := by
    refine ⟨hperm.map _, ?_⟩
    rw [lint_withRules h, ending_perm hperm, List.flatMap_def]

end Linter

end ApiLint
