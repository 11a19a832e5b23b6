import ApiLint.Proofs.Config.Flattening
import ApiLint.Rule.Registry

/-!
# Names of configured rules

A rule set that comes about through the functions on configurations has an entry for each rule at
most once, whether it is put together setting by setting, taken from the members of an object, or
loaded from files.
-/

namespace ApiLint

open Json Outcome

/-- The rule sets that the functions on configurations give. -/
inductive RuleSet.Built : RuleSet → Prop where
  | empty : Built .empty
  | set {rs : RuleSet} (h : Built rs) (name : String) (s : Setting) : Built (rs.set name s)
  | merge {rs other : RuleSet} (h : Built rs) (h' : Built other) : Built (rs.merge other)
  | ofList (entries : List (String × Setting)) : Built (.ofList entries)
  | ofMembers {ms : Members} {rs : RuleSet} (hn : ms.keys.Nodup)
    (h : RuleSet.ofMembers? ms = .ok rs) : Built rs
  | ofValue {v : Value} {c : Config} (hv : v.Distinct) (h : Config.ofValue? v = .ok c) :
    Built c.rules
  | ofText {format : Format} {s : String} {c : Config} (h : Config.ofText? format s = .ok c) :
    Built c.rules
  | load {fs : FileSystem} {path : Path} {c : Config} (h : Config.load fs path = .ok c) :
    Built c.rules
  | loadText {fs : FileSystem} {path : Path} {text : String} {c : Config}
    (h : Config.loadText fs path text = .ok c) : Built c.rules

namespace Config

variable {fs : FileSystem} {path : Path} {text : String} {own c d : Config}

theorem nodup_names_of_extend {load : Path → Except ConfigError Config}
    (ho : own.rules.names.Nodup) (h : extend load path own = .ok c) : c.rules.names.Nodup := by
  rcases extend_eq_ok_iff.1 h with ⟨-, rfl⟩ | ⟨-, merged, hm, rfl⟩
  · exact ho
  · have hmerged : merged.rules.names.Nodup := by
      refine foldlM_induction (motive := fun c => c.rules.names.Nodup) List.nodup_nil ?_ hm
      intro entry _ b c hb hc
      obtain ⟨d, -, rfl⟩ := map_eq_ok_iff.1 hc
      exact RuleSet.nodup_names_merge hb d.rules
    exact RuleSet.nodup_names_merge hmerged own.rules

theorem nodup_names_of_steps {load : Path → Except ConfigError Config}
    (ho : parse? path text = .ok own) (hd : extend load path own = .ok d)
    (hc : validate path d = .ok c) : c.rules.names.Nodup := by
  obtain ⟨rfl, -⟩ := validate_eq_ok_iff.1 hc
  exact nodup_names_of_extend (nodup_names_of_parse? ho) hd

theorem nodup_names_of_load (h : Config.load fs path = .ok c) : c.rules.names.Nodup := by
  obtain ⟨-, text, own, -, ho, d, hd, hc⟩ := loadFrom_eq_ok_iff.1 h
  exact nodup_names_of_steps ho hd hc

theorem nodup_names_of_loadText (h : loadText fs path text = .ok c) : c.rules.names.Nodup := by
  simp only [loadText, bind_eq_ok_iff] at h
  obtain ⟨own, ho, d, hd, hc⟩ := h
  exact nodup_names_of_steps ho hd hc

end Config

theorem RuleSet.Built.nodup_names {rs : RuleSet} (h : rs.Built) : rs.names.Nodup := by
  induction h with
  | empty => exact List.nodup_nil
  | set _ name s ih => exact nodup_names_set ih name s
  | merge _ _ ih _ => exact nodup_names_merge ih _
  | ofList entries =>
    have hempty : RuleSet.empty.names.Nodup := List.nodup_nil
    rw [ofList_eq_merge]
    exact nodup_names_merge hempty _
  | ofMembers hn h =>
    rw [names_of_ofMembers? h]
    exact hn
  | ofValue hv h => exact Config.nodup_names_of_ofValue? hv h
  | ofText h => exact Config.nodup_names_of_ofText? h
  | load h => exact Config.nodup_names_of_load h
  | loadText h => exact Config.nodup_names_of_loadText h

theorem Config.built_default : Config.default.rules.Built :=
  .ofList _

end ApiLint
