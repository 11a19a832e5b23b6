import ApiLint.Config.RuleSet
import ApiLint.Proofs.Json.Distinct
import ApiLint.Proofs.Outcome

/-!
# Rule sets as objects

The members of an object are read as a rule set exactly if each of them spells a setting. Nothing is
lost: the rule set is written as the members that it was read from. Otherwise the first member that
spells no setting is named, with what is wrong with it.
-/

namespace ApiLint

open Json Outcome

namespace Setting

inductive Spelling : Value → Prop where
  | switch (b : Bool) : Spelling (.bool b)
  | primary (primary : String) : Spelling (.array [.string primary])
  | options (primary : String) (options : Members) :
    Spelling (.array [.string primary, .object options])

/-- What is wrong with a value that spells no setting. Of the elements of an array, the first that
is out of place counts. -/
inductive Misspelling : Value → SettingError → Prop where
  | kind {v : Value} (hbool : v.isBool = false) (harray : v.items? = none) :
    Misspelling v (.notBoolOrArray v)
  | empty : Misspelling (.array []) .emptyArray
  | primary {v : Value} (hv : v.string? = none) (rest : List Value) :
    Misspelling (.array (v :: rest)) (.primaryNotText v)
  | options (primary : String) {v : Value} (hv : v.members? = none) (rest : List Value) :
    Misspelling (.array (.string primary :: v :: rest)) (.optionsNotObject v)
  | length (primary : String) (options : Members) (v : Value) (rest : List Value) :
    Misspelling (.array (.string primary :: .object options :: v :: rest)) .tooManyItems

variable {v : Value} {s : Setting} {reason : SettingError}

theorem ofValue?_eq_ok_iff : ofValue? v = .ok s ↔ v = s.toValue := by
  constructor
  · intro h
    unfold ofValue? at h
    split at h <;> cases h <;> rfl
  · rintro rfl
    exact ofValue?_toValue s

theorem spelling_iff : Spelling v ↔ ∃ s : Setting, v = s.toValue := by
  constructor
  · rintro (_ | ⟨primary⟩ | ⟨primary, options⟩)
    case switch b =>
      cases b with
      | false => exact ⟨.disabled, rfl⟩
      | true => exact ⟨.enabled, rfl⟩
    case primary => exact ⟨.custom primary none, rfl⟩
    case options => exact ⟨.custom primary (some options), rfl⟩
  · rintro ⟨_ | _ | ⟨primary, _ | options⟩, rfl⟩
    · exact .switch false
    · exact .switch true
    · exact .primary primary
    · exact .options primary options

theorem misspelling_of_ofValue? (h : ofValue? v = .error reason) : Misspelling v reason := by
  cases v with
  | bool b => cases b <;> cases h
  | array xs =>
    match xs, h with
    | [], rfl => exact .empty
    | .string primary :: [], h => cases h
    | .string primary :: .object options :: [], h => cases h
    | .string primary :: .object options :: y :: ys, rfl => exact .length primary options y ys
    | .string primary :: .null :: ys, rfl
    | .string primary :: .bool _ :: ys, rfl
    | .string primary :: .number _ :: ys, rfl
    | .string primary :: .string _ :: ys, rfl
    | .string primary :: .array _ :: ys, rfl => exact .options primary rfl ys
    | .null :: ys, rfl | .bool _ :: ys, rfl | .number _ :: ys, rfl | .array _ :: ys, rfl
    | .object _ :: ys, rfl => exact .primary rfl ys
  | _ => cases h; exact .kind rfl rfl

theorem ofValue?_of_misspelling (h : Misspelling v reason) : ofValue? v = .error reason := by
  cases h with
  | kind hbool harray =>
    cases v with
    | bool b => cases hbool
    | array xs => cases harray
    | _ => rfl
  | empty => rfl
  | @primary v hv rest =>
    cases v with
    | string s => cases hv
    | _ => rfl
  | @options primary v hv rest =>
    cases v with
    | object ms => cases hv
    | _ => rfl
  | length => rfl

theorem ofValue?_eq_error_iff : ofValue? v = .error reason ↔ Misspelling v reason :=
  ⟨misspelling_of_ofValue?, ofValue?_of_misspelling⟩

theorem Misspelling.not_spelling (h : Misspelling v reason) : ¬ Spelling v := by
  intro hv
  obtain ⟨s, rfl⟩ := spelling_iff.1 hv
  rw [← ofValue?_eq_error_iff, ofValue?_toValue] at h
  cases h

end Setting

namespace RuleSet

theorem entryOf?_eq_ok_iff {m : String × Value} {e : String × Setting} :
    entryOf? m = .ok e ↔ m = (e.1, e.2.toValue) := by
  obtain ⟨key, v⟩ := m
  obtain ⟨rule, s⟩ := e
  rw [Prod.mk.injEq, ← Setting.ofValue?_eq_ok_iff]
  unfold entryOf?
  cases Setting.ofValue? v <;> simp

theorem entryOf?_eq_error_iff {m : String × Value} {e : RuleSetError} :
    entryOf? m = .error e ↔ e.rule = m.1 ∧ Setting.Misspelling m.2 e.reason := by
  obtain ⟨rule, reason⟩ := e
  rw [← Setting.ofValue?_eq_error_iff]
  unfold entryOf?
  cases Setting.ofValue? m.2 <;> simp [eq_comm]

theorem exists_entryOf?_iff {m : String × Value} :
    (∃ e, entryOf? m = .ok e) ↔ Setting.Spelling m.2 := by
  rw [Setting.spelling_iff]
  constructor
  · rintro ⟨e, he⟩
    exact ⟨e.2, congrArg Prod.snd (entryOf?_eq_ok_iff.1 he)⟩
  · rintro ⟨s, hs⟩
    exact ⟨(m.1, s), entryOf?_eq_ok_iff.2 (Prod.ext rfl hs)⟩

theorem ofMembers?_eq_ok_iff {ms : Members} {rs : RuleSet} :
    ofMembers? ms = .ok rs ↔ ms = rs.toMembers := by
  obtain ⟨entries⟩ := rs
  have hmap : ofMembers? ms = .ok ⟨entries⟩ ↔ ms.mapM entryOf? = .ok entries := by
    unfold ofMembers?
    rw [map_eq_ok_iff]
    simp
  rw [hmap]
  exact mapM_eq_ok_iff_eq_map fun _ _ => entryOf?_eq_ok_iff

theorem ofMembers?_toMembers (rs : RuleSet) : ofMembers? rs.toMembers = .ok rs :=
  ofMembers?_eq_ok_iff.2 rfl

theorem keys_toMembers (rs : RuleSet) : rs.toMembers.keys = rs.names := by
  simp [toMembers, Members.keys, names]

theorem names_of_ofMembers? {ms : Members} {rs : RuleSet} (h : ofMembers? ms = .ok rs) :
    rs.names = ms.keys := by
  rw [ofMembers?_eq_ok_iff.1 h, keys_toMembers]

theorem exists_ofMembers?_iff {ms : Members} :
    (∃ rs, ofMembers? ms = .ok rs) ↔ ∀ m ∈ ms, Setting.Spelling m.2 := by
  constructor
  · rintro ⟨rs, h⟩ m hm
    rw [ofMembers?_eq_ok_iff.1 h] at hm
    obtain ⟨e, -, rfl⟩ := List.mem_map.1 hm
    exact Setting.spelling_iff.2 ⟨e.2, rfl⟩
  · intro h
    obtain ⟨es, -, hes⟩ := exists_of_forall_eq_ok fun m hm => exists_entryOf?_iff.2 (h m hm)
    exact ⟨⟨es⟩, map_eq_ok_iff.2 ⟨es, hes, rfl⟩⟩

theorem ofMembers?_eq_error_iff {ms : Members} {e : RuleSetError} :
    ofMembers? ms = .error e ↔ ∃ before v after, ms = before ++ (e.rule, v) :: after ∧
      (∀ m ∈ before, Setting.Spelling m.2) ∧ Setting.Misspelling v e.reason := by
  unfold ofMembers?
  simp only [map_eq_error_iff, mapM_eq_error_iff, exists_entryOf?_iff, entryOf?_eq_error_iff]
  constructor
  · rintro ⟨before, ⟨key, v⟩, after, hms, hbefore, rfl, hv⟩
    exact ⟨before, v, after, hms, hbefore, hv⟩
  · rintro ⟨before, v, after, hms, hbefore, hv⟩
    exact ⟨before, (e.rule, v), after, hms, hbefore, rfl, hv⟩

/-- What reading the members of an object as a rule set comes to. A rule set that is read is put
together into the same object again. -/
structure ReadsExactly (ms : Members) : Prop where
  accepted : (∃ rs, ofMembers? ms = .ok rs) ↔ ∀ m ∈ ms, Setting.Spelling m.2
  restored : ∀ rs, ofMembers? ms = .ok rs → Members.ofList rs.toMembers = ms ∧
    rs.names = ms.keys ∧ rs.size = ms.length
  refused : ∀ e, ofMembers? ms = .error e → ∃ before name v after reason,
    ms = before ++ (name, v) :: after ∧ (∀ m ∈ before, Setting.Spelling m.2) ∧
      ¬ Setting.Spelling v ∧ Setting.Misspelling v reason ∧
      e.message = "rule '" ++ name ++ "': " ++ reason.message

theorem readsExactly {ms : Members} (h : ms.keys.Nodup) : ReadsExactly ms where
  accepted := exists_ofMembers?_iff
  restored := by
    intro rs hrs
    obtain rfl := ofMembers?_eq_ok_iff.1 hrs
    refine ⟨Members.ofList_eq_self h, (keys_toMembers rs).symm, ?_⟩
    simp [toMembers, size]
  refused := by
    intro e he
    obtain ⟨before, v, after, hms, hbefore, hv⟩ := ofMembers?_eq_error_iff.1 he
    exact ⟨before, e.rule, v, after, e.reason, hms, hbefore, hv.not_spelling, hv, rfl⟩

/-- The members of an object are read exactly, and a rule set is read back from the object that it
is put together into. -/
theorem members_readExactly {ms : Members} (hms : ms.keys.Nodup) {rs : RuleSet}
    (hrs : rs.names.Nodup) :
    ReadsExactly ms ∧ ofMembers? (Members.ofList rs.toMembers) = .ok rs := by
  refine ⟨readsExactly hms, ?_⟩
  rw [Members.ofList_eq_self (keys_toMembers rs ▸ hrs), ofMembers?_toMembers]

def crowded : Members :=
  [("a", .bool true), ("b", .array [.string "camel", .object []]),
    ("c", .array [.string "snake", .number (.int 1)]), ("d", .null)]

def settled : RuleSet :=
  ⟨[("b", .custom "" (some [("ignore", .array [.string "-"])])), ("a", .disabled)]⟩

theorem members_readExactly_crowded : crowded.keys.Nodup ∧ settled.names.Nodup ∧
    (∃ e, ofMembers? crowded = .error e ∧ e.message =
      "rule 'c': the second element of a rule setting must be an object, got 1") ∧
    ReadsExactly crowded ∧ ofMembers? (Members.ofList settled.toMembers) = .ok settled := by
  have hcrowded : crowded.keys.Nodup := by decide
  have hsettled : settled.names.Nodup := by decide
  exact ⟨hcrowded, hsettled, ⟨_, rfl, by decide⟩, members_readExactly hcrowded hsettled⟩

end RuleSet

end ApiLint
