import ApiLint.Proofs.Config.Merging
import ApiLint.Proofs.Config.RuleMembers

/-!
# Configurations as values

A configuration is read back from the value that it is written as, with the order of its rules, of
their options and of all lists. A list that is empty is not written, and is empty again when it is
read. Ignore lists that nobody knows are refused.
-/

namespace ApiLint

open Json Outcome OpenApi

theorem Json.Members.get?_append (ms ns : Members) (key : String) :
    Members.get? (ms ++ ns) key = (ms.get? key).or (ns.get? key) :=
  List.lookup_append

theorem Json.Members.keys_append (ms ns : Members) :
    Members.keys (ms ++ ns) = ms.keys ++ ns.keys :=
  List.map_append

namespace Json.Decode

variable {E R : Type} {fields : Fields} {set : R → String → Value → Except (DecodeError E) R}
  {r r' default : R} {key : String} {v : Value}

def step (fields : Fields) (set : R → String → Value → Except (DecodeError E) R) (r : R)
    (m : String × Value) : Except (DecodeError E) R :=
  if fields.names.contains m.1 then set r m.1 m.2
  else if fields.closed then .error (.unknownField m.1 fields.names)
  else .ok r

theorem record_object (h : fields.required = 0) (ms : Members) :
    record fields default set (.object ms) = ms.foldlM (step fields set) default := by
  simp only [record, h, List.take_zero, List.find?_nil]
  exact bind_pure _

theorem step_of_mem (h : key ∈ fields.names) : step fields set r (key, v) = set r key v :=
  if_pos (by simpa using h)

theorem step_of_not_mem (hclosed : fields.closed = true) (h : key ∉ fields.names) :
    step fields set r (key, v) = .error (.unknownField key fields.names) := by
  unfold step
  rw [if_neg (by simpa using h), if_pos hclosed]

theorem exists_record_eq_error (hfields : fields.required = 0) {ms : Members} {m : String × Value}
    (hm : m ∈ ms) (h : ∀ r, ∃ e, step fields set r m = .error e) :
    ∃ e, record fields default set (.object ms) = .error e := by
  rw [record_object hfields]
  exact exists_foldlM_eq_error hm h default

theorem foldlM_listMember {xs : List String} (h : key ∈ fields.names)
    (hset : set r key (.ofTexts xs) = .ok r') (hempty : xs = [] → r = r') :
    (Ignore.listMember key xs).foldlM (step fields set) r = .ok r' := by
  cases xs with
  | nil =>
    rw [← hempty rfl]
    rfl
  | cons x xs =>
    have hmember : Ignore.listMember key (x :: xs) = [(key, .ofTexts (x :: xs))] := rfl
    rw [hmember, List.foldlM_cons, step_of_mem h, hset]
    rfl

end Json.Decode

theorem OpenApi.Section.key_injective {s t : Section} (h : s.key = t.key) : s = t := by
  have hkeys : Section.ofKey? s.key = Section.ofKey? t.key := congrArg Section.ofKey? h
  rw [Section.ofKey?_key, Section.ofKey?_key] at hkeys
  exact Option.some.inj hkeys

namespace Ignore

variable {E : Type} {components : Section → List String}

theorem setComponent_ofTexts (f : Section → List String) (s : Section) (xs : List String) :
    setComponent f s.key (.ofTexts xs) =
      (.ok fun t => if t = s then xs else f t :
        Except (DecodeError E) (Section → List String)) := by
  have hkey : ∀ t : Section, t.key = s.key ↔ t = s :=
    fun t => ⟨Section.key_injective, congrArg Section.key⟩
  simp only [setComponent, Decode.texts_ofTexts, hkey]
  rfl

theorem foldlM_componentMembers (ss : List Section) {f : Section → List String}
    (hf : ∀ s, components s = [] → f s = []) :
    (ss.flatMap fun s => listMember s.key (components s)).foldlM
        (Decode.step componentFields setComponent) f =
      (.ok fun s => if s ∈ ss then components s else f s :
        Except (DecodeError E) (Section → List String)) := by
  -- `f` has what was read before; a section that is not written has no names there.
  induction ss generalizing f with
  | nil => rfl
  | cons s ss ih =>
    have hname : s.key ∈ componentFields.names := List.mem_map_of_mem (Section.mem_all s)
    have hsection : (listMember s.key (components s)).foldlM
        (Decode.step componentFields setComponent) f =
        (.ok fun t => if t = s then components s else f t :
          Except (DecodeError E) (Section → List String)) := by
      refine Decode.foldlM_listMember hname (setComponent_ofTexts f s _) fun hempty => ?_
      funext t
      by_cases ht : t = s
      · rw [if_pos ht, ht, hempty, hf s hempty]
      · rw [if_neg ht]
    rw [List.flatMap_cons, foldlM_append_of_eq_ok hsection]
    refine (ih fun t ht => ?_).trans (congrArg Except.ok (funext fun t => ?_))
    · by_cases hts : t = s
      · rw [if_pos hts, ← hts, ht]
      · rw [if_neg hts, hf t ht]
    · by_cases hts : t = s
      · subst hts
        simp
      · simp [hts]

theorem record_componentMembers : Decode.record componentFields (fun _ => []) setComponent
    (.object (componentMembers components)) =
      (.ok components : Except (DecodeError E) (Section → List String)) := by
  rw [Decode.record_object rfl, componentMembers, foldlM_componentMembers _ fun _ _ => rfl]
  refine congrArg Except.ok (funext fun s => ?_)
  rw [if_pos (Section.mem_all s)]

theorem componentsEmpty_iff : componentsEmpty components = true ↔ ∀ s, components s = [] := by
  simp [componentsEmpty, Section.mem_all]

theorem ofValue?_toValue (i : Ignore) :
    ofValue? i.toValue = (.ok i : Except (DecodeError E) Ignore) := by
  obtain ⟨definitions, paths, components⟩ := i
  have hdefinitions : (listMember "definitions" definitions).foldlM
      (Decode.step fields setField) empty =
      (.ok ⟨definitions, [], fun _ => []⟩ : Except (DecodeError E) Ignore) := by
    refine Decode.foldlM_listMember (by decide) ?_ (by rintro rfl; rfl)
    simp only [setField, Decode.texts_ofTexts]
    rfl
  have hpaths : (listMember "paths" paths).foldlM (Decode.step fields setField)
      ⟨definitions, [], fun _ => []⟩ =
      (.ok ⟨definitions, paths, fun _ => []⟩ : Except (DecodeError E) Ignore) := by
    refine Decode.foldlM_listMember (by decide) ?_ (by rintro rfl; rfl)
    simp only [setField, Decode.texts_ofTexts]
    rfl
  rw [ofValue?, toValue, Decode.record_object rfl, List.append_assoc,
    foldlM_append_of_eq_ok hdefinitions, foldlM_append_of_eq_ok hpaths]
  split
  case isTrue hempty =>
    have hnone : components = fun _ => [] := funext (componentsEmpty_iff.1 hempty)
    rw [hnone]
    rfl
  case isFalse =>
    rw [List.foldlM_cons, Decode.step_of_mem (by decide)]
    simp only [setField, record_componentMembers]
    rfl

def Part.route : Part → List String
  | .definitions => ["definitions"]
  | .paths => ["paths"]
  | .component s => ["components", s.key]

def listed (xs : List String) : Option Value := if xs.isEmpty then none else some (.ofTexts xs)

theorem get?_listMember (key : String) (xs : List String) (other : String) :
    Members.get? (listMember key xs) other = if other = key then listed xs else none := by
  unfold listMember listed
  by_cases hkey : other = key <;> cases xs <;> simp [Members.get?_cons, hkey]

theorem get?_componentMembers (s : Section) :
    Members.get? (componentMembers components) s.key = listed (components s) := by
  suffices h : ∀ ss : List Section, Members.get?
      (ss.flatMap fun t => listMember t.key (components t)) s.key =
        if s ∈ ss then listed (components s) else none from
    (h Section.all).trans (if_pos (Section.mem_all s))
  intro ss
  induction ss with
  | nil => rfl
  | cons t ss ih =>
    rw [List.flatMap_cons, Members.get?_append, get?_listMember, ih]
    by_cases ht : s = t
    · subst ht
      by_cases hs : s ∈ ss <;> simp [hs]
    · have hkey : s.key ≠ t.key := fun h => ht (Section.key_injective h)
      simp [ht, hkey]

theorem get?_toValue (i : Ignore) (key : String) : i.toValue.get? key =
    ((if key = "definitions" then listed i.definitions else none).or
      (if key = "paths" then listed i.paths else none)).or
        (if key = "components" ∧ componentsEmpty i.components = false then
          some (.object (componentMembers i.components)) else none) := by
  rw [toValue, Value.get?_object, Members.get?_append, Members.get?_append, get?_listMember,
    get?_listMember]
  cases componentsEmpty i.components <;> simp [Members.get?_cons]

theorem descend?_toValue (i : Ignore) (part : Part) :
    i.toValue.descend? part.route = listed (i.names part) := by
  cases part with
  | definitions =>
    rw [Part.route, Value.descend?_singleton, get?_toValue]
    simp [names]
  | paths =>
    rw [Part.route, Value.descend?_singleton, get?_toValue]
    simp [names]
  | component s =>
    rw [Part.route, Value.descend?_cons, get?_toValue]
    cases hempty : componentsEmpty i.components with
    | true => simp [names, listed, componentsEmpty_iff.1 hempty s]
    | false =>
      have hlist : (Value.object (componentMembers i.components)).descend? [s.key] =
          listed (i.components s) :=
        (Value.descend?_singleton _ _).trans (get?_componentMembers s)
      simpa [names] using hlist

theorem distinct_ofTexts (xs : List String) : (Value.ofTexts xs).Distinct := by
  simp [Value.ofTexts]

theorem keys_listMember_sublist (key : String) (xs : List String) :
    (Members.keys (listMember key xs)).Sublist [key] := by
  cases xs with
  | nil => exact List.nil_sublist _
  | cons => exact List.Sublist.refl _

theorem distinct_of_mem_listMember {key : String} {xs : List String} {m : String × Value}
    (h : m ∈ listMember key xs) : m.2.Distinct := by
  unfold listMember at h
  split at h
  · cases h
  · rw [List.mem_singleton.1 h]
    exact distinct_ofTexts xs

theorem keys_componentMembers_sublist (ss : List Section) :
    (Members.keys (ss.flatMap fun s => listMember s.key (components s))).Sublist
      (ss.map Section.key) := by
  induction ss with
  | nil => exact List.nil_sublist _
  | cons s ss ih =>
    rw [List.flatMap_cons, Members.keys_append]
    exact (keys_listMember_sublist s.key _).append ih

theorem distinct_componentMembers : (Value.object (componentMembers components)).Distinct := by
  have hnames : componentFields.names.Nodup := by decide
  refine .object (hnames.sublist (keys_componentMembers_sublist Section.all)) fun m hm => ?_
  obtain ⟨s, -, hm⟩ := List.mem_flatMap.1 hm
  exact distinct_of_mem_listMember hm

theorem distinct_toValue (i : Ignore) : i.toValue.Distinct := by
  have hnames : fields.names.Nodup := by decide
  refine .object (hnames.sublist ?_) ?_
  · rw [Members.keys_append, Members.keys_append]
    refine ((keys_listMember_sublist _ _).append (keys_listMember_sublist _ _)).append ?_
    split
    · exact List.nil_sublist _
    · exact List.Sublist.refl _
  · refine List.forall_mem_append.2 ⟨List.forall_mem_append.2
      ⟨fun _ => distinct_of_mem_listMember, fun _ => distinct_of_mem_listMember⟩, ?_⟩
    split
    · exact List.forall_mem_nil _
    · exact List.forall_mem_singleton.2 distinct_componentMembers

/-- The members of an ignore configuration have one with an unknown name, or its components do. -/
inductive Stray (ms : Members) : Prop where
  | member {key : String} {v : Value} (hm : (key, v) ∈ ms)
    (h : key ∉ ["definitions", "paths", "components"])
  | component {cs : Members} {key : String} {v : Value} (hc : ("components", .object cs) ∈ ms)
    (hm : (key, v) ∈ cs) (h : ∀ s : Section, key ≠ s.key)

theorem Stray.exists_ofValue?_eq_error {ms : Members} (h : Stray ms) :
    ∃ e, (ofValue? (.object ms) : Except (DecodeError E) Ignore) = .error e := by
  cases h with
  | member hm h =>
    exact Decode.exists_record_eq_error rfl hm fun _ => ⟨_, Decode.step_of_not_mem rfl h⟩
  | @component cs key v hc hm h =>
    have hkey : key ∉ componentFields.names := by
      intro hmem
      obtain ⟨s, -, hs⟩ := List.mem_map.1 hmem
      exact h s hs.symm
    obtain ⟨e, he⟩ : ∃ e, Decode.record componentFields (fun _ => []) setComponent (.object cs) =
        (.error e : Except (DecodeError E) (Section → List String)) :=
      Decode.exists_record_eq_error rfl hm fun _ => ⟨_, Decode.step_of_not_mem rfl hkey⟩
    refine Decode.exists_record_eq_error rfl hc fun i => ⟨e, ?_⟩
    rw [Decode.step_of_mem (by decide)]
    exact bind_eq_error_iff.2 (.inl he)

end Ignore

theorem Setting.distinct_toValue {s : Setting}
    (h : ∀ options, s.options? = some options → (Value.object options).Distinct) :
    s.toValue.Distinct := by
  rcases s with _ | _ | ⟨primary, _ | options⟩
  · exact .bool false
  · exact .bool true
  · exact .array (List.forall_mem_singleton.2 (.string primary))
  · refine .array (List.forall_mem_cons.2 ⟨.string primary, ?_⟩)
    exact List.forall_mem_singleton.2 (h options rfl)

namespace Config

theorem ofValue?_toValue (c : Config) : ofValue? c.toValue = .ok c := by
  obtain ⟨bases, rules, ignore⟩ := c
  have hbases : (Ignore.listMember "extends" bases).foldlM (Decode.step fields setField) empty =
      .ok ⟨bases, .empty, .empty⟩ := by
    refine Decode.foldlM_listMember (by decide) ?_ (by rintro rfl; rfl)
    simp only [setField, Decode.texts_ofTexts]
    rfl
  have hrules : setField ⟨bases, .empty, .empty⟩ "rules" (.object rules.toMembers) =
      .ok ⟨bases, rules, .empty⟩ := by
    have hread : rulesOf? (.object rules.toMembers) = .ok rules := by
      simp only [rulesOf?, Decode.members, bind, Except.bind, RuleSet.ofMembers?_toMembers]
    simp only [setField, hread]
    rfl
  have hignore : setField ⟨bases, rules, .empty⟩ "ignore" ignore.toValue =
      .ok ⟨bases, rules, ignore⟩ := by
    simp only [setField, Ignore.ofValue?_toValue]
    rfl
  have hrest : ([("rules", .object rules.toMembers), ("ignore", ignore.toValue)] : Members).foldlM
      (Decode.step fields setField) ⟨bases, .empty, .empty⟩ = .ok ⟨bases, rules, ignore⟩ := by
    simp only [List.foldlM_cons, List.foldlM_nil, bind_eq_ok_iff]
    exact ⟨_, (Decode.step_of_mem (by decide)).trans hrules, _,
      (Decode.step_of_mem (by decide)).trans hignore, rfl⟩
  rw [ofValue?, toValue, Decode.record_object rfl, foldlM_append_of_eq_ok hbases, hrest]

theorem distinct_toValue {c : Config} (hn : c.rules.names.Nodup)
    (h : ∀ e ∈ c.rules.entries, ∀ options, e.2.options? = some options →
      (Value.object options).Distinct) : c.toValue.Distinct := by
  have hrules : (Value.object c.rules.toMembers).Distinct := by
    refine .object (RuleSet.keys_toMembers c.rules ▸ hn) fun m hm => ?_
    obtain ⟨e, he, rfl⟩ := List.mem_map.1 hm
    exact Setting.distinct_toValue (h e he)
  have hnames : fields.names.Nodup := by decide
  refine .object (hnames.sublist ?_) ?_
  · rw [Members.keys_append]
    exact (Ignore.keys_listMember_sublist _ _).append (List.Sublist.refl _)
  · refine List.forall_mem_append.2 ⟨fun _ => Ignore.distinct_of_mem_listMember, ?_⟩
    exact List.forall_mem_cons.2 ⟨hrules, List.forall_mem_singleton.2 c.ignore.distinct_toValue⟩

theorem get?_toValue (c : Config) (key : String) : c.toValue.get? key =
    (if key = "extends" then Ignore.listed c.bases else none).or
      (Members.get? [("rules", .object c.rules.toMembers), ("ignore", c.ignore.toValue)] key) := by
  rw [toValue, Value.get?_object, Members.get?_append, Ignore.get?_listMember]

theorem get?_toValue_ignore (c : Config) : c.toValue.get? "ignore" = some c.ignore.toValue := by
  rw [get?_toValue]
  rfl

theorem exists_ofValue?_eq_error {ms ignored : Members} (hm : ("ignore", .object ignored) ∈ ms)
    (h : Ignore.Stray ignored) : ∃ e, ofValue? (.object ms) = .error e := by
  obtain ⟨e, he⟩ := h.exists_ofValue?_eq_error (E := RuleSetError)
  refine Decode.exists_record_eq_error rfl hm fun c => ⟨e, ?_⟩
  rw [Decode.step_of_mem (by decide)]
  exact bind_eq_error_iff.2 (.inl he)

/-- What a configuration is written as. -/
structure Encoded (c : Config) : Prop where
  restored : ofValue? c.toValue = .ok c
  distinct : (∀ e ∈ c.rules.entries, ∀ options, e.2.options? = some options →
    (Value.object options).Distinct) → c.toValue.Distinct
  bases : c.toValue.get? "extends" = Ignore.listed c.bases
  rules : c.toValue.get? "rules" = some (.object c.rules.toMembers)
  ignored : ∀ part,
    c.toValue.descend? ("ignore" :: part.route) = Ignore.listed (c.ignore.names part)
  components : c.toValue.descend? ["ignore", "components"] = none ↔
    ∀ s, c.ignore.components s = []

theorem encoded {c : Config} (hn : c.rules.names.Nodup) : Encoded c where
  restored := ofValue?_toValue c
  distinct := distinct_toValue hn
  bases := by
    rw [get?_toValue]
    simp [Members.get?_cons]
  rules := by
    rw [get?_toValue]
    rfl
  ignored part := by
    rw [Value.descend?_cons, get?_toValue_ignore]
    exact c.ignore.descend?_toValue part
  components := by
    rw [Value.descend?_cons, get?_toValue_ignore, ← Ignore.componentsEmpty_iff]
    refine (Eq.congr_left (Value.descend?_singleton _ _)).trans ?_
    rw [Ignore.get?_toValue]
    cases Ignore.componentsEmpty c.ignore.components <;> simp

/-- Configurations are read back as they were written, and unknown ignore lists are refused. -/
theorem toValue_roundTrips {c : Config} (hn : c.rules.names.Nodup) :
    Encoded c ∧ ∀ ms ignored, ("ignore", .object ignored) ∈ ms → Ignore.Stray ignored →
      ∃ e, ofValue? (.object ms) = .error e :=
  ⟨encoded hn, fun _ _ => exists_ofValue?_eq_error⟩

def sparse : Config where
  bases := ["base.json"]
  rules := ⟨[("b", .custom "" (some [("ignore", .array [.string "-"])])), ("a", .disabled)]⟩
  ignore := ⟨[], ["/pets", "/pets"], fun | .headers => ["Page"] | _ => []⟩

def sparseValue : Value := .object
  [("extends", .array [.string "base.json"]),
    ("rules", .object
      [("b", .array [.string "", .object [("ignore", .array [.string "-"])]]), ("a", .bool false)]),
    ("ignore", .object
      [("paths", .array [.string "/pets", .string "/pets"]),
        ("components", .object [("headers", .array [.string "Page"])])])]

theorem toValue_roundTrips_sparse : sparse.rules.names.Nodup ∧ sparse.toValue = sparseValue ∧
    Encoded sparse ∧ Ignore.Stray [("components", .object [("widgets", .array [])])] ∧
    ∃ e, ofValue? (.object
      [("ignore", .object [("components", .object [("widgets", .array [])])])]) = .error e := by
  have hsparse : sparse.rules.names.Nodup := by decide
  have hstray : Ignore.Stray [("components", .object [("widgets", .array [])])] :=
    .component List.mem_cons_self List.mem_cons_self fun s => by cases s <;> decide
  obtain ⟨hencoded, hrefused⟩ := toValue_roundTrips hsparse
  exact ⟨hsparse, rfl, hencoded, hstray, hrefused _ _ List.mem_cons_self hstray⟩

end Config

end ApiLint
