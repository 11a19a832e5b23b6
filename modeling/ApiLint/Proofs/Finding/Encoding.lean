import ApiLint.Finding.Basic
import ApiLint.Proofs.Config.Encoding
import ApiLint.Proofs.Json.Printing

/-!
# Findings as values

A finding is read back from the value that it is written as. What it does not have is not written,
and is absent again when it is read.
-/

namespace ApiLint

open Json Outcome

namespace Json.Decode

variable {E R : Type} {fields : Fields} {set : R → String → Value → Except (DecodeError E) R}
  {r default : R}

theorem record_object_eq_ok {ms : Members} (h : ms.foldlM (step fields set) default = .ok r)
    (hrequired : ∀ name ∈ fields.names.take fields.required, ms.contains name) :
    record fields default set (.object ms) = .ok r := by
  have hnone : (fields.names.take fields.required).find? (fun name => !ms.contains name) =
      none := by
    simpa using hrequired
  simp only [record, hnone]
  exact (bind_pure _).trans h

end Json.Decode

namespace Finding

def requiredMembers (f : Finding) : Members :=
  [("name", .string f.name), ("msg", .string f.message),
    ("location", .ofTexts f.location.segments)]

def members (f : Finding) : Members :=
  f.requiredMembers ++ optionalMember "messageId" .string f.messageId ++
    optionalMember "data" .object f.data

theorem toValue_eq (f : Finding) : f.toValue = .object f.members := rfl

theorem foldlM_requiredMembers (f : Finding) :
    f.requiredMembers.foldlM (Decode.step fields setField) (plain "" "" .root) =
      .ok (plain f.name f.message f.location) := by
  have hlocation : setField (plain f.name f.message .root) "location"
      (.ofTexts f.location.segments) = .ok (plain f.name f.message f.location) := by
    simp only [setField, Decode.texts_ofTexts]
    rfl
  simp only [requiredMembers, List.foldlM_cons, List.foldlM_nil, bind_eq_ok_iff]
  exact ⟨plain f.name "" .root, rfl, plain f.name f.message .root, rfl, _,
    (Decode.step_of_mem (by decide)).trans hlocation, rfl⟩

theorem foldlM_optionalMember {A : Type} {key : String} {toValue : A → Value} {g h : Finding}
    (hkey : key ∈ fields.names) {x : Option A} (hnone : x = none → g = h)
    (hsome : ∀ a, x = some a → setField g key (toValue a) = .ok h) :
    (optionalMember key toValue x).foldlM (Decode.step fields setField) g = .ok h := by
  cases x with
  | none =>
    rw [hnone rfl]
    rfl
  | some a =>
    rw [optionalMember, List.foldlM_cons, Decode.step_of_mem hkey, hsome a rfl]
    rfl

theorem ofValue?_toValue (f : Finding) : ofValue? f.toValue = .ok f := by
  obtain ⟨name, message, location, id, data⟩ := f
  have hid : (optionalMember "messageId" .string id).foldlM (Decode.step fields setField)
      (plain name message location) = .ok ⟨name, message, location, id, none⟩ :=
    foldlM_optionalMember (by decide) (by rintro rfl; rfl) (by rintro _ rfl; rfl)
  have hdata : (optionalMember "data" .object data).foldlM (Decode.step fields setField)
      ⟨name, message, location, id, none⟩ = .ok ⟨name, message, location, id, data⟩ :=
    foldlM_optionalMember (by decide) (by rintro rfl; rfl) (by rintro _ rfl; rfl)
  rw [ofValue?, toValue_eq, members]
  refine Decode.record_object_eq_ok ?_ ?_
  case refine_1 =>
    rw [List.append_assoc, foldlM_append_of_eq_ok (foldlM_requiredMembers _)]
    exact (foldlM_append_of_eq_ok hid _).trans hdata
  case refine_2 => simp [fields, requiredMembers, Members.contains, Members.get?_cons]

theorem get?_optionalMember {A : Type} (key : String) (toValue : A → Value) (x : Option A)
    (other : String) : Members.get? (optionalMember key toValue x) other =
      if other = key then x.map toValue else none := by
  cases x with
  | none => simp [optionalMember]
  | some a => simp [optionalMember, Members.get?_cons]

theorem get?_toValue_messageId (f : Finding) :
    f.toValue.get? "messageId" = f.messageId.map .string := by
  rw [toValue_eq, Value.get?_object, members, Members.get?_append, Members.get?_append,
    get?_optionalMember, get?_optionalMember]
  simp [requiredMembers, Members.get?_cons]

theorem get?_toValue_data (f : Finding) : f.toValue.get? "data" = f.data.map .object := by
  rw [toValue_eq, Value.get?_object, members, Members.get?_append, Members.get?_append,
    get?_optionalMember, get?_optionalMember]
  simp [requiredMembers, Members.get?_cons]

theorem keys_optionalMember_sublist {A : Type} (key : String) (toValue : A → Value)
    (x : Option A) : (optionalMember key toValue x).keys.Sublist [key] := by
  cases x with
  | none => exact List.nil_sublist [key]
  | some a => exact List.Sublist.refl [key]

theorem nodup_keys_members (f : Finding) : f.members.keys.Nodup := by
  have hnames : fields.names.Nodup := by decide
  refine hnames.sublist ?_
  rw [members, Members.keys_append, Members.keys_append]
  exact ((List.Sublist.refl _).append (keys_optionalMember_sublist _ _ _)).append
    (keys_optionalMember_sublist _ _ _)

theorem mem_optionalMember {A : Type} {key : String} {toValue : A → Value} {x : Option A}
    {m : String × Value} :
    m ∈ optionalMember key toValue x ↔ ∃ a, x = some a ∧ m = (key, toValue a) := by
  cases x <;> simp [optionalMember]

theorem legible_toValue {f : Finding} {depth : Nat}
    (h : ∀ data, f.data = some data → (Value.object data).Legible (depth + 1)) :
    f.toValue.Legible (depth + 2) := by
  have hlocation : (Value.ofTexts f.location.segments).Legible (depth + 1) := by
    refine .array fun x hx => ?_
    obtain ⟨s, -, rfl⟩ := List.mem_map.1 hx
    exact .string depth s
  refine .object f.nodup_keys_members (List.forall_mem_append.2 ⟨?_, fun m hm => ?_⟩)
  · refine List.forall_mem_append.2 ⟨?_, fun m hm => ?_⟩
    · simp only [List.forall_mem_cons]
      exact ⟨.string _ f.name, .string _ f.message, hlocation, List.forall_mem_nil _⟩
    · obtain ⟨id, -, rfl⟩ := mem_optionalMember.1 hm
      exact .string _ id
  · obtain ⟨data, hdata, rfl⟩ := mem_optionalMember.1 hm
    exact h data hdata

end Finding

end ApiLint
