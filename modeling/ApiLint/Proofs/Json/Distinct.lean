import ApiLint.Document.Reference
import ApiLint.Json.Syntax
import Mathlib.Data.List.Nodup

/-!
# Values with distinct names

A value is distinct when no object in it holds a name twice. Readers build such values only, and in
them a member that stands in an object is the one that its name leads to: every step to a child can
be taken back from the segment that it adds to a location.
-/

namespace ApiLint.Json

namespace Members

theorem get?_of_mem {ms : Members} (hn : ms.keys.Nodup) {key : String} {v : Value}
    (hm : (key, v) ∈ ms) : ms.get? key = some v := by
  induction ms with
  | nil => simp at hm
  | cons m ms ih =>
    obtain ⟨k, w⟩ := m
    rw [keys, List.map_cons, List.nodup_cons] at hn
    rw [get?_cons]
    rcases List.mem_cons.1 hm with h | h
    · simp_all
    · have hk : key ≠ k := by
        rintro rfl
        exact hn.1 (List.mem_map.2 ⟨_, h, rfl⟩)
      simpa [hk] using ih hn.2 h

theorem exists_get?_of_mem_keys {ms : Members} {key : String} (h : key ∈ ms.keys) :
    ∃ v, ms.get? key = some v := by
  obtain ⟨m, hm, rfl⟩ := List.mem_map.1 h
  cases hget : ms.get? m.1 with
  | some v => exact ⟨v, rfl⟩
  | none =>
    have hne := List.lookup_eq_none_iff.1 hget m hm
    simp at hne

theorem mem_keys_insert {ms : Members} {key other : String} {v : Value} :
    other ∈ (ms.insert key v).keys ↔ other = key ∨ other ∈ ms.keys := by
  induction ms with
  | nil => simp [insert, keys]
  | cons m ms ih =>
    obtain ⟨k, w⟩ := m
    simp only [insert, keys] at ih ⊢
    split
    case isTrue hk => subst hk; simp
    case isFalse hk => simp only [List.map_cons, List.mem_cons, ih]; tauto

theorem nodup_keys_insert {ms : Members} (hn : ms.keys.Nodup) (key : String) (v : Value) :
    (ms.insert key v).keys.Nodup := by
  induction ms with
  | nil => simp [insert, keys]
  | cons m ms ih =>
    obtain ⟨k, w⟩ := m
    have hn' : k ∉ keys ms ∧ (keys ms).Nodup := by simpa [keys] using hn
    simp only [insert]
    split
    case isTrue => exact hn
    case isFalse hk =>
      refine List.nodup_cons.2 ⟨?_, ih hn'.2⟩
      intro hmem
      rcases mem_keys_insert.1 hmem with h | h
      · exact hk h
      · exact hn'.1 h

theorem mem_insert {ms : Members} {key : String} {v : Value} {m : String × Value}
    (h : m ∈ ms.insert key v) : m = (key, v) ∨ m ∈ ms := by
  induction ms with
  | nil => exact .inl (by simpa [insert] using h)
  | cons n ms ih =>
    obtain ⟨k, w⟩ := n
    simp only [insert] at h
    split at h
    case isTrue hk =>
      rcases List.mem_cons.1 h with rfl | h
      · exact .inl (by rw [hk])
      · exact .inr (List.mem_cons_of_mem _ h)
    case isFalse =>
      rcases List.mem_cons.1 h with rfl | h
      · exact .inr List.mem_cons_self
      · exact (ih h).imp_right (List.mem_cons_of_mem _)

theorem nodup_keys_ofList (entries : List (String × Value)) : (ofList entries).keys.Nodup := by
  suffices h : ∀ ms : Members, ms.keys.Nodup →
      (entries.foldl (fun ms e => insert ms e.1 e.2) ms).keys.Nodup from h [] List.nodup_nil
  induction entries with
  | nil => exact fun _ hn => hn
  | cons e es ih => exact fun ms hn => ih _ (nodup_keys_insert hn e.1 e.2)

theorem insert_of_not_mem_keys {ms : Members} {key : String} (h : key ∉ ms.keys) (v : Value) :
    ms.insert key v = ms ++ [(key, v)] := by
  induction ms with
  | nil => rfl
  | cons m ms ih =>
    obtain ⟨k, w⟩ := m
    obtain ⟨hne, hms⟩ : key ≠ k ∧ key ∉ keys ms := by simpa [keys] using h
    simp only [insert, Ne.symm hne, if_false, ih hms, List.cons_append]

theorem ofList_eq_self {ms : Members} (h : ms.keys.Nodup) : ofList ms = ms := by
  suffices hs : ∀ es ds : Members, (keys (ds ++ es)).Nodup →
      es.foldl (fun ms e => insert ms e.1 e.2) ds = ds ++ es from hs ms [] h
  intro es
  induction es with
  | nil => intro ds _; exact (List.append_nil ds).symm
  | cons e es ih =>
    intro ds hn
    obtain ⟨key, v⟩ := e
    have hfresh : key ∉ keys ds := by
      intro hmem
      simp only [keys, List.map_append, List.map_cons] at hn hmem
      exact (List.nodup_append.1 hn).2.2 key hmem key List.mem_cons_self rfl
    have hsplit : ds ++ (key, v) :: es = ds ++ [(key, v)] ++ es := by simp
    rw [List.foldl_cons, insert_of_not_mem_keys hfresh, hsplit]
    exact ih _ (hsplit ▸ hn)

theorem mem_of_mem_ofList {entries : List (String × Value)} {m : String × Value}
    (h : m ∈ ofList entries) : m ∈ entries := by
  suffices hs : ∀ (es : List (String × Value)) (ms : Members),
      m ∈ es.foldl (fun ms e => insert ms e.1 e.2) ms → m ∈ es ∨ m ∈ ms from
    (hs entries [] h).resolve_right List.not_mem_nil
  intro es
  induction es with
  | nil => exact fun _ hm => .inr hm
  | cons e es ih =>
    intro ms hm
    rcases ih _ hm with hm | hm
    · exact .inl (List.mem_cons_of_mem _ hm)
    · rcases mem_insert hm with rfl | hm
      · exact .inl List.mem_cons_self
      · exact .inr hm

end Members

namespace Value

/-- No object in the value holds a name twice. -/
inductive Distinct : Value → Prop where
  | null : Distinct .null
  | bool (b : Bool) : Distinct (.bool b)
  | number (n : Number) : Distinct (.number n)
  | string (s : String) : Distinct (.string s)
  | array {xs : List Value} (items : ∀ x ∈ xs, Distinct x) : Distinct (.array xs)
  | object {ms : Members} (names : (Members.keys ms).Nodup) (members : ∀ m ∈ ms, Distinct m.2) :
    Distinct (.object ms)

@[simp] theorem distinct_string (s : String) : (Value.string s).Distinct := .string s

@[simp] theorem distinct_array_iff {xs : List Value} :
    (Value.array xs).Distinct ↔ ∀ x ∈ xs, x.Distinct :=
  ⟨fun | .array h => h, .array⟩

@[simp] theorem distinct_object_iff {ms : Members} :
    (Value.object ms).Distinct ↔ (Members.keys ms).Nodup ∧ ∀ m ∈ ms, m.2.Distinct :=
  ⟨fun | .object hn hm => ⟨hn, hm⟩, fun h => .object h.1 h.2⟩

namespace Distinct

variable {v w : Value}

theorem nodup_keys {ms : Members} (hv : v.Distinct) (hm : v.members? = some ms) :
    ms.keys.Nodup := by
  cases hv with
  | object hn => obtain rfl := Option.some.inj hm; exact hn
  | _ => simp [members?] at hm

theorem of_mem_members {ms : Members} (hv : v.Distinct) (hm : v.members? = some ms)
    {m : String × Value} (h : m ∈ ms) : m.2.Distinct := by
  cases hv with
  | object _ hd => obtain rfl := Option.some.inj hm; exact hd m h
  | _ => simp [members?] at hm

theorem of_mem_items {xs : List Value} (hv : v.Distinct) (hx : v.items? = some xs)
    (h : w ∈ xs) : w.Distinct := by
  cases hv with
  | array hd => obtain rfl := Option.some.inj hx; exact hd w h
  | _ => simp [items?] at hx

theorem of_get? {key : String} (hv : v.Distinct) (h : v.get? key = some w) : w.Distinct := by
  obtain ⟨ms, hm, hw⟩ := Option.bind_eq_some_iff.1 h
  exact hv.of_mem_members hm (Members.mem_of_get? hw)

theorem of_descend? {keys : List String} (hv : v.Distinct) (h : v.descend? keys = some w) :
    w.Distinct := by
  induction keys generalizing v with
  | nil => cases h; exact hv
  | cons key keys ih =>
    obtain ⟨u, hu, hw⟩ := Option.bind_eq_some_iff.1 h
    exact ih (hv.of_get? hu) hw

end Distinct

end Value

theorem eq_of_repr_eq {i j : Nat} (h : Nat.repr i = Nat.repr j) : i = j := by
  have hd : Nat.toDigits 10 i = Nat.toDigits 10 j := String.ofList_injective h
  rw [← Nat.ofDigitChars_ten_toDigits (n := i), hd, Nat.ofDigitChars_ten_toDigits]

namespace Value

variable {v w : Value}

theorem descend?_append (v : Value) (s t : List String) :
    v.descend? (s ++ t) = v.descend? s >>= (·.descend? t) := by
  simp only [descend?, List.foldlM_append]

theorem descend?_cons (v : Value) (key : String) (path : List String) :
    v.descend? (key :: path) = v.get? key >>= (·.descend? path) := by
  simp only [descend?, List.foldlM_cons]

theorem descend?_singleton (v : Value) (key : String) : v.descend? [key] = v.get? key := by
  simp [descend?]

theorem child?_of_get? {key : String} (h : v.get? key = some w) : v.child? key = some w := by
  cases v with
  | object ms => exact h
  | _ => simp [get?, members?] at h

theorem child?_repr {xs : List Value} (hx : v.items? = some xs) {i : Nat} (h : (w, i) ∈ xs.zipIdx) :
    v.child? (Nat.repr i) = some w := by
  cases v with
  | array ys =>
    obtain rfl := Option.some.inj hx
    rw [child?]
    generalize hf : List.findSome? _ ys.zipIdx = found
    cases found with
    | none => simpa using List.findSome?_eq_none_iff.1 hf _ h
    | some u =>
      obtain ⟨⟨x, j⟩, hj, hu⟩ := List.exists_of_findSome?_eq_some hf
      obtain ⟨hji, rfl⟩ : Nat.repr j = Nat.repr i ∧ x = u := by simpa using hu
      obtain rfl := eq_of_repr_eq hji
      rw [List.mem_zipIdx_iff_getElem?] at h hj
      exact hj.symm.trans h
  | _ => simp [items?] at hx

theorem Distinct.of_child? {segment : String} (hv : v.Distinct) (h : v.child? segment = some w) :
    w.Distinct := by
  cases v with
  | object ms => exact hv.of_get? h
  | array xs =>
    obtain ⟨⟨x, i⟩, hx, h⟩ := List.exists_of_findSome?_eq_some h
    obtain ⟨-, rfl⟩ : Nat.repr i = segment ∧ x = w := by simpa using h
    exact hv.of_mem_items rfl (List.fst_mem_of_mem_zipIdx hx)
  | _ => cases h

theorem Distinct.of_at? {segments : List String} (hv : v.Distinct) (h : v.at? segments = some w) :
    w.Distinct := by
  induction segments generalizing v with
  | nil => cases h; exact hv
  | cons segment segments ih =>
    obtain ⟨u, hu, hw⟩ := Option.bind_eq_some_iff.1 h
    exact ih (hv.of_child? hu) hw

theorem at?_of_descend? {keys : List String} (h : v.descend? keys = some w) :
    v.at? keys = some w := by
  induction keys generalizing v with
  | nil => exact h
  | cons key keys ih =>
    obtain ⟨u, hu, hw⟩ := Option.bind_eq_some_iff.1 h
    exact Option.bind_eq_some_iff.2 ⟨u, child?_of_get? hu, ih hw⟩

theorem at?_append_eq_some {s t : List String} {u : Value} (hs : v.at? s = some u)
    (ht : u.at? t = some w) : v.at? (s ++ t) = some w := by
  rw [at?_append, hs]
  exact ht

end Value

namespace Tree

mutual

theorem distinct_value? {depth : Nat} {t : Tree} {v : Value} (h : t.value? depth = some v) :
    v.Distinct := by
  match t, depth, h with
  | .null, _, h => obtain rfl := Option.some.inj h; exact .null
  | .bool b, _, h => obtain rfl := Option.some.inj h; exact .bool b
  | .number n, _, h => obtain ⟨n, -, rfl⟩ := Option.map_eq_some_iff.1 h; exact .number n
  | .string s, _, h => obtain ⟨s, -, rfl⟩ := Option.map_eq_some_iff.1 h; exact .string s
  | .array ts, depth + 1, h =>
    obtain ⟨xs, hx, rfl⟩ := Option.map_eq_some_iff.1 h
    exact .array (distinct_values? hx)
  | .object ts, depth + 1, h =>
    obtain ⟨es, he, rfl⟩ := Option.map_eq_some_iff.1 h
    exact .object (Members.nodup_keys_ofList es) fun m hm =>
      distinct_entries? he m (Members.mem_of_mem_ofList hm)

theorem distinct_values? {depth : Nat} {ts : List Tree} {xs : List Value}
    (h : values? depth ts = some xs) : ∀ x ∈ xs, x.Distinct := by
  match ts, h with
  | [], h => obtain rfl := Option.some.inj h; exact List.forall_mem_nil _
  | t :: ts, h =>
    simp only [values?, Option.bind_eq_bind, Option.bind_eq_some_iff] at h
    obtain ⟨y, hy, ys, hys, h⟩ := h
    obtain rfl := Option.some.inj h
    exact List.forall_mem_cons.2 ⟨distinct_value? hy, distinct_values? hys⟩

theorem distinct_entries? {depth : Nat} {ts : List (Option String × Tree)}
    {es : List (String × Value)} (h : entries? depth ts = some es) : ∀ e ∈ es, e.2.Distinct := by
  match ts, h with
  | [], h => obtain rfl := Option.some.inj h; exact List.forall_mem_nil _
  | (name, t) :: ts, h =>
    simp only [entries?, Option.bind_eq_bind, Option.bind_eq_some_iff] at h
    obtain ⟨key, -, y, hy, ys, hys, h⟩ := h
    obtain rfl := Option.some.inj h
    exact List.forall_mem_cons.2 ⟨distinct_value? hy, distinct_entries? hys⟩

end

end Tree

theorem Value.distinct_of_ofText? {s : String} {v : Value} (h : Value.ofText? s = some v) :
    v.Distinct := by
  obtain ⟨t, -, hv⟩ := Option.bind_eq_some_iff.1 h
  exact Tree.distinct_value? hv

end ApiLint.Json
