import ApiLint.Proofs.Json.Distinct
import Mathlib.Data.List.Perm.Basic

/-!
# Values up to the order of members

Two values are reorderings of one another when they differ only in the order of the members of
objects, at whatever depth; the elements of arrays keep their places. Whatever is looked up in the
one by its name or by its index is there in the other, reordered.
-/

namespace ApiLint.Json

theorem Members.mem_keys_of_get? {ms : Members} {key : String} {v : Value}
    (h : ms.get? key = some v) : key ∈ ms.keys :=
  List.mem_map.2 ⟨(key, v), mem_of_get? h, rfl⟩

theorem Members.get?_of_perm {ms ns : Members} (hn : ms.keys.Nodup) (h : ns.Perm ms)
    (key : String) : ns.get? key = ms.get? key := by
  have hn' : ns.keys.Nodup := (h.map Prod.fst).nodup_iff.2 hn
  refine Option.ext fun v => ⟨fun hv => ?_, fun hv => ?_⟩
  · exact get?_of_mem hn (h.mem_iff.1 (mem_of_get? hv))
  · exact get?_of_mem hn' (h.mem_iff.2 (mem_of_get? hv))

namespace Value

inductive Reordered : Value → Value → Prop where
  | null : Reordered .null .null
  | bool (b : Bool) : Reordered (.bool b) (.bool b)
  | number (n : Number) : Reordered (.number n) (.number n)
  | string (s : String) : Reordered (.string s) (.string s)
  | array {xs ys : List Value} (length : xs.length = ys.length)
    (items : ∀ (i : Nat) v w, xs[i]? = some v → ys[i]? = some w → Reordered v w) :
    Reordered (.array xs) (.array ys)
  | object {ms ns : Members} (names : (Members.keys ms).Perm (Members.keys ns))
    (members : ∀ key v w, Members.get? ms key = some v → Members.get? ns key = some w →
      Reordered v w) : Reordered (.object ms) (.object ns)

namespace Reordered

variable {v w x : Value}

theorem refl (v : Value) : Reordered v v := by
  match v with
  | .null => exact .null
  | .bool b => exact .bool b
  | .number n => exact .number n
  | .string s => exact .string s
  | .array xs =>
    refine .array rfl fun i v w hv hw => ?_
    obtain rfl := Option.some.inj (hv.symm.trans hw)
    have hlt := sizeOf_lt_of_mem_items (v := .array xs) rfl (List.mem_of_getElem? hv)
    exact refl v
  | .object ms =>
    refine .object (.refl _) fun key v w hv hw => ?_
    obtain rfl := Option.some.inj (hv.symm.trans hw)
    have hlt := sizeOf_lt_of_mem_members (v := .object ms) rfl (Members.mem_of_get? hv)
    exact refl v
termination_by sizeOf v
decreasing_by all_goals exact hlt

theorem symm (h : Reordered v w) : Reordered w v := by
  induction h with
  | null => exact .null
  | bool b => exact .bool b
  | number n => exact .number n
  | string s => exact .string s
  | array length _ ih => exact .array length.symm fun i v w hv hw => ih i w v hw hv
  | object names _ ih => exact .object names.symm fun key v w hv hw => ih key w v hw hv

theorem of_members {ms ns : Members} (names : ms.keys.Perm ns.keys)
    (members : ∀ m ∈ ms, ∀ n ∈ ns, m.1 = n.1 → Reordered m.2 n.2) :
    Reordered (.object ms) (.object ns) := by
  refine .object names fun key v w hv hw => ?_
  exact members _ (Members.mem_of_get? hv) _ (Members.mem_of_get? hw) rfl

theorem of_perm {ms ns : Members} (hn : ms.keys.Nodup) (h : ms.Perm ns) :
    Reordered (.object ms) (.object ns) := by
  refine .object (h.map _) fun key v w hv hw => ?_
  have hw' := Members.get?_of_mem hn (h.mem_iff.2 (Members.mem_of_get? hw))
  obtain rfl := Option.some.inj (hv.symm.trans hw')
  exact refl v

theorem distinct (h : Reordered v w) (hv : v.Distinct) : w.Distinct := by
  induction h with
  | null => exact .null
  | bool b => exact .bool b
  | number n => exact .number n
  | string s => exact .string s
  | @array xs ys length _ ih =>
    refine .array fun y hy => ?_
    obtain ⟨i, hi, rfl⟩ := List.mem_iff_getElem.1 hy
    have hx : xs[i]? = some xs[i] := List.getElem?_eq_getElem (length ▸ hi)
    exact ih i _ _ hx (List.getElem?_eq_getElem hi) (hv.of_mem_items rfl (List.getElem_mem _))
  | @object ms ns names _ ih =>
    have hnodup : (Members.keys ns).Nodup := names.nodup_iff.1 (hv.nodup_keys rfl)
    refine .object hnodup fun n hn => ?_
    have hkey : n.1 ∈ Members.keys ms := names.mem_iff.2 (List.mem_map_of_mem hn)
    obtain ⟨u, hu⟩ := Members.exists_get?_of_mem_keys hkey
    exact ih n.1 u n.2 hu (Members.get?_of_mem hnodup hn) (hv.of_get? (v := .object ms) hu)

theorem get? {key : String} (h : Reordered v w) (hx : v.get? key = some x) :
    ∃ y, w.get? key = some y ∧ Reordered x y := by
  cases h with
  | @object ms ns names members =>
    have hkey : key ∈ Members.keys ns := names.mem_iff.1 (Members.mem_keys_of_get? hx)
    obtain ⟨y, hy⟩ := Members.exists_get?_of_mem_keys hkey
    exact ⟨y, hy, members key x y hx hy⟩
  | _ => cases hx

theorem getElem? {xs : List Value} (h : Reordered v w) (hv : v.items? = some xs) {i : Nat}
    (hx : xs[i]? = some x) : ∃ ys, w.items? = some ys ∧ ∃ y, ys[i]? = some y ∧ Reordered x y := by
  cases h with
  | @array _ ys length items =>
    obtain rfl := Option.some.inj hv
    have hi : i < ys.length := by
      have hlt := (List.getElem?_eq_some_iff.1 hx).1
      omega
    have hy : ys[i]? = some ys[i] := List.getElem?_eq_getElem hi
    exact ⟨ys, rfl, ys[i], hy, items i x _ hx hy⟩
  | _ => cases hv

theorem child? {segment : String} (h : Reordered v w) (hx : v.child? segment = some x) :
    ∃ y, w.child? segment = some y ∧ Reordered x y := by
  cases v with
  | object ms =>
    obtain ⟨y, hy, hxy⟩ := h.get? hx
    exact ⟨y, child?_of_get? hy, hxy⟩
  | array xs =>
    obtain ⟨⟨u, i⟩, hu, hseg⟩ := List.exists_of_findSome?_eq_some hx
    obtain ⟨rfl, rfl⟩ : Nat.repr i = segment ∧ u = x := by simpa using hseg
    rw [List.mem_zipIdx_iff_getElem?] at hu
    obtain ⟨ys, hys, y, hy, hxy⟩ := h.getElem? rfl hu
    exact ⟨y, child?_repr hys (List.mem_zipIdx_iff_getElem?.2 hy), hxy⟩
  | _ => cases hx

theorem descend? {path : List String} (h : Reordered v w) (hx : v.descend? path = some x) :
    ∃ y, w.descend? path = some y ∧ Reordered x y := by
  induction path generalizing v w with
  | nil => cases hx; exact ⟨w, rfl, h⟩
  | cons key path ih =>
    obtain ⟨u, hu, hx⟩ := Option.bind_eq_some_iff.1 hx
    obtain ⟨t, ht, hut⟩ := h.get? hu
    obtain ⟨y, hy, hxy⟩ := ih hut hx
    exact ⟨y, Option.bind_eq_some_iff.2 ⟨t, ht, hy⟩, hxy⟩

theorem at? {segments : List String} (h : Reordered v w) (hx : v.at? segments = some x) :
    ∃ y, w.at? segments = some y ∧ Reordered x y := by
  induction segments generalizing v w with
  | nil => cases hx; exact ⟨w, rfl, h⟩
  | cons segment segments ih =>
    obtain ⟨u, hu, hx⟩ := Option.bind_eq_some_iff.1 hx
    obtain ⟨t, ht, hut⟩ := h.child? hu
    obtain ⟨y, hy, hxy⟩ := ih hut hx
    exact ⟨y, Option.bind_eq_some_iff.2 ⟨t, ht, hy⟩, hxy⟩

theorem isBool_eq (h : Reordered v w) : v.isBool = w.isBool := by
  cases h <;> rfl

theorem string?_eq (h : Reordered v w) : v.string? = w.string? := by
  cases h <;> rfl

theorem isSome_members? (h : Reordered v w) : v.members?.isSome = w.members?.isSome := by
  cases h <;> rfl

theorem isSome_items? (h : Reordered v w) : v.items?.isSome = w.items?.isSome := by
  cases h <;> rfl

theorem get?_eq_none {key : String} (h : Reordered v w) (hx : v.get? key = none) :
    w.get? key = none := by
  cases hy : w.get? key with
  | none => rfl
  | some y =>
    obtain ⟨x, hx', -⟩ := h.symm.get? hy
    rw [hx] at hx'
    cases hx'

theorem isSome_get? (h : Reordered v w) (key : String) :
    (v.get? key).isSome = (w.get? key).isSome := by
  cases hx : v.get? key with
  | some x =>
    obtain ⟨y, hy, -⟩ := h.get? hx
    rw [hy]
    rfl
  | none => rw [h.get?_eq_none hx]

theorem keys_members?_perm (h : Reordered v w) :
    (v.members?.getD []).keys.Perm (w.members?.getD []).keys := by
  cases h with
  | object names _ => exact names
  | _ => exact .refl _

theorem keys_get?_perm (h : Reordered v w) (key : String) :
    ((v.get? key >>= Value.members?).getD []).keys.Perm
      ((w.get? key >>= Value.members?).getD []).keys := by
  cases hx : v.get? key with
  | some x =>
    obtain ⟨y, hy, hxy⟩ := h.get? hx
    rw [hy]
    exact hxy.keys_members?_perm
  | none => rw [h.get?_eq_none hx]

theorem isSome_get?_bind {A : Type} (h : Reordered v w) (key : String) {f : Value → Option A}
    (hf : ∀ x y, Reordered x y → (f x).isSome = (f y).isSome) :
    (v.get? key >>= f).isSome = (w.get? key >>= f).isSome := by
  cases hx : v.get? key with
  | some x =>
    obtain ⟨y, hy, hxy⟩ := h.get? hx
    rw [hy]
    exact hf x y hxy
  | none => rw [h.get?_eq_none hx]

theorem stringAt?_eq (h : Reordered v w) (key : String) :
    v.stringAt? key = w.stringAt? key := by
  rw [stringAt?, stringAt?]
  cases hx : v.get? key with
  | some x =>
    obtain ⟨y, hy, hxy⟩ := h.get? hx
    rw [hy]
    exact hxy.string?_eq
  | none => rw [h.get?_eq_none hx]

end Reordered

end Value

end ApiLint.Json
