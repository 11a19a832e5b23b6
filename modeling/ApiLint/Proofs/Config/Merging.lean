import ApiLint.Config.Basic
import Mathlib.Data.List.Induction
import Mathlib.Data.List.Nodup

/-!
# Merging configurations

What one configuration says when it is put on top of another. Names are kept in the order in which
they are first mentioned, of two settings of a rule the upper one counts, and an ignore list is the
union of both. So a stack of configurations says what the list of them says, read once.
-/

namespace ApiLint

theorem eraseDups_of_nodup {xs : List String} (h : xs.Nodup) : xs.eraseDups = xs := by
  induction xs with
  | nil => rfl
  | cons x xs ih =>
    obtain ⟨hx, hxs⟩ := List.nodup_cons.1 h
    have hfilter : xs.filter (fun y => !y == x) = xs := by
      refine List.filter_eq_self.2 fun y hy => ?_
      have hne : y ≠ x := fun heq => hx (heq ▸ hy)
      simpa using hne
    rw [List.eraseDups_cons, hfilter, ih hxs]

theorem eraseDups_concat (xs : List String) (y : String) :
    (xs ++ [y]).eraseDups = if y ∈ xs then xs.eraseDups else xs.eraseDups ++ [y] := by
  rw [List.eraseDups_append]
  by_cases hy : y ∈ xs
  · simp [List.removeAll, hy]
  · simp [List.removeAll, hy, List.eraseDups_cons]

theorem eraseDups_append_eraseDups (xs ys : List String) :
    (xs ++ ys.eraseDups).eraseDups = (xs ++ ys).eraseDups := by
  induction ys using List.reverseRecOn with
  | nil => rfl
  | append_singleton ys y ih =>
    rw [eraseDups_concat ys y, ← List.append_assoc xs ys, eraseDups_concat (xs ++ ys) y]
    by_cases hy : y ∈ ys
    · simp [hy, ih]
    · rw [if_neg hy, ← List.append_assoc, eraseDups_concat]
      simp [ih]

namespace Ignore

theorem union_cons (xs : List String) (y : String) (ys : List String) :
    union xs (y :: ys) = union (if y ∈ xs then xs else xs ++ [y]) ys := by
  by_cases hy : y ∈ xs <;> simp [union, hy]

theorem mem_union {xs ys : List String} {x : String} : x ∈ union xs ys ↔ x ∈ xs ∨ x ∈ ys := by
  induction ys generalizing xs with
  | nil => simp [union]
  | cons y ys ih =>
    rw [union_cons, ih]
    by_cases hy : y ∈ xs
    · rw [if_pos hy, List.mem_cons]
      constructor
      · exact Or.imp_right .inr
      · rintro (hx | rfl | hx)
        · exact .inl hx
        · exact .inl hy
        · exact .inr hx
    · rw [if_neg hy, List.mem_append, List.mem_singleton, List.mem_cons, or_assoc]

theorem union_eraseDups (xs ys : List String) :
    union xs.eraseDups ys = (xs ++ ys).eraseDups := by
  induction ys generalizing xs with
  | nil => simp [union]
  | cons y ys ih =>
    have hstep : (if y ∈ xs.eraseDups then xs.eraseDups else xs.eraseDups ++ [y]) =
        (xs ++ [y]).eraseDups := by
      rw [eraseDups_concat]
      by_cases hy : y ∈ xs <;> simp [hy]
    rw [union_cons, hstep, ih, List.append_assoc, List.singleton_append]

theorem eraseDups_append_congr {xs xs' ys ys' : List String} (hx : xs.eraseDups = xs'.eraseDups)
    (hy : ys.eraseDups = ys'.eraseDups) : (xs ++ ys).eraseDups = (xs' ++ ys').eraseDups := by
  calc (xs ++ ys).eraseDups
      = (xs ++ ys'.eraseDups).eraseDups := by rw [← hy, eraseDups_append_eraseDups]
    _ = union xs.eraseDups ys' := by rw [eraseDups_append_eraseDups, union_eraseDups]
    _ = (xs' ++ ys').eraseDups := by rw [hx, union_eraseDups]

theorem nodup_union {xs : List String} (h : xs.Nodup) (ys : List String) :
    (union xs ys).Nodup := by
  induction ys generalizing xs with
  | nil => exact h
  | cons y ys ih =>
    rw [union_cons]
    by_cases hy : y ∈ xs
    · rw [if_pos hy]
      exact ih h
    · rw [if_neg hy]
      have hxy : (xs ++ [y]).Nodup := h.append (List.nodup_singleton y) (by simpa using hy)
      exact ih hxy

inductive Part where
  | definitions
  | paths
  | component (s : OpenApi.Section)

def names (i : Ignore) : Part → List String
  | .definitions => i.definitions
  | .paths => i.paths
  | .component s => i.components s

theorem names_merge (i j : Ignore) (part : Part) :
    (i.merge j).names part = union (i.names part) (j.names part) := by
  cases part <;> rfl

end Ignore

namespace RuleSet

theorem lookup_eq_none {name : String} {es : List (String × Setting)}
    (h : name ∉ es.map (·.1)) : es.lookup name = none := by
  refine List.lookup_eq_none_iff.2 fun e he => ?_
  have hne : name ≠ e.1 := fun heq => h (heq ▸ List.mem_map_of_mem he)
  simpa using hne

theorem names_set (rs : RuleSet) (name : String) (s : Setting) :
    (rs.set name s).names = if name ∈ rs.names then rs.names else rs.names ++ [name] :=
  names_setEntry name s rs.entries

theorem get?_set (rs : RuleSet) (name : String) (s : Setting) (other : String) :
    (rs.set name s).get? other = if other = name then some s else rs.get? other :=
  lookup_setEntry name other s rs.entries

theorem names_merge (rs other : RuleSet) :
    (rs.merge other).names = Ignore.union rs.names other.names := by
  obtain ⟨es⟩ := other
  simp only [merge, names]
  induction es generalizing rs with
  | nil => rfl
  | cons e es ih =>
    rw [List.foldl_cons, ih, List.map_cons, Ignore.union_cons]
    exact congrArg (Ignore.union · _) (names_set rs e.1 e.2)

theorem get?_merge (rs : RuleSet) {other : RuleSet} (h : other.names.Nodup) (name : String) :
    (rs.merge other).get? name = (other.get? name).or (rs.get? name) := by
  obtain ⟨es⟩ := other
  simp only [merge, names] at h ⊢
  induction es generalizing rs with
  | nil => rfl
  | cons e es ih =>
    obtain ⟨rule, s⟩ := e
    obtain ⟨hfresh, hes⟩ := List.nodup_cons.1 h
    rw [List.foldl_cons, ih (rs.set rule s) hes, get?_set]
    simp only [get?, lookup_cons_eq]
    by_cases hname : name = rule
    · subst hname
      simp [lookup_eq_none hfresh]
    · simp [hname]

theorem nodup_names_set {rs : RuleSet} (h : rs.names.Nodup) (name : String) (s : Setting) :
    (rs.set name s).names.Nodup := by
  have hunion := Ignore.nodup_union h [name]
  rwa [Ignore.union_cons, ← names_set rs name s] at hunion

theorem nodup_names_merge {rs : RuleSet} (h : rs.names.Nodup) (other : RuleSet) :
    (rs.merge other).names.Nodup := by
  rw [names_merge]
  exact Ignore.nodup_union h _

theorem ofList_eq_merge (es : List (String × Setting)) : ofList es = empty.merge ⟨es⟩ := rfl

end RuleSet

end ApiLint
