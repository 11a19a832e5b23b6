import ApiLint.Proofs.Document.Ignored
import ApiLint.Proofs.Json.Reordering

/-!
# Documents up to the order of members

A reordered document has the same dialect, and what is ignored can be taken out of it just as well:
what remains of both is reordered.
-/

namespace ApiLint

open Json

namespace Json

theorem Members.keys_filter (keep : String → Bool) (ms : Members) :
    keys (ms.filter fun m => keep m.1) = ms.keys.filter keep := by
  simp [keys, List.filter_map, Function.comp_def]

theorem Members.keys_map_at (key : String) (f : Value → Value) (ms : Members) :
    keys (ms.map fun m => if m.1 = key then (m.1, f m.2) else m) = ms.keys := by
  rw [keys, keys, List.map_map]
  refine List.map_congr_left fun m _ => ?_
  by_cases hm : m.1 = key <;> simp [hm]

namespace Value

variable {v w : Value}

theorem Reordered.without (h : Reordered v w) (container names : List String) :
    Reordered (v.without container names) (w.without container names) := by
  induction container generalizing v w with
  | nil =>
    cases h with
    | @object ms ns hkeys hmembers =>
      refine .object ?_ fun key x y hx hy => ?_
      · have hfilter := hkeys.filter fun key => !names.contains key
        rwa [← Members.keys_filter, ← Members.keys_filter] at hfilter
      · rw [Ignore.removeNames, Members.get?_filter fun key => !names.contains key] at hx hy
        by_cases hkeep : (!names.contains key) = true
        · rw [if_pos hkeep] at hx hy
          exact hmembers key x y hx hy
        · rw [if_neg hkeep] at hx
          cases hx
    | array length items => exact .array length items
    | _ => exact .refl _
  | cons key path ih =>
    cases h with
    | @object ms ns hkeys hmembers =>
      refine .object ?_ fun other x y hx hy => ?_
      · rwa [Members.keys_map_at, Members.keys_map_at]
      · rw [Members.get?_map_at key (modifyMembers _ path)] at hx hy
        by_cases ho : other = key
        · rw [if_pos ho] at hx hy
          obtain ⟨t, ht, rfl⟩ := Option.map_eq_some_iff.1 hx
          obtain ⟨u, hu, rfl⟩ := Option.map_eq_some_iff.1 hy
          exact ih (hmembers other t u ht hu)
        · rw [if_neg ho] at hx hy
          exact hmembers other x y hx hy
    | array length items => exact .array length items
    | _ => exact .refl _

end Value

end Json

variable {d d' : Value}

theorem Dialect.detect?_eq (h : d.Reordered d') : detect? d = detect? d' := by
  have hobject : ∀ key, hasObject d key = hasObject d' key := fun key =>
    h.isSome_get?_bind key fun _ _ hxy => hxy.isSome_members?
  simp only [detect?, hobject, h.stringAt?_eq]

namespace Ignore

theorem hasAny_eq (h : d.Reordered d') (container names : List String) :
    hasAny d container names = hasAny d' container names := by
  have hone : ∀ {d d' : Value}, d.Reordered d' → hasAny d container names = true →
      hasAny d' container names = true := by
    intro d d' h hany
    obtain ⟨name, hname, hsome⟩ := hasAny_iff.1 hany
    obtain ⟨x, hx⟩ := Option.isSome_iff_exists.1 hsome
    obtain ⟨y, hy, -⟩ := h.descend? hx
    exact hasAny_iff.2 ⟨name, hname, by rw [hy]; rfl⟩
  exact Bool.eq_iff_iff.2 ⟨hone h, hone h.symm⟩

theorem reordered_withoutAll (h : d.Reordered d') (ls : List (List String × List String)) :
    (withoutAll ls d).Reordered (withoutAll ls d') := by
  induction ls generalizing d d' with
  | nil => exact h
  | cons l ls ih => exact ih (h.without l.1 l.2)

theorem reordered_filter (i : Ignore) (dialect : Dialect) (h : d.Reordered d') :
    (i.filter dialect d).Reordered (i.filter dialect d') := by
  unfold filter filter?
  simp only [hasAny_eq h]
  split
  case isTrue => exact reordered_withoutAll h (i.lists dialect)
  case isFalse => exact h

end Ignore

end ApiLint
