import ApiLint.Text.Pieces
import Mathlib

/-!
# Finding and replacing pieces

Where a character tells that two texts have the same pieces around it, and what replacing a piece
makes of a text, from its start on: the piece is found there and replaced, or the first character
stays.
-/

namespace ApiLint.Text

theorem stripStart?_eq_some_iff {before text after : List Char} :
    stripStart? before text = some after ↔ text = before ++ after := by
  induction before generalizing text with
  | nil => simp [stripStart?]
  | cons c before ih =>
    cases text with
    | nil => simp [stripStart?]
    | cons d text =>
      rw [stripStart?, List.cons_append, List.cons.injEq]
      split
      case isTrue hcd => rw [ih, hcd]; simp
      case isFalse hcd => simp [Ne.symm hcd]

theorem eq_of_prefix_append_cons {c : Char} {a b s t : List Char} (ha : c ∉ a) (hb : c ∉ b)
    (h : a ++ c :: s <+: b ++ c :: t) : a = b := by
  induction a generalizing b with
  | nil =>
    cases b with
    | nil => rfl
    | cons d b =>
      obtain rfl : c = d := (List.cons_prefix_cons.1 h).1
      simp at hb
  | cons d a ih =>
    cases b with
    | nil =>
      obtain rfl : d = c := (List.cons_prefix_cons.1 h).1
      simp at ha
    | cons e b =>
      obtain ⟨rfl, hrest⟩ := List.cons_prefix_cons.1 h
      rw [ih (fun hmem => ha (List.mem_cons_of_mem _ hmem))
        (fun hmem => hb (List.mem_cons_of_mem _ hmem)) hrest]

theorem eq_of_append_cons_eq {c : Char} {a b s t : List Char} (hs : c ∉ s) (ht : c ∉ t)
    (h : a ++ c :: s = b ++ c :: t) : s = t := by
  have hreverse : s.reverse ++ c :: a.reverse = t.reverse ++ c :: b.reverse := by
    simpa using congrArg List.reverse h
  have hprefix : s.reverse ++ c :: a.reverse <+: t.reverse ++ c :: b.reverse :=
    hreverse ▸ List.prefix_rfl
  exact List.reverse_injective (eq_of_prefix_append_cons (by simpa) (by simpa) hprefix)

variable {old new : List Char}

theorem replaceFrom_eq (old new : List Char) (skip : Nat) (s : List Char) :
    replaceFrom old new skip s = replace old new (s.drop skip) := by
  induction s generalizing skip with
  | nil => cases skip <;> rfl
  | cons c r ih =>
    cases skip with
    | zero => rfl
    | succ skip => exact ih skip

@[simp] theorem replace_nil (old new : List Char) : replace old new [] = [] := rfl

theorem replace_append_left (h : old ≠ []) (s : List Char) :
    replace old new (old ++ s) = new ++ replace old new s := by
  cases old with
  | nil => exact absurd rfl h
  | cons c r =>
    have hfound : (c :: r).isPrefixOf (c :: (r ++ s)) = true :=
      List.isPrefixOf_iff_prefix.2 (List.prefix_append (c :: r) s)
    rw [List.cons_append, replace, replaceFrom, if_pos hfound, replaceFrom_eq]
    simp

theorem replace_cons {c : Char} {r : List Char} (h : ¬ old <+: c :: r) :
    replace old new (c :: r) = c :: replace old new r := by
  have hfound : ¬ old.isPrefixOf (c :: r) = true := by rwa [List.isPrefixOf_iff_prefix]
  rw [replace, replaceFrom, if_neg hfound, replace]

theorem replace_cons_cases (h : old ≠ []) (new : List Char) (c : Char) (r : List Char) :
    (∃ s, c :: r = old ++ s ∧ replace old new (c :: r) = new ++ replace old new s) ∨
      replace old new (c :: r) = c :: replace old new r := by
  by_cases hfound : old <+: c :: r
  · obtain ⟨s, hs⟩ := hfound
    exact .inl ⟨s, hs.symm, by rw [← hs, replace_append_left h]⟩
  · exact .inr (replace_cons hfound)

theorem replace_of_not_infix {s : List Char} (h : ¬ old <:+: s) : replace old new s = s := by
  induction s with
  | nil => rfl
  | cons c r ih =>
    rw [List.infix_cons_iff, not_or] at h
    rw [replace_cons h.1, ih h.2]

theorem length_replace_le (h : new.length < old.length) (s : List Char) :
    (replace old new s).length ≤ s.length := by
  induction hn : s.length using Nat.strongRecOn generalizing s with
  | ind n ih =>
    cases s with
    | nil => simp
    | cons c r =>
      have hold : old ≠ [] := List.ne_nil_of_length_pos (Nat.zero_lt_of_lt h)
      obtain ⟨t, ht, hreplaced⟩ | hkept := replace_cons_cases hold new c r
      · have hlength := congrArg List.length ht
        rw [List.length_append, hn] at hlength
        have := ih t.length (by omega) t rfl
        rw [hreplaced, List.length_append]
        omega
      · have := ih r.length (by simp [← hn]) r rfl
        rw [hkept, List.length_cons]
        simp only [List.length_cons] at hn
        omega

theorem length_replace_lt (h : new.length < old.length) {s : List Char} (hs : old <:+: s) :
    (replace old new s).length < s.length := by
  have hold : old ≠ [] := List.ne_nil_of_length_pos (Nat.zero_lt_of_lt h)
  induction s with
  | nil => exact absurd (List.infix_nil.1 hs) hold
  | cons c r ih =>
    by_cases hfound : old <+: c :: r
    · obtain ⟨t, ht⟩ := hfound
      have hle := length_replace_le h t
      rw [← ht, replace_append_left hold, List.length_append, List.length_append]
      omega
    · have hrest : old <:+: r := (List.infix_cons_iff.1 hs).resolve_left hfound
      rw [replace_cons hfound]
      exact Nat.succ_lt_succ (ih hrest)

theorem replace_eq_self_iff (h : new.length < old.length) {s : List Char} :
    replace old new s = s ↔ ¬ old <:+: s := by
  refine ⟨fun heq hs => ?_, replace_of_not_infix⟩
  have hlt := length_replace_lt h hs
  rw [heq] at hlt
  exact Nat.lt_irrefl _ hlt

theorem prefix_of_prefix_append_cons {c : Char} {s r : List Char} (hc : c ∉ old)
    (h : old <+: s ++ c :: r) : old <+: s := by
  obtain ⟨t, ht⟩ := h
  obtain ⟨rest, rfl, -⟩ | ⟨rest, rfl, hrest⟩ := List.append_eq_append_iff.1 ht
  · exact List.prefix_append old rest
  · cases rest with
    | nil => exact (List.append_nil s).symm ▸ List.prefix_rfl
    | cons d rest =>
      obtain rfl : c = d := (List.cons.inj hrest).1
      simp at hc

theorem replace_append_cons {c : Char} (hc : c ∉ old) (hold : old ≠ []) (s r : List Char) :
    replace old new (s ++ c :: r) = replace old new s ++ c :: replace old new r := by
  induction hn : s.length using Nat.strongRecOn generalizing s with
  | ind n ih =>
    by_cases hfound : old <+: s
    · obtain ⟨t, rfl⟩ := hfound
      have hshorter : t.length < n := by
        have := List.length_pos_iff.2 hold
        rw [List.length_append] at hn
        omega
      rw [List.append_assoc, replace_append_left hold, replace_append_left hold,
        ih t.length hshorter t rfl, List.append_assoc]
    · have hnone : ¬ old <+: s ++ c :: r := fun h => hfound (prefix_of_prefix_append_cons hc h)
      cases s with
      | nil => exact replace_cons hnone
      | cons d s =>
        rw [List.cons_append] at hnone ⊢
        rw [replace_cons hnone, replace_cons hfound,
          ih s.length (by simp [← hn]) s rfl]
        rfl

end ApiLint.Text
