import ApiLint.Proofs.Walk.Machine
import Mathlib.Data.List.Perm.Subperm

/-!
# Runs

A walk comes to an end on every document. In every state of it, the members that were entered are
members of the document, marked, and entered once. When it ends without a failure no reference waits
and every member was entered.
-/

namespace ApiLint.Walk

open Json Outcome

variable {K S P : Type} {g : Grammar K S P} {root : Value}

namespace Grammar

def Task.Fits (g : Grammar K S P) (root : Value) : Task S → Prop
  | .list holder _ => root.descend? g.holder = some holder
  | .offer m => m ∈ g.members root
  | _ => True

/-- What was entered is marked, and it was entered once. -/
structure Inv (g : Grammar K S P) (root : Value) (c : Machine K S) : Prop where
  nodup : (c.calls.map Member.key).Nodup
  expanded : c.progress.expanded = c.calls.map Member.key
  mem_members : ∀ m ∈ c.calls, m ∈ g.members root
  fits : ∀ task ∈ c.tasks, Task.Fits g root task

namespace Inv

variable {c : Machine K S}

theorem start : g.Inv root .start where
  nodup := List.nodup_nil
  expanded := rfl
  mem_members := List.forall_mem_nil _
  fits := by simp [Machine.start, Task.Fits]

theorem fail (h : g.Inv root c) (e : ShapeError) : g.Inv root (c.fail e) :=
  { h with fits := List.forall_mem_nil _ }

theorem first (h : g.Inv root c) {tasks : List (Task S)}
    (ht : ∀ task ∈ tasks, Task.Fits g root task) : g.Inv root (c.first tasks) :=
  { h with fits := List.forall_mem_append.2 ⟨ht, h.fits⟩ }

theorem record (h : g.Inv root c) (r : Except ShapeError (Trail K S)) :
    g.Inv root (c.record r) := by
  cases r with
  | ok t => exact ⟨h.nodup, h.expanded, h.mem_members, h.fits⟩
  | error e => exact h.fail e

theorem call (h : g.Inv root c) {m : Member S} (hm : m ∈ g.members root)
    (hn : m.key ∉ c.progress.expanded) : g.Inv root (c.call m) where
  nodup := List.nodup_cons.2 ⟨h.expanded ▸ hn, h.nodup⟩
  expanded := congrArg (m.key :: ·) h.expanded
  mem_members := List.forall_mem_cons.2 ⟨hm, h.mem_members⟩
  fits := h.fits

theorem length_calls_le (h : g.Inv root c) : c.calls.length ≤ (g.memberNames root).length := by
  have hsub : c.calls.map Member.key ⊆ g.memberNames root := by
    rw [memberNames_eq]
    exact List.map_subset _ h.mem_members
  have hle := (List.Nodup.subperm h.nodup hsub).length_le
  rwa [List.length_map] at hle

variable [DecidableEq S]

theorem perform (h : g.Inv root c) {task : Task S} (ht : Task.Fits g root task) :
    g.Inv root (g.perform root c task) := by
  cases task with
  | top => exact h.record _
  | paths => exact h.record _
  | follow =>
    simp only [Grammar.perform]
    split
    case h_1 => exact h
    case h_2 s reference waiting hp =>
      have hpopped : g.Inv root
          { c with progress := ⟨c.progress.visits, waiting, c.progress.expanded⟩ } :=
        ⟨h.nodup, h.expanded, h.mem_members, h.fits⟩
      split
      case h_1 => exact hpopped.first (by simp [Task.Fits])
      case h_2 m hm =>
        have hmem : m ∈ g.members root := (mem_members_of_target? hm).2
        exact hpopped.first (by simp [Task.Fits, hmem])
  | sections =>
    simp only [Grammar.perform]
    split
    case h_1 => exact h
    case h_2 holder hh =>
      split
      case isTrue => exact h.first (by simp [Task.Fits, hh])
      case isFalse => exact h.fail _
  | list holder s =>
    simp only [Grammar.perform]
    split
    case h_1 ms hs =>
      refine h.first fun task hmem => ?_
      obtain ⟨m, hm, rfl⟩ := List.mem_map.1 hmem
      rw [((sectionMembers_eq_ok_iff ht).1 hs).2] at hm
      exact List.mem_flatMap.2 ⟨s, g.mem_sections s, hm⟩
    case h_2 => exact h.fail _
  | offer m =>
    simp only [Grammar.perform]
    split
    case isTrue => exact h
    case isFalse hn => exact (h.call ht hn).record _

theorem step (h : g.Inv root c) : g.Inv root (g.step root c) := by
  unfold Grammar.step
  split
  case h_1 => exact h
  case h_2 task rest htasks =>
    have hfits := h.fits
    rw [htasks] at hfits
    obtain ⟨htask, hrest⟩ := List.forall_mem_cons.1 hfits
    have hpopped : g.Inv root { c with tasks := rest } := { h with fits := hrest }
    exact hpopped.perform htask

end Inv

variable [DecidableEq S]

theorem inv_after (g : Grammar K S P) (root : Value) (n : Nat) : g.Inv root (g.after root n) := by
  induction n with
  | zero => exact .start
  | succ n ih =>
    rw [after, Function.iterate_succ_apply']
    exact ih.step

theorem step_of_halted {c : Machine K S} (h : c.Halted) : g.step root c = c := by
  unfold step
  rw [h]

theorem after_eq_of_halted {m n : Nat} (hm : (g.after root m).Halted) (hmn : m ≤ n) :
    g.after root n = g.after root m := by
  obtain ⟨k, rfl⟩ := Nat.exists_eq_add_of_le' hmn
  rw [after, Function.iterate_add_apply]
  exact Function.iterate_fixed (step_of_halted hm) k

theorem after_eq_after {m n : Nat} (hm : (g.after root m).Halted)
    (hn : (g.after root n).Halted) : g.after root m = g.after root n := by
  rcases Nat.le_total m n with h | h
  · exact (after_eq_of_halted hm h).symm
  · exact after_eq_of_halted hn h

theorem exists_end (g : Grammar K S P) (root : Value) :
    ∃ n, (g.after root n).Shows (g.final root) [] := by
  obtain ⟨_, ⟨n, rfl⟩, hd⟩ := yields_final g root []
  exact ⟨n, hd⟩

theorem outcome_eq {c : Machine K S} (h : c.Shows (g.final root) []) :
    c.outcome = g.walk root := by
  rw [walk_eq]
  cases hf : g.final root with
  | ok q =>
    rw [hf] at h
    obtain ⟨rfl, -, hfailure⟩ := h
    rw [Machine.outcome, hfailure]
    rfl
  | error e =>
    rw [hf] at h
    obtain ⟨-, hfailure⟩ := h
    rw [Machine.outcome, hfailure]
    rfl

theorem final_of_halted {n : Nat} (hn : (g.after root n).Halted)
    (hf : (g.after root n).failure = none) : g.final root = .ok (g.after root n).progress := by
  obtain ⟨m, hm⟩ := exists_end g root
  rw [after_eq_after hm.halted hn] at hm
  cases hfinal : g.final root with
  | ok q =>
    rw [hfinal] at hm
    rw [hm.1]
  | error e =>
    rw [hfinal] at hm
    have hfailure := hm.2
    rw [hf] at hfailure
    cases hfailure

/-- What is said of every run through a document. -/
structure RunsThrough (g : Grammar K S P) (root : Value) : Prop where
  /-- The run comes to an end, with the outcome of the walk. -/
  ends : ∃ n, (g.after root n).Halted ∧ (g.after root n).outcome = g.walk root
  once : ∀ n, ((g.after root n).calls.map Member.key).Nodup
  mem_members : ∀ n, ∀ m ∈ (g.after root n).calls, m ∈ g.members root
  bounded : ∀ n, (g.after root n).calls.length ≤ (g.memberNames root).length
  pending : ∀ n, (g.after root n).Halted → (g.after root n).failure = none →
    (g.after root n).progress.pending = []
  every : ∀ n, (g.after root n).Halted → (g.after root n).failure = none →
    ∀ name ∈ g.memberNames root, ((g.after root n).calls.map Member.key).count name = 1

theorem runsThrough (g : Grammar K S P) (root : Value) : g.RunsThrough root where
  ends := by
    obtain ⟨n, hn⟩ := exists_end g root
    exact ⟨n, hn.halted, outcome_eq hn⟩
  once n := (inv_after g root n).nodup
  mem_members n := (inv_after g root n).mem_members
  bounded n := (inv_after g root n).length_calls_le
  pending n hn hf := by
    obtain ⟨_, _, _, -, -, -, -, -, hpending⟩ := final_entered (final_of_halted hn hf)
    exact hpending
  every n hn hf name hname := by
    obtain ⟨_, _, ms, -, -, -, hms, hall, -⟩ := final_entered (final_of_halted hn hf)
    have hinv := inv_after g root n
    rw [memberNames_eq] at hname
    obtain ⟨m, hm, rfl⟩ := List.mem_map.1 hname
    have hmem := hms.mem_expanded.2 (.inl (hall m hm))
    rw [hinv.expanded] at hmem
    exact List.count_eq_one_of_mem hinv.nodup hmem

end Grammar

end ApiLint.Walk
