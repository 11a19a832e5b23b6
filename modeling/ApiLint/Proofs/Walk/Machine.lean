import ApiLint.Proofs.Walk.Entering
import Mathlib.Logic.Function.Iterate

/-!
# Walking step by step

The walk as a machine that does one task at a time: it records what stands at the top and below the
paths, follows the reference that has waited longest, lists a section, or offers a member to the
gate. Each task comes to what the walk does for it, so the machine comes to the outcome of the walk.
-/

namespace ApiLint.Walk

open Json Outcome

variable {K S P : Type}

inductive Task (S : Type) where
  | top
  | paths
  | follow
  | sections
  | list (holder : Value) (s : S)
  | offer (m : Member S)

/-- A walk between two steps. -/
structure Machine (K S : Type) where
  progress : Progress K S
  tasks : List (Task S)
  calls : List (Member S)
  failure : Option ShapeError

-- Named, so that the gate of `Grammar.perform` is decided by one instance.
local instance lawfulKey [DecidableEq S] : LawfulBEq (S × String) := inferInstance

def Progress.add (p : Progress K S) (t : Trail K S) : Progress K S :=
  ⟨p.visits ++ t.visits, p.pending ++ t.references, p.expanded⟩

namespace Machine

def start : Machine K S :=
  ⟨⟨[], [], []⟩, [.top, .paths, .follow, .sections, .follow], [], none⟩

def Halted (c : Machine K S) : Prop := c.tasks = []

def outcome (c : Machine K S) : Except ShapeError (List (Visit K)) :=
  match c.failure with
  | none => .ok c.progress.visits
  | some e => .error e

def fail (c : Machine K S) (e : ShapeError) : Machine K S :=
  { c with tasks := [], failure := some e }

def first (c : Machine K S) (tasks : List (Task S)) : Machine K S :=
  { c with tasks := tasks ++ c.tasks }

def call (c : Machine K S) (m : Member S) : Machine K S :=
  { c with
    progress := ⟨c.progress.visits, c.progress.pending, m.key :: c.progress.expanded⟩
    calls := m :: c.calls }

def record (c : Machine K S) : Except ShapeError (Trail K S) → Machine K S
  | .ok t => { c with progress := c.progress.add t }
  | .error e => c.fail e

/-- The machine has come to what `r` says, and `rest` is what remains. -/
def Shows (c : Machine K S) (r : Except ShapeError (Progress K S)) (rest : List (Task S)) : Prop :=
  match r with
  | .ok q => c.progress = q ∧ c.tasks = rest ∧ c.failure = none
  | .error e => c.tasks = [] ∧ c.failure = some e

theorem Shows.halted {c : Machine K S} {r : Except ShapeError (Progress K S)}
    (h : c.Shows r []) : c.Halted := by
  cases r with
  | ok q => exact h.2.1
  | error e => exact h.1

end Machine

namespace Grammar

variable [DecidableEq S]

def perform (g : Grammar K S P) (root : Value) (c : Machine K S) : Task S → Machine K S
  | .top => c.record (g.trail (.one g.root) .root root)
  | .paths => c.record (g.pathsTrail root)
  | .follow =>
    match c.progress.pending with
    | [] => c
    | (s, reference) :: waiting =>
      let popped := { c with progress := ⟨c.progress.visits, waiting, c.progress.expanded⟩ }
      match g.target? root s reference with
      | none => popped.first [.follow]
      | some m => popped.first [.offer m, .follow]
  | .sections =>
    match root.descend? g.holder with
    | none => c
    | some holder =>
      if Shape.object.fits holder then c.first (g.sections.map (.list holder))
      else c.fail ⟨⟨g.holder⟩, .object⟩
  | .list holder s =>
    match g.sectionMembers holder s with
    | .ok ms => c.first (ms.map .offer)
    | .error e => c.fail e
  | .offer m =>
    if m.key ∈ c.progress.expanded then c
    else (c.call m).record (g.trail (.one (g.member m.group)) m.location m.node)

def step (g : Grammar K S P) (root : Value) (c : Machine K S) : Machine K S :=
  match c.tasks with
  | [] => c
  | task :: rest => g.perform root { c with tasks := rest } task

def after (g : Grammar K S P) (root : Value) (n : Nat) : Machine K S :=
  (g.step root)^[n] .start

variable {g : Grammar K S P} {root : Value}

def Leads (g : Grammar K S P) (root : Value) (c d : Machine K S) : Prop :=
  ∃ n, (g.step root)^[n] c = d

theorem Leads.trans {c d e : Machine K S} (h : g.Leads root c d) (h' : g.Leads root d e) :
    g.Leads root c e := by
  obtain ⟨n, rfl⟩ := h
  obtain ⟨m, rfl⟩ := h'
  exact ⟨m + n, Function.iterate_add_apply ..⟩

/-- Doing the first tasks from `p` on comes to what `r` says. -/
def Yields (g : Grammar K S P) (root : Value) (p : Progress K S) (tasks : List (Task S))
    (r : Except ShapeError (Progress K S)) (rest : List (Task S)) : Prop :=
  ∀ calls, ∃ d, g.Leads root ⟨p, tasks, calls, none⟩ d ∧ d.Shows r rest

namespace Yields

variable {p q : Progress K S} {tasks tasks' rest : List (Task S)}
  {r : Except ShapeError (Progress K S)}

theorem done : g.Yields root p tasks (.ok p) tasks := by
  intro calls
  exact ⟨_, ⟨0, rfl⟩, rfl, rfl, rfl⟩

theorem step {task : Task S}
    (hs : ∀ calls, g.perform root ⟨p, tasks, calls, none⟩ task = ⟨q, tasks', calls, none⟩)
    (h : g.Yields root q tasks' r rest) : g.Yields root p (task :: tasks) r rest := by
  intro calls
  obtain ⟨d, hl, hd⟩ := h calls
  exact ⟨d, Leads.trans ⟨1, hs calls⟩ hl, hd⟩

theorem bind {f : Progress K S → Except ShapeError (Progress K S)}
    (h : g.Yields root p tasks r tasks')
    (hf : ∀ q, r = .ok q → g.Yields root q tasks' (f q) rest) :
    g.Yields root p tasks (r >>= f) rest := by
  intro calls
  obtain ⟨d, hl, hd⟩ := h calls
  cases r with
  | error e => exact ⟨d, hl, hd⟩
  | ok q =>
    obtain ⟨progress, tasks, calls, failure⟩ := d
    obtain ⟨rfl, rfl, rfl⟩ := hd
    obtain ⟨d', hl', hd'⟩ := hf _ rfl calls
    exact ⟨d', hl.trans hl', hd'⟩

theorem fail {task : Task S} {e : ShapeError} (hs : ∀ calls,
    g.perform root ⟨p, tasks, calls, none⟩ task = Machine.fail ⟨p, tasks, calls, none⟩ e) :
    g.Yields root p (task :: tasks) (.error e) rest := by
  intro calls
  exact ⟨_, ⟨1, hs calls⟩, rfl, rfl⟩

end Yields

variable {p : Progress K S} {rest : List (Task S)}

theorem yields_record {task : Task S} {r : Except ShapeError (Trail K S)} (hs : ∀ calls,
    g.perform root ⟨p, rest, calls, none⟩ task = Machine.record ⟨p, rest, calls, none⟩ r) :
    g.Yields root p (task :: rest) (p.add <$> r) rest := by
  cases r with
  | ok t => exact .step hs .done
  | error e => exact .fail hs

theorem yields_offer (m : Member S) :
    g.Yields root p (.offer m :: rest) (g.enter p m) rest := by
  intro calls
  refine ⟨_, ⟨1, rfl⟩, ?_⟩
  simp only [Function.iterate_one, step, perform]
  by_cases hm : m.key ∈ p.expanded
  · rw [if_pos hm, enter_of_mem hm]
    exact ⟨rfl, rfl, rfl⟩
  · rw [if_neg hm, enter_of_not_mem hm]
    cases g.trail (.one (g.member m.group)) m.location m.node with
    | ok t => exact ⟨rfl, rfl, rfl⟩
    | error e => exact ⟨rfl, rfl⟩

theorem yields_offers (ms : List (Member S)) :
    g.Yields root p (ms.map .offer ++ rest) (ms.foldlM g.enter p) rest := by
  induction ms generalizing p with
  | nil => exact .done
  | cons m ms ih =>
    rw [List.foldlM_cons]
    exact (yields_offer m).bind fun _ _ => ih

theorem yields_follow : g.Yields root p (.follow :: rest) (g.drain root p) rest := by
  fun_induction drain g root p with
  | case1 p hp =>
    refine .step (fun calls => ?_) .done
    simp only [perform, hp]
  | case2 p s reference waiting hp ht ih =>
    refine .step (fun calls => ?_) ih
    simp only [perform, hp, ht]
    rfl
  | case3 p s reference waiting hp m ht e he =>
    have hoffer : g.Yields root _ (.offer m :: .follow :: rest) (.error e) (.follow :: rest) :=
      he ▸ yields_offer m
    refine .step (fun calls => ?_) (hoffer.bind (f := g.drain root) fun _ h => by cases h)
    simp only [perform, hp, ht]
    rfl
  | case4 p s reference waiting hp m ht q he ih =>
    have hoffer : g.Yields root _ (.offer m :: .follow :: rest) (.ok q) (.follow :: rest) :=
      he ▸ yields_offer m
    refine .step (fun calls => ?_) (hoffer.bind (f := g.drain root) fun _ h => ?_)
    · simp only [perform, hp, ht]
      rfl
    · cases h
      exact ih

theorem yields_lists (holder : Value) (ss : List S) :
    g.Yields root p (ss.map (.list holder) ++ rest)
      (ss.foldlM (fun p s => g.sectionMembers holder s >>= (·.foldlM g.enter p)) p) rest := by
  induction ss generalizing p with
  | nil => exact .done
  | cons s ss ih =>
    rw [List.foldlM_cons]
    refine Yields.bind ?_ fun _ _ => ih
    cases hs : g.sectionMembers holder s with
    | ok ms =>
      refine .step (fun calls => ?_) (yields_offers ms)
      simp only [perform, hs]
      rfl
    | error e =>
      refine .fail fun calls => ?_
      simp only [perform, hs]

theorem yields_sections :
    g.Yields root p (.sections :: rest) (g.expandSections root p) rest := by
  unfold expandSections
  split
  case h_1 hh =>
    refine .step (fun calls => ?_) .done
    simp only [perform, hh]
  case h_2 holder hh =>
    split
    case isTrue hfit =>
      refine .step (fun calls => ?_) (yields_lists holder g.sections)
      simp only [perform, hh, hfit]
      rfl
    case isFalse hfit =>
      refine .fail fun calls => ?_
      simp only [perform, hh, hfit]
      rfl

theorem yields_final (g : Grammar K S P) (root : Value) :
    g.Yields root ⟨[], [], []⟩ [.top, .paths, .follow, .sections, .follow] (g.final root) [] := by
  have hfinal : g.final root = (do
      let begun ← Progress.add ⟨[], [], []⟩ <$> g.trail (.one g.root) .root root
      let begun ← begun.add <$> g.pathsTrail root
      let reached ← g.drain root begun
      let expanded ← g.expandSections root reached
      g.drain root expanded) := by
    simp only [bind_map_left]
    rfl
  rw [hfinal]
  refine (yields_record fun _ => rfl).bind fun p _ => ?_
  refine (yields_record fun _ => rfl).bind fun p _ => ?_
  refine yields_follow.bind fun p _ => ?_
  exact yields_sections.bind fun p _ => yields_follow

end Grammar

end ApiLint.Walk
