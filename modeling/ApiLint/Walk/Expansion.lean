import ApiLint.Walk.Trail

/-!
# Walking a document

References wait in a queue, and the member that one resolves to is walked at its own place, once. A
document is walked in this order: the objects at the top, the paths, the members that references
lead to, and then all other members of the sections. The queue grows while it is emptied; what
becomes less is the number of members that are not yet expanded.
-/

namespace ApiLint.Walk

open Json

variable {K S P : Type}

structure Member (S : Type) where
  group : S
  name : String
  location : Location
  node : Value

structure Progress (K S : Type) where
  visits : List (Visit K)
  pending : List (S × String)
  expanded : List (S × String)

namespace Grammar

def sectionMembers (g : Grammar K S P) (holder : Value) (s : S) :
    Except ShapeError (List (Member S)) :=
  match holder.get? (g.key s) with
  | none => .ok []
  | some v =>
    match v.members? with
    | some ms => .ok (ms.map fun m => ⟨s, m.1, ⟨g.container s ++ [m.1]⟩, m.2⟩)
    | none => .error ⟨⟨g.container s⟩, .object⟩

def target? (g : Grammar K S P) (root : Value) (s : S) (reference : String) : Option (Member S) :=
  match Reference.resolve root (g.container s) reference with
  | .internal name location node => some ⟨s, name, location, node⟩
  | _ => none

def memberNames (g : Grammar K S P) (root : Value) : List (S × String) :=
  g.sections.flatMap fun s =>
    match root.descend? (g.container s) >>= Value.members? with
    | some ms => ms.map fun m => (s, m.1)
    | none => []

theorem mem_memberNames_of_target? {g : Grammar K S P} {root : Value} {s : S} {reference : String}
    {m : Member S} (h : g.target? root s reference = some m) :
    (m.group, m.name) ∈ g.memberNames root := by
  unfold target? at h
  split at h
  case h_2 => cases h
  case h_1 name location node hr =>
    cases h
    obtain ⟨-, holder, hh, hn⟩ := Reference.resolve_eq_internal hr
    obtain ⟨ms, hms, hn⟩ := Option.bind_eq_some_iff.1 hn
    refine List.mem_flatMap.2 ⟨s, g.mem_sections s, ?_⟩
    have hm : (root.descend? (g.container s) >>= Value.members?) = some ms := by
      rw [hh]; exact hms
    simp only [hm]
    exact List.mem_map.2 ⟨_, Members.mem_of_get? hn, rfl⟩

variable [DecidableEq S]

def enter (g : Grammar K S P) (p : Progress K S) (m : Member S) :
    Except ShapeError (Progress K S) :=
  if (m.group, m.name) ∈ p.expanded then .ok p
  else (g.trail (.one (g.member m.group)) m.location m.node).map fun t =>
    ⟨p.visits ++ t.visits, p.pending ++ t.references, (m.group, m.name) :: p.expanded⟩

def unexpanded (g : Grammar K S P) (root : Value) (expanded : List (S × String)) : Nat :=
  ((g.memberNames root).filter (· ∉ expanded)).length

theorem unexpanded_cons_lt {g : Grammar K S P} {root : Value} {expanded : List (S × String)}
    {m : S × String} (hm : m ∈ g.memberNames root) (hn : m ∉ expanded) :
    g.unexpanded root (m :: expanded) < g.unexpanded root expanded := by
  have hf : (g.memberNames root).filter (· ∉ m :: expanded) =
      ((g.memberNames root).filter (· ∉ expanded)).filter (· ≠ m) := by
    rw [List.filter_filter]
    congr 1
    funext x
    simp
  unfold unexpanded
  rw [hf]
  refine List.length_filter_lt_length_iff_exists.2 ⟨m, ?_, by simp⟩
  exact List.mem_filter.2 ⟨hm, by simpa using hn⟩

theorem enter_eq_ok {g : Grammar K S P} {p q : Progress K S} {m : Member S}
    (h : g.enter p m = .ok q) :
    q = p ∨ (m.group, m.name) ∉ p.expanded ∧ q.expanded = (m.group, m.name) :: p.expanded := by
  unfold enter at h
  split at h
  case isTrue => cases h; exact .inl rfl
  case isFalse hn =>
    cases ht : g.trail (.one (g.member m.group)) m.location m.node with
    | error e => rw [ht] at h; cases h
    | ok t => rw [ht] at h; cases h; exact .inr ⟨hn, rfl⟩

set_option linter.unusedVariables false in
def drain (g : Grammar K S P) (root : Value) (p : Progress K S) :
    Except ShapeError (Progress K S) :=
  match hp : p.pending with
  | [] => .ok p
  | (s, reference) :: rest =>
    match ht : g.target? root s reference with
    | none => g.drain root ⟨p.visits, rest, p.expanded⟩
    | some m =>
      match he : g.enter ⟨p.visits, rest, p.expanded⟩ m with
      | .error e => .error e
      | .ok q => g.drain root q
termination_by (g.unexpanded root p.expanded, p.pending.length)
decreasing_by
  · exact Prod.Lex.right _ (by simp [hp])
  · rcases enter_eq_ok he with rfl | ⟨hn, hq⟩
    · exact Prod.Lex.right _ (by simp [hp])
    · rw [hq]
      exact Prod.Lex.left _ _ (unexpanded_cons_lt (mem_memberNames_of_target? ht) hn)

def expandSections (g : Grammar K S P) (root : Value) (p : Progress K S) :
    Except ShapeError (Progress K S) :=
  match root.descend? g.holder with
  | none => .ok p
  | some holder =>
    if Shape.object.fits holder then
      g.sections.foldlM (fun p s => g.sectionMembers holder s >>= (·.foldlM g.enter p)) p
    else .error ⟨⟨g.holder⟩, .object⟩

def pathsTrail (g : Grammar K S P) (root : Value) : Except ShapeError (Trail K S) :=
  match root.get? "paths" with
  | some paths => g.trail (.one g.paths) (Location.root.child "paths") paths
  | none => .ok .empty

def walk (g : Grammar K S P) (root : Value) : Except ShapeError (List (Visit K)) := do
  let top ← g.trail (.one g.root) .root root
  let paths ← g.pathsTrail root
  let start := top.append paths
  let reached ← g.drain root ⟨start.visits, start.references, []⟩
  let expanded ← g.expandSections root reached
  return (← g.drain root expanded).visits

end Grammar

end ApiLint.Walk
