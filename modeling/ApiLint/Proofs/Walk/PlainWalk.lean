import ApiLint.Proofs.Walk.Entering

/-!
# The plain walk

A walk without a queue: the objects at the top, the paths, and then all members of the sections as
they stand in the document. References are recorded and not followed. The walk through a document
accepts the same documents and makes the same visits, in another order.
-/

namespace ApiLint.Walk

open Json Outcome

variable {K S P : Type} {g : Grammar K S P} {root : Value}

namespace Grammar

def plainSection (g : Grammar K S P) (holder : Value) (s : S) :
    Except ShapeError (List (Visit K)) := do
  let members ← g.sectionMembers holder s
  let trails ← members.mapM fun m => g.trail (.one (g.member m.group)) m.location m.node
  return trails.flatMap Trail.visits

def plainSections (g : Grammar K S P) (root : Value) : Except ShapeError (List (Visit K)) :=
  match root.descend? g.holder with
  | none => .ok []
  | some holder =>
    if Shape.object.fits holder then (g.sections.mapM (g.plainSection holder)).map List.flatten
    else .error ⟨⟨g.holder⟩, .object⟩

def plainWalk (g : Grammar K S P) (root : Value) : Except ShapeError (List (Visit K)) := do
  let top ← g.trail (.one g.root) .root root
  let paths ← g.pathsTrail root
  let members ← g.plainSections root
  return top.visits ++ paths.visits ++ members

/-- Every node of the document that is looked at has the shape that its position requires. -/
structure Accepts (g : Grammar K S P) (root : Value) : Prop where
  top : ∃ t, g.trail (.one g.root) .root root = .ok t
  paths : ∃ t, g.pathsTrail root = .ok t
  sections : g.SectionsFit root
  members : ∀ m ∈ g.members root, g.Walkable m

theorem plainSection_eq_ok_iff {holder : Value} (hh : root.descend? g.holder = some holder) {s : S}
    {vs : List (Visit K)} : g.plainSection holder s = .ok vs ↔
      (∀ v, holder.get? (g.key s) = some v → Shape.object.fits v) ∧
      (∀ m ∈ g.membersOf root s, g.Walkable m) ∧
      vs = (g.membersOf root s).flatMap g.memberVisits := by
  have htrail : ∀ (m : Member S) t, g.trail (.one (g.member m.group)) m.location m.node = .ok t →
      g.found (.one (g.member m.group)) m.location m.node = t := fun _ _ => found_eq
  simp only [plainSection, bind_eq_ok_iff, pure_eq_ok_iff, sectionMembers_eq_ok_iff hh,
    mapM_eq_ok_iff htrail]
  constructor
  · rintro ⟨_, ⟨hfit, rfl⟩, _, ⟨hall, rfl⟩, rfl⟩
    exact ⟨hfit, fun m hm => ⟨_, hall m hm⟩, List.flatMap_map ..⟩
  · rintro ⟨hfit, hall, rfl⟩
    refine ⟨_, ⟨hfit, rfl⟩, _, ⟨fun m hm => ?_, rfl⟩, List.flatMap_map ..⟩
    obtain ⟨t, ht⟩ := hall m hm
    rw [ht, found_eq ht]

theorem plainSections_eq_ok_iff {vs : List (Visit K)} : g.plainSections root = .ok vs ↔
    g.SectionsFit root ∧ (∀ m ∈ g.members root, g.Walkable m) ∧
    vs = (g.members root).flatMap g.memberVisits := by
  unfold plainSections
  split
  case h_1 hh =>
    have hfit : g.SectionsFit root := by
      intro holder hs
      rw [hh] at hs
      cases hs
    have hnone : g.members root = [] := by simp [members, membersOf_of_no_holder hh]
    rw [hnone]
    constructor
    · intro h
      cases h
      exact ⟨hfit, List.forall_mem_nil _, rfl⟩
    · rintro ⟨-, -, rfl⟩
      rfl
  case h_2 holder hh =>
    have hvalue : ∀ s vs, g.plainSection holder s = .ok vs →
        (g.membersOf root s).flatMap g.memberVisits = vs := by
      intro s vs h
      exact ((plainSection_eq_ok_iff hh).1 h).2.2.symm
    have hflat : (g.sections.map fun s => (g.membersOf root s).flatMap g.memberVisits).flatten =
        (g.members root).flatMap g.memberVisits := by
      rw [members, List.flatMap_assoc, List.flatMap_def]
    split
    case isTrue hfit =>
      simp only [map_eq_ok_iff, mapM_eq_ok_iff hvalue, plainSection_eq_ok_iff hh, and_true]
      constructor
      · rintro ⟨_, ⟨hall, rfl⟩, rfl⟩
        refine ⟨?_, fun m hm => ?_, hflat⟩
        · intro v hv
          rw [hh] at hv
          cases hv
          exact ⟨hfit, fun s => (hall s (g.mem_sections s)).1⟩
        · exact (hall m.group (g.mem_sections _)).2 m (mem_members_iff.1 hm)
      · rintro ⟨hfits, hall, rfl⟩
        refine ⟨_, ⟨fun s _ => ⟨(hfits holder hh).2 s, fun m hm => hall m ?_⟩, rfl⟩, hflat⟩
        exact List.mem_flatMap.2 ⟨s, g.mem_sections s, hm⟩
    case isFalse hfit =>
      constructor
      · intro h
        cases h
      · rintro ⟨hfits, -⟩
        exact absurd (hfits holder hh).1 hfit

theorem plainWalk_eq_ok_iff {vs : List (Visit K)} : g.plainWalk root = .ok vs ↔
    ∃ top paths, g.trail (.one g.root) .root root = .ok top ∧ g.pathsTrail root = .ok paths ∧
      g.SectionsFit root ∧ (∀ m ∈ g.members root, g.Walkable m) ∧
      vs = (top.append paths).visits ++ (g.members root).flatMap g.memberVisits := by
  simp only [plainWalk, bind_eq_ok_iff, pure_eq_ok_iff, plainSections_eq_ok_iff]
  constructor
  · rintro ⟨top, ht, paths, hp, _, ⟨hfit, hall, rfl⟩, rfl⟩
    exact ⟨top, paths, ht, hp, hfit, hall, rfl⟩
  · rintro ⟨top, paths, ht, hp, hfit, hall, rfl⟩
    exact ⟨top, ht, paths, hp, _, ⟨hfit, hall, rfl⟩, rfl⟩

theorem exists_plainWalk_iff : (∃ vs, g.plainWalk root = .ok vs) ↔ g.Accepts root := by
  simp only [plainWalk_eq_ok_iff]
  constructor
  · rintro ⟨_, top, paths, ht, hp, hfit, hall, -⟩
    exact ⟨⟨top, ht⟩, ⟨paths, hp⟩, hfit, hall⟩
  · rintro ⟨⟨top, ht⟩, ⟨paths, hp⟩, hfit, hall⟩
    exact ⟨_, top, paths, ht, hp, hfit, hall, rfl⟩

theorem Entered.perm_members (hs : g.sections.Nodup) (hd : root.Distinct) {p q : Progress K S}
    {ms : List (Member S)} (h : g.Entered root p ms q)
    (hall : ∀ m ∈ g.members root, m.key ∈ ms.map Member.key) : ms.Perm (g.members root) := by
  have hn := nodup_keys_members hs hd
  have hmem : ∀ m, m ∈ ms ↔ m ∈ g.members root := by
    intro m
    constructor
    · exact h.mem_members m
    · intro hm
      -- Some member was entered under the key of `m`, and no other has this key.
      obtain ⟨n, hn', hkey⟩ := List.mem_map.1 (hall m hm)
      obtain rfl := List.inj_on_of_nodup_map hn (h.mem_members n hn') hm hkey
      exact hn'
  exact (List.perm_ext_iff_of_nodup (.of_map _ h.nodup) (.of_map _ hn)).2 hmem

variable [DecidableEq S]

theorem exists_walk_iff (hs : g.sections.Nodup) (hd : root.Distinct) :
    (∃ vs, g.walk root = .ok vs) ↔ g.Accepts root := by
  constructor
  · rintro ⟨vs, h⟩
    obtain ⟨top, paths, ms, q, ht, hp, hfit, hms, -, hall⟩ := walk_entered h
    have hwalkable : ∀ m ∈ g.members root, g.Walkable m := by
      intro m hm
      have hentered : m ∈ ms := (hms.perm_members hs hd hall).mem_iff.2 hm
      exact hms.walkable m hentered
    exact ⟨⟨top, ht⟩, ⟨paths, hp⟩, hfit, hwalkable⟩
  · -- Both drains and the pass over the sections fail at members only, and none fails.
    rintro ⟨⟨top, ht⟩, ⟨paths, hp⟩, hfit, hall⟩
    obtain ⟨reached, hr⟩ := exists_drain hall (begun top paths)
    obtain ⟨expanded, hx⟩ := exists_expandSections hfit hall reached
    obtain ⟨q, hq⟩ := exists_drain hall expanded
    refine ⟨q.visits, ?_⟩
    simp only [walk, bind_eq_ok_iff, pure_eq_ok_iff]
    exact ⟨top, ht, paths, hp, reached, hr, expanded, hx, q, hq, rfl⟩

theorem walk_perm (hs : g.sections.Nodup) (hd : root.Distinct) {vs ws : List (Visit K)}
    (h : g.walk root = .ok vs) (h' : g.plainWalk root = .ok ws) : vs.Perm ws := by
  obtain ⟨top, paths, ms, q, ht, hp, -, hms, rfl, hall⟩ := walk_entered h
  obtain ⟨top', paths', ht', hp', -, -, rfl⟩ := plainWalk_eq_ok_iff.1 h'
  obtain rfl := Except.ok.inj (ht.symm.trans ht')
  obtain rfl := Except.ok.inj (hp.symm.trans hp')
  have hmembers : (ms.flatMap g.memberVisits).Perm ((g.members root).flatMap g.memberVisits) :=
    (hms.perm_members hs hd hall).flatMap_right _
  rw [hms.visits]
  exact hmembers.append_left _

end Grammar

end ApiLint.Walk
