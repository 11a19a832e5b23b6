import ApiLint.Proofs.Walk.PlainWalk

/-!
# Fidelity

The walk threads a location along with each node, from the root, the paths, and the members of the
sections. Every recorded location leads to its node. What a reference leads to is recorded at the
place of the member, wherever the reference stands.
-/

namespace ApiLint.Walk

open Json Outcome

variable {K S P : Type} {g : Grammar K S P} {root : Value}

namespace Grammar

/-- Every visit is to the node at its location, and the visits to the member that a reference leads
to are all there, in the container of the section and below the decoded name. -/
structure Faithful (g : Grammar K S P) (root : Value) (vs : List (Visit K)) : Prop where
  reached : ∀ w ∈ vs, root.at? w.location.segments = some w.node
  canonical : ∀ s reference m, g.target? root s reference = some m →
    m.location = ⟨g.container s ++ [m.name]⟩ ∧ root.at? m.location.segments = some m.node ∧
    ∃ t, g.trail (.one (g.member s)) m.location m.node = .ok t ∧
      ∀ w ∈ t.visits, w ∈ vs ∧ m.location.segments <+: w.location.segments

theorem at?_of_mem_top (hd : root.Distinct) {top : Trail K S}
    (h : g.trail (.one g.root) .root root = .ok top) :
    ∀ w ∈ top.visits, root.at? w.location.segments = some w.node :=
  at?_of_mem_visits h hd rfl

theorem at?_of_mem_paths (hd : root.Distinct) {paths : Trail K S}
    (h : g.pathsTrail root = .ok paths) :
    ∀ w ∈ paths.visits, root.at? w.location.segments = some w.node := by
  unfold pathsTrail at h
  split at h
  case h_1 v hv =>
    have hat : root.at? ["paths"] = some v :=
      Option.bind_eq_some_iff.2 ⟨v, Value.child?_of_get? hv, rfl⟩
    exact at?_of_mem_visits h (hd.of_get? hv) hat
  case h_2 => cases h; exact List.forall_mem_nil _

theorem Entered.at?_of_mem_memberVisits (hd : root.Distinct) {p q : Progress K S}
    {ms : List (Member S)} (h : g.Entered root p ms q) {m : Member S} (hm : m ∈ ms) :
    ∀ w ∈ g.memberVisits m, root.at? w.location.segments = some w.node := by
  have hmem := h.mem_members m hm
  obtain ⟨t, ht⟩ := h.walkable m hm
  rw [memberVisits_eq ht]
  exact at?_of_mem_visits ht (distinct_of_mem_members hd hmem) (at?_of_mem_members hd hmem)

variable [DecidableEq S]

theorem faithful_walk (hs : g.sections.Nodup) (hd : root.Distinct) {vs : List (Visit K)}
    (h : g.walk root = .ok vs) : g.Faithful root vs := by
  obtain ⟨top, paths, ms, q, ht, hp, -, hms, rfl, hall⟩ := walk_entered h
  rw [hms.visits]
  constructor
  case reached =>
    intro w hw
    rcases List.mem_append.1 hw with hw | hw
    · rcases List.mem_append.1 hw with hw | hw
      · exact at?_of_mem_top hd ht w hw
      · exact at?_of_mem_paths hd hp w hw
    · obtain ⟨m, hm, hw⟩ := List.mem_flatMap.1 hw
      exact hms.at?_of_mem_memberVisits hd hm w hw
  case canonical =>
    intro s reference m hm
    obtain ⟨rfl, hmem⟩ := mem_members_of_target? hm
    have hentered : m ∈ ms := (hms.perm_members hs hd hall).mem_iff.2 hmem
    obtain ⟨t, ht⟩ := hms.walkable m hentered
    refine ⟨location_of_mem_members hmem, at?_of_mem_members hd hmem, t, ht, ?_⟩
    intro w hw
    have hvisit : w ∈ ms.flatMap g.memberVisits := by
      refine List.mem_flatMap.2 ⟨m, hentered, ?_⟩
      rw [memberVisits_eq ht]
      exact hw
    exact ⟨List.mem_append_right _ hvisit, prefix_of_mem_visits ht w hw⟩

end Grammar

end ApiLint.Walk
