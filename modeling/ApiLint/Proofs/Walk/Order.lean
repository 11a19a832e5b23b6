import ApiLint.Lint
import ApiLint.Proofs.Walk.PlainWalk
import ApiLint.Proofs.Walk.Positions

/-!
# The order of a walk

A walk makes the visits at the top and in the paths, then those in the members that references lead
to from the paths, and then those in all other members, in the order of the sections and of the
document. The members that are reached do not depend on the order in which references wait: they
are the least set that holds what the references in the paths lead to and what those in its members
lead to. Each member is walked in one go, and a node before all nodes below it.
-/

namespace ApiLint.Walk

open Json Outcome Walked

variable {K S P : Type} {g : Grammar K S P} {root : Value}

namespace Grammar

def inside (m : Member S) (vs : List (Visit K)) : List (Visit K) :=
  vs.filter fun v => m.location.segments <+: v.location.segments

theorem inside_eq_nil {m : Member S} {vs : List (Visit K)}
    (h : ∀ v ∈ vs, ¬ m.location.segments <+: v.location.segments) : inside m vs = [] :=
  List.filter_eq_nil_iff.2 fun v hv => by simpa using h v hv

theorem inside_memberVisits (m : Member S) : inside m (g.memberVisits m) = g.memberVisits m :=
  List.filter_eq_self.2 fun _ hv => decide_eq_true (prefix_of_mem_memberVisits hv)

theorem inside_ofKind [DecidableEq K] (m : Member S) (vs : List (Visit K)) (kind : K) :
    inside m (ofKind vs kind) = ofKind (inside m vs) kind := by
  simp only [inside, ofKind, List.filter_filter, Bool.and_comm]

theorem inside_append (m : Member S) (vs ws : List (Visit K)) :
    inside m (vs ++ ws) = inside m vs ++ inside m ws :=
  List.filter_append ..

theorem Separated.inside_others (hg : g.Separated) {m : Member S} (hm : m ∈ g.members root)
    {ns : List (Member S)} (hns : ∀ n ∈ ns, n ∈ g.members root) (hkey : m.key ∉ ns.map Member.key) :
    inside m (ns.flatMap g.memberVisits) = [] := by
  refine inside_eq_nil fun v hv hpre => ?_
  obtain ⟨n, hn, hv⟩ := List.mem_flatMap.1 hv
  have heq := hg.key_eq (hns n hn) hm (prefix_of_mem_memberVisits hv) hpre
  exact hkey (List.mem_map.2 ⟨n, hn, heq⟩)

theorem Separated.inside_eq (hg : g.Separated) {top paths : Trail K S}
    (ht : g.trail (.one g.root) .root root = .ok top) (hp : g.pathsTrail root = .ok paths)
    {ms : List (Member S)} {q : Progress K S} (hms : g.Entered root (begun top paths) ms q)
    {m : Member S} (hm : m ∈ ms) :
    inside m q.visits = g.memberVisits m ∧ g.memberVisits m <:+: q.visits := by
  obtain ⟨as, bs, rfl⟩ := List.append_of_mem hm
  have hmem := hms.mem_members m hm
  have hkey : m.key ∉ as.map Member.key ++ bs.map Member.key := by
    have hkeys := hms.nodup
    rw [List.map_append, List.map_cons] at hkeys
    exact (List.nodup_middle.1 hkeys).notMem
  have has : inside m (as.flatMap g.memberVisits) = [] :=
    hg.inside_others hmem (fun n hn => hms.mem_members n (List.mem_append_left _ hn))
      fun h => hkey (List.mem_append_left _ h)
  have hbs : inside m (bs.flatMap g.memberVisits) = [] :=
    hg.inside_others hmem
      (fun n hn => hms.mem_members n (List.mem_append_right _ (List.mem_cons_of_mem _ hn)))
      fun h => hkey (List.mem_append_right _ h)
  have hbegun : inside m (begun top paths).visits = [] :=
    inside_eq_nil fun v hv => hg.not_prefix_begun ht hp hv hmem
  have hvisits : q.visits = ((begun top paths).visits ++ as.flatMap g.memberVisits) ++
      g.memberVisits m ++ bs.flatMap g.memberVisits := by
    rw [hms.visits]
    simp
  constructor
  · rw [hvisits]
    simp only [inside_append, hbegun, has, hbs, inside_memberVisits, List.nil_append,
      List.append_nil]
  · exact ⟨_, _, hvisits.symm⟩

theorem mem_iff_reached (hs : g.sections.Nodup) (hd : root.Distinct) {p q : Progress K S}
    {ms : List (Member S)} (he : p.expanded = []) (hms : g.Entered root p ms q)
    (hq : g.Exhausts root p ms q) {m : Member S} : m ∈ ms ↔ g.Reached root p.pending m := by
  have hentered : ∀ n ∈ g.members root, n.key ∈ q.expanded → n ∈ ms := by
    intro n hn hkey
    obtain ⟨o, ho, heq⟩ := List.mem_map.1 ((hms.mem_expanded.1 hkey).resolve_right (by simp [he]))
    obtain rfl := List.inj_on_of_nodup_map (nodup_keys_members hs hd) (hms.mem_members o ho) hn heq
    exact ho
  constructor
  · exact hq.reached m
  · -- Along the references that lead to a member: what they lead to from a member that was entered
    -- is expanded at the end, so it was entered as well.
    intro hm
    induction hm with
    | start hr ht =>
      exact hentered _ (mem_members_of_target? ht).2
        (hq.followed _ _ (List.mem_append_left _ hr) _ ht)
    | step _ hr ht ih =>
      have hmem := List.mem_append_right p.pending (List.mem_flatMap.2 ⟨_, ih, hr⟩)
      exact hentered _ (mem_members_of_target? ht).2 (hq.followed _ _ hmem _ ht)

variable [DecidableEq K]

/-- Under every kind come the visits at the top and in the paths, then those in the members `first`
that are reached from the paths, and then those in the other members. -/
structure Phases (g : Grammar K S P) (root : Value) (vs : List (Visit K)) (top paths : Trail K S)
    (first rest : List (Member S)) : Prop where
  top_eq : g.trail (.one g.root) .root root = .ok top
  paths_eq : g.pathsTrail root = .ok paths
  nodup_first : first.Nodup
  mem_first : ∀ m, m ∈ first ↔ g.Reached root paths.references m
  mem_rest : ∀ m, m ∈ rest ↔ m ∈ g.members root ∧ ¬ g.Reached root paths.references m
  rest_sublist : rest.Sublist (g.members root)
  outside : ∀ v ∈ top.visits ++ paths.visits, ∀ m ∈ g.members root,
    ¬ m.location.segments <+: v.location.segments
  split : ∀ kind, ofKind vs kind = ofKind (top.visits ++ paths.visits) kind ++
    (first.flatMap fun m => inside m (ofKind vs kind)) ++
    rest.flatMap fun m => inside m (ofKind vs kind)

structure InOrder (g : Grammar K S P) (root : Value) (vs : List (Visit K)) : Prop where
  phases : ∃ top paths first rest, g.Phases root vs top paths first rest
  contiguous : ∀ kind, ∀ m ∈ g.members root, inside m (ofKind vs kind) <:+: ofKind vs kind
  descending : ∀ kind, Descending (ofKind vs kind)

variable [DecidableEq S]

theorem exists_phases (hg : g.Separated) (hd : root.Distinct)
    (hquiet : ∀ top, g.trail (.one g.root) .root root = .ok top → top.references = [])
    {vs : List (Visit K)} (h : g.walk root = .ok vs) :
    ∃ top paths first rest, g.Phases root vs top paths first rest := by
  rw [walk_eq, map_eq_ok_iff] at h
  obtain ⟨q, hq, rfl⟩ := h
  obtain ⟨top, paths, p, first, rest, ht, hp, -, hfirst, hexhausts, hrest, hsub, hall, -⟩ :=
    final_phases hq
  have hms := hfirst.append hrest
  have hnodup : (first ++ rest).Nodup := .of_map _ hms.nodup
  have hpending : (begun top paths).pending = paths.references := by
    rw [begun, Trail.references_append, hquiet top ht, List.nil_append]
  have hreached : ∀ m, m ∈ first ↔ g.Reached root paths.references m := by
    intro m
    rw [← hpending]
    exact mem_iff_reached hg.sections hd rfl hfirst hexhausts
  have hperm := hms.perm_members hg.sections hd fun m hm =>
    (hms.mem_expanded.1 (hall m hm)).resolve_right List.not_mem_nil
  have hinside : ∀ (ms : List (Member S)) kind, (∀ m ∈ ms, m ∈ first ++ rest) →
      (ms.flatMap fun m => inside m (ofKind q.visits kind)) =
        ofKind (ms.flatMap g.memberVisits) kind := by
    intro ms kind hmem
    refine Eq.trans (List.flatMap_congr fun m hm => ?_) List.filter_flatMap.symm
    rw [inside_ofKind, (hg.inside_eq ht hp hms (hmem m hm)).1]
    rfl
  refine ⟨top, paths, first, rest, ht, hp, hnodup.of_append_left, hreached, ?rest, hsub, ?outside,
    ?split⟩
  case rest =>
    intro m
    have hdisjoint : m ∈ first → m ∉ rest := fun hf => List.disjoint_of_nodup_append hnodup hf
    rw [← hperm.mem_iff, ← hreached, List.mem_append]
    tauto
  case outside =>
    intro v hv m hm
    exact hg.not_prefix_begun ht hp hv hm
  case split =>
    intro kind
    rw [hinside first kind fun m hm => List.mem_append_left _ hm,
      hinside rest kind fun m hm => List.mem_append_right _ hm, hms.visits]
    simp [ofKind, begun]

theorem contiguous_walk (hg : g.Separated) (hd : root.Distinct) {vs : List (Visit K)}
    (h : g.walk root = .ok vs) {m : Member S} (hm : m ∈ g.members root) (kind : K) :
    inside m (ofKind vs kind) <:+: ofKind vs kind := by
  obtain ⟨top, paths, ms, q, ht, hp, -, hms, rfl, hall⟩ := walk_entered h
  have hentered : m ∈ ms := (hms.perm_members hg.sections hd hall).mem_iff.2 hm
  obtain ⟨heq, hinfix⟩ := hg.inside_eq ht hp hms hentered
  rw [inside_ofKind, heq]
  exact hinfix.filter _

theorem inOrder_walk (hg : g.Separated) (hd : root.Distinct)
    (hquiet : ∀ top, g.trail (.one g.root) .root root = .ok top → top.references = [])
    {vs : List (Visit K)} (h : g.walk root = .ok vs) : g.InOrder root vs where
  phases := exists_phases hg hd hquiet h
  contiguous kind _ hm := contiguous_walk hg hd h hm kind
  descending _ := (descending_walk hg hd h).sublist List.filter_sublist

end Grammar

end ApiLint.Walk
