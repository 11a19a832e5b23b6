import ApiLint.Proofs.Walk.Descent
import ApiLint.Proofs.Walk.Members

/-!
# Entering members

Whatever a walk does after the paths, it does by entering members one after the other: each is a
member of the document that was not entered before, its trail is put at the end of the visits, and
its name is marked. This holds of the gate, and so of both ways that lead to it, the queue of
references and the pass over the sections.
-/

namespace ApiLint.Walk

open Json Outcome

variable {K S P : Type} {g : Grammar K S P} {root : Value}

namespace Grammar

def memberVisits (g : Grammar K S P) (m : Member S) : List (Visit K) :=
  (g.found (.one (g.member m.group)) m.location m.node).visits

def memberReferences (g : Grammar K S P) (m : Member S) : List (S × String) :=
  (g.found (.one (g.member m.group)) m.location m.node).references

def Walkable (g : Grammar K S P) (m : Member S) : Prop :=
  ∃ t, g.trail (.one (g.member m.group)) m.location m.node = .ok t

theorem memberVisits_eq {m : Member S} {t : Trail K S}
    (h : g.trail (.one (g.member m.group)) m.location m.node = .ok t) :
    g.memberVisits m = t.visits := by
  rw [memberVisits, found_eq h]

/-- From `p`, the members `ms` were entered in turn, which made it `q`. -/
structure Entered (g : Grammar K S P) (root : Value) (p : Progress K S) (ms : List (Member S))
    (q : Progress K S) : Prop where
  visits : q.visits = p.visits ++ ms.flatMap g.memberVisits
  expanded : q.expanded = (ms.map Member.key).reverse ++ p.expanded
  fresh : ∀ m ∈ ms, m.key ∉ p.expanded
  nodup : (ms.map Member.key).Nodup
  mem_members : ∀ m ∈ ms, m ∈ g.members root
  walkable : ∀ m ∈ ms, g.Walkable m

namespace Entered

variable {p q r : Progress K S} {ms ns : List (Member S)}

theorem nil (hv : q.visits = p.visits) (he : q.expanded = p.expanded) : g.Entered root p [] q where
  visits := by simpa using hv
  expanded := by simpa using he
  fresh := List.forall_mem_nil _
  nodup := List.nodup_nil
  mem_members := List.forall_mem_nil _
  walkable := List.forall_mem_nil _

theorem append (h : g.Entered root p ms q) (h' : g.Entered root q ns r) :
    g.Entered root p (ms ++ ns) r where
  visits := by rw [h'.visits, h.visits, List.flatMap_append, List.append_assoc]
  expanded := by
    rw [h'.expanded, h.expanded, List.map_append, List.reverse_append, List.append_assoc]
  fresh := by
    intro m hm
    rcases List.mem_append.1 hm with hm | hm
    · exact h.fresh m hm
    · intro hp
      refine h'.fresh m hm ?_
      rw [h.expanded]
      exact List.mem_append_right _ hp
  nodup := by
    rw [List.map_append]
    refine h.nodup.append h'.nodup ?_
    intro key hm hn
    obtain ⟨n, hmem, rfl⟩ := List.mem_map.1 hn
    refine h'.fresh n hmem ?_
    rw [h.expanded]
    exact List.mem_append_left _ (List.mem_reverse.2 hm)
  mem_members := by
    intro m hm
    exact (List.mem_append.1 hm).elim (h.mem_members m) (h'.mem_members m)
  walkable := by
    intro m hm
    exact (List.mem_append.1 hm).elim (h.walkable m) (h'.walkable m)

theorem of_pending {pending : List (S × String)}
    (h : g.Entered root ⟨p.visits, pending, p.expanded⟩ ms q) : g.Entered root p ms q :=
  ⟨h.visits, h.expanded, h.fresh, h.nodup, h.mem_members, h.walkable⟩

theorem mem_expanded (h : g.Entered root p ms q) {key : S × String} :
    key ∈ q.expanded ↔ key ∈ ms.map Member.key ∨ key ∈ p.expanded := by
  rw [h.expanded, List.mem_append, List.mem_reverse]

end Entered

/-- The members that the references lead to, and on from there. -/
inductive Reached (g : Grammar K S P) (root : Value) (references : List (S × String)) :
    Member S → Prop where
  | start {s : S} {reference : String} {m : Member S} :
    (s, reference) ∈ references → g.target? root s reference = some m → Reached g root references m
  | step {n m : Member S} {s : S} {reference : String} :
    Reached g root references n → (s, reference) ∈ g.memberReferences n →
    g.target? root s reference = some m → Reached g root references m

namespace Reached

variable {rs rs' : List (S × String)} {m : Member S}

theorem trans (h : g.Reached root rs m) (hrs : ∀ s reference n, (s, reference) ∈ rs →
    g.target? root s reference = some n → g.Reached root rs' n) : g.Reached root rs' m := by
  induction h with
  | start hr ht => exact hrs _ _ _ hr ht
  | step _ hr ht ih => exact .step ih hr ht

theorem mono (h : g.Reached root rs m) (hrs : ∀ r ∈ rs, r ∈ rs') : g.Reached root rs' m :=
  h.trans fun _ _ _ hr ht => .start (hrs _ hr) ht

end Reached

/-- No reference waits any more: the members `ms` are reached from those that waited, and there is
none that they lead to and that is not expanded. -/
structure Exhausts (g : Grammar K S P) (root : Value) (p : Progress K S) (ms : List (Member S))
    (q : Progress K S) : Prop where
  pending : q.pending = []
  reached : ∀ m ∈ ms, g.Reached root p.pending m
  followed : ∀ s reference, (s, reference) ∈ p.pending ++ ms.flatMap g.memberReferences →
    ∀ m, g.target? root s reference = some m → m.key ∈ q.expanded

namespace Exhausts

variable {p q r : Progress K S} {ms ns : List (Member S)} {s : S} {reference : String}
  {rest : List (S × String)} {m : Member S}

theorem nil (hp : p.pending = []) : g.Exhausts root p [] p where
  pending := hp
  reached := List.forall_mem_nil _
  followed := by simp [hp]

theorem skip (hp : p.pending = (s, reference) :: rest) (ht : g.target? root s reference = none)
    (h : g.Exhausts root ⟨p.visits, rest, p.expanded⟩ ms q) : g.Exhausts root p ms q where
  pending := h.pending
  reached := by
    intro m hm
    refine (h.reached m hm).mono fun r hr => ?_
    rw [hp]
    exact List.mem_cons_of_mem _ hr
  followed := by
    intro s' reference' hr m hm
    rw [hp, List.cons_append, List.mem_cons] at hr
    rcases hr with hr | hr
    · cases hr
      rw [ht] at hm
      cases hm
    · exact h.followed s' reference' hr m hm

theorem follow (hp : p.pending = (s, reference) :: rest) (ht : g.target? root s reference = some m)
    (hns : ns.Sublist [m]) (hr : r.pending = rest ++ ns.flatMap g.memberReferences)
    (hm : m.key ∈ q.expanded) (h : g.Exhausts root r ms q) : g.Exhausts root p (ns ++ ms) q where
  pending := h.pending
  reached := by
    have hfirst : g.Reached root p.pending m := .start (by rw [hp]; exact List.mem_cons_self) ht
    have hentered : ∀ n ∈ ns, n = m := fun n hn => List.mem_singleton.1 (hns.subset hn)
    intro n hn
    rcases List.mem_append.1 hn with hn | hn
    · rw [hentered n hn]
      exact hfirst
    · refine (h.reached n hn).trans fun s' reference' n hmem ht' => ?_
      rw [hr] at hmem
      rcases List.mem_append.1 hmem with hmem | hmem
      · exact .start (by rw [hp]; exact List.mem_cons_of_mem _ hmem) ht'
      · obtain ⟨o, ho, hmem⟩ := List.mem_flatMap.1 hmem
        rw [hentered o ho] at hmem
        exact .step hfirst hmem ht'
  followed := by
    intro s' reference' hmem n hn
    rw [hp, List.cons_append, List.mem_cons] at hmem
    rcases hmem with hmem | hmem
    · cases hmem
      obtain rfl := Option.some.inj (ht.symm.trans hn)
      exact hm
    · refine h.followed s' reference' ?_ n hn
      rw [hr, List.append_assoc, ← List.flatMap_append]
      exact hmem

end Exhausts

variable [DecidableEq S]

theorem enter_of_mem {p : Progress K S} {m : Member S} (h : m.key ∈ p.expanded) :
    g.enter p m = .ok p :=
  if_pos h

theorem enter_of_not_mem {p : Progress K S} {m : Member S} (h : m.key ∉ p.expanded) :
    g.enter p m = (g.trail (.one (g.member m.group)) m.location m.node).map fun t =>
      ⟨p.visits ++ t.visits, p.pending ++ t.references, m.key :: p.expanded⟩ :=
  if_neg h

theorem enter_entered {p q : Progress K S} {m : Member S} (hm : m ∈ g.members root)
    (h : g.enter p m = .ok q) : ∃ ms, g.Entered root p ms q ∧ ms.Sublist [m] ∧
      q.pending = p.pending ++ ms.flatMap g.memberReferences ∧ m.key ∈ q.expanded := by
  by_cases hmem : m.key ∈ p.expanded
  · rw [enter_of_mem hmem] at h
    cases h
    exact ⟨[], .nil rfl rfl, List.nil_sublist _, by simp, hmem⟩
  · rw [enter_of_not_mem hmem, map_eq_ok_iff] at h
    obtain ⟨t, ht, rfl⟩ := h
    refine ⟨[m], ⟨?_, rfl, ?_, List.nodup_singleton _, ?_, ?_⟩, .refl _, ?_, List.mem_cons_self⟩
    · simp [memberVisits_eq ht]
    · simpa using hmem
    · simpa using hm
    · simpa using ⟨t, ht⟩
    · simp [memberReferences, found_eq ht]

theorem exists_enter {m : Member S} (hw : g.Walkable m) (p : Progress K S) :
    ∃ q, g.enter p m = .ok q := by
  by_cases hmem : m.key ∈ p.expanded
  · exact ⟨p, enter_of_mem hmem⟩
  · obtain ⟨t, ht⟩ := hw
    rw [enter_of_not_mem hmem, ht]
    exact ⟨_, rfl⟩

theorem foldlM_enter_entered {ms : List (Member S)} (hms : ∀ m ∈ ms, m ∈ g.members root)
    {p q : Progress K S} (h : ms.foldlM g.enter p = .ok q) :
    ∃ ns, g.Entered root p ns q ∧ ns.Sublist ms ∧ ∀ m ∈ ms, m.key ∈ q.expanded := by
  induction ms generalizing p with
  | nil => cases h; exact ⟨[], .nil rfl rfl, List.nil_sublist _, List.forall_mem_nil _⟩
  | cons m ms ih =>
    rw [List.foldlM_cons, bind_eq_ok_iff] at h
    obtain ⟨r, he, h⟩ := h
    obtain ⟨hm, hms⟩ := List.forall_mem_cons.1 hms
    obtain ⟨ns, hn, hone, -, hmem⟩ := enter_entered hm he
    obtain ⟨os, ho, hsub, hrest⟩ := ih hms h
    exact ⟨ns ++ os, hn.append ho, hone.append hsub,
      List.forall_mem_cons.2 ⟨ho.mem_expanded.2 (.inr hmem), hrest⟩⟩

theorem exists_foldlM_enter {ms : List (Member S)} (hms : ∀ m ∈ ms, g.Walkable m)
    (p : Progress K S) : ∃ q, ms.foldlM g.enter p = .ok q := by
  induction ms generalizing p with
  | nil => exact ⟨p, rfl⟩
  | cons m ms ih =>
    obtain ⟨hm, hms⟩ := List.forall_mem_cons.1 hms
    obtain ⟨r, hr⟩ := exists_enter hm p
    obtain ⟨q, hq⟩ := ih hms r
    exact ⟨q, by rw [List.foldlM_cons]; exact bind_eq_ok_iff.2 ⟨r, hr, hq⟩⟩

theorem drain_nil {p : Progress K S} (hp : p.pending = []) : g.drain root p = .ok p := by
  rw [drain]
  split
  case h_1 => rfl
  case h_2 h => rw [hp] at h; cases h

theorem drain_cons {p : Progress K S} {s : S} {reference : String} {rest : List (S × String)}
    (hp : p.pending = (s, reference) :: rest) :
    g.drain root p = match g.target? root s reference with
      | none => g.drain root ⟨p.visits, rest, p.expanded⟩
      | some m => g.enter ⟨p.visits, rest, p.expanded⟩ m >>= g.drain root := by
  rw [drain]
  split
  case h_1 h => rw [hp] at h; cases h
  case h_2 h =>
    rw [hp] at h
    cases h
    split
    case h_1 ht => rw [ht]
    case h_2 m ht =>
      rw [ht]
      change _ = g.enter _ m >>= g.drain root
      split
      case h_1 e he => rw [he]; rfl
      case h_2 q he => rw [he]; rfl

theorem drain_entered {p q : Progress K S} (h : g.drain root p = .ok q) :
    ∃ ms, g.Entered root p ms q ∧ g.Exhausts root p ms q := by
  -- The queue may grow at each step, so the induction is on the calls of `drain`.
  fun_induction drain g root p with
  | case1 p hp => cases h; exact ⟨[], .nil rfl rfl, .nil hp⟩
  | case2 p s reference rest hp ht ih =>
    obtain ⟨ms, hms, hq⟩ := ih h
    exact ⟨ms, hms.of_pending, hq.skip hp ht⟩
  | case3 => cases h
  | case4 p s reference rest hp m ht r he ih =>
    obtain ⟨ns, hns, hone, hr, hm⟩ := enter_entered (mem_members_of_target? ht).2 he
    obtain ⟨ms, hms, hq⟩ := ih h
    exact ⟨ns ++ ms, (hns.append hms).of_pending,
      hq.follow hp ht hone hr (hms.mem_expanded.2 (.inr hm))⟩

theorem exists_drain (hall : ∀ m ∈ g.members root, g.Walkable m) (p : Progress K S) :
    ∃ q, g.drain root p = .ok q := by
  fun_induction drain g root p with
  | case1 p => exact ⟨p, rfl⟩
  | case2 _ _ _ _ _ _ ih => exact ih
  | case3 p s reference rest hp m ht e he =>
    obtain ⟨r, hr⟩ :=
      exists_enter (hall m (mem_members_of_target? ht).2) ⟨p.visits, rest, p.expanded⟩
    rw [he] at hr
    cases hr
  | case4 _ _ _ _ _ _ _ _ _ ih => exact ih

theorem foldlM_sections_entered {holder : Value} (hh : root.descend? g.holder = some holder)
    {ss : List S} {p q : Progress K S}
    (h : ss.foldlM (fun p s => g.sectionMembers holder s >>= (·.foldlM g.enter p)) p = .ok q) :
    (∀ s ∈ ss, ∀ v, holder.get? (g.key s) = some v → Shape.object.fits v) ∧
    ∃ ms, g.Entered root p ms q ∧ ms.Sublist (ss.flatMap (g.membersOf root)) ∧
      ∀ s ∈ ss, ∀ m ∈ g.membersOf root s, m.key ∈ q.expanded := by
  induction ss generalizing p with
  | nil =>
    cases h
    exact ⟨List.forall_mem_nil _, [], .nil rfl rfl, List.nil_sublist _, List.forall_mem_nil _⟩
  | cons s ss ih =>
    simp only [List.foldlM_cons, bind_eq_ok_iff] at h
    obtain ⟨r, ⟨ms, hs, hf⟩, h⟩ := h
    obtain ⟨hfit, rfl⟩ := (sectionMembers_eq_ok_iff hh).1 hs
    have hmem : ∀ m ∈ g.membersOf root s, m ∈ g.members root := by
      intro m hm
      exact List.mem_flatMap.2 ⟨s, g.mem_sections s, hm⟩
    obtain ⟨ns, hn, hsub, hdone⟩ := foldlM_enter_entered hmem hf
    obtain ⟨hfits, os, ho, hsubs, hrest⟩ := ih h
    refine ⟨List.forall_mem_cons.2 ⟨hfit, hfits⟩, ns ++ os, hn.append ho, hsub.append hsubs, ?_⟩
    exact List.forall_mem_cons.2 ⟨fun m hm => ho.mem_expanded.2 (.inr (hdone m hm)), hrest⟩

theorem expandSections_entered {p q : Progress K S} (h : g.expandSections root p = .ok q) :
    g.SectionsFit root ∧ ∃ ms, g.Entered root p ms q ∧ ms.Sublist (g.members root) ∧
      ∀ m ∈ g.members root, m.key ∈ q.expanded := by
  unfold expandSections at h
  split at h
  case h_1 hh =>
    cases h
    refine ⟨fun holder hs => ?_, [], .nil rfl rfl, List.nil_sublist _, fun m hm => ?_⟩
    · rw [hh] at hs; cases hs
    · rw [mem_members_iff, membersOf_of_no_holder hh] at hm
      cases hm
  case h_2 holder hh =>
    split at h
    case isFalse => cases h
    case isTrue hfit =>
      obtain ⟨hfits, ms, hms, hsub, hdone⟩ := foldlM_sections_entered hh h
      refine ⟨fun v hv => ?_, ms, hms, hsub, fun m hm => ?_⟩
      · rw [hh] at hv
        cases hv
        exact ⟨hfit, fun s => hfits s (g.mem_sections s)⟩
      · exact hdone m.group (g.mem_sections _) m (mem_members_iff.1 hm)

theorem exists_expandSections (hfit : g.SectionsFit root)
    (hall : ∀ m ∈ g.members root, g.Walkable m) (p : Progress K S) :
    ∃ q, g.expandSections root p = .ok q := by
  unfold expandSections
  split
  case h_1 => exact ⟨p, rfl⟩
  case h_2 holder hh =>
    obtain ⟨hobject, hfits⟩ := hfit holder hh
    rw [if_pos hobject]
    generalize g.sections = ss
    induction ss generalizing p with
    | nil => exact ⟨p, rfl⟩
    | cons s ss ih =>
      have hs := (sectionMembers_eq_ok_iff hh).2 ⟨hfits s, rfl⟩
      have hmem : ∀ m ∈ g.membersOf root s, g.Walkable m := by
        intro m hm
        exact hall m (List.mem_flatMap.2 ⟨s, g.mem_sections s, hm⟩)
      obtain ⟨r, hr⟩ := exists_foldlM_enter hmem p
      obtain ⟨q, hq⟩ := ih r
      refine ⟨q, ?_⟩
      simp only [List.foldlM_cons, bind_eq_ok_iff]
      exact ⟨r, ⟨_, hs, hr⟩, hq⟩

def begun (top paths : Trail K S) : Progress K S :=
  ⟨(top.append paths).visits, (top.append paths).references, []⟩

def final (g : Grammar K S P) (root : Value) : Except ShapeError (Progress K S) := do
  let top ← g.trail (.one g.root) .root root
  let paths ← g.pathsTrail root
  let reached ← g.drain root (begun top paths)
  let expanded ← g.expandSections root reached
  g.drain root expanded

theorem walk_eq (g : Grammar K S P) (root : Value) :
    g.walk root = (g.final root).map Progress.visits := by
  change g.walk root = Progress.visits <$> g.final root
  simp only [walk, final, begun, map_bind, bind_pure_comp]

/-- First the members are entered that references lead to, and then all others, in the order of the
sections. After that no reference leads to a member that was not entered. -/
theorem final_phases {q : Progress K S} (h : g.final root = .ok q) :
    ∃ top paths p first rest, g.trail (.one g.root) .root root = .ok top ∧
      g.pathsTrail root = .ok paths ∧ g.SectionsFit root ∧
      g.Entered root (begun top paths) first p ∧ g.Exhausts root (begun top paths) first p ∧
      g.Entered root p rest q ∧ rest.Sublist (g.members root) ∧
      (∀ m ∈ g.members root, m.key ∈ q.expanded) ∧ q.pending = [] := by
  simp only [final, bind_eq_ok_iff] at h
  obtain ⟨top, ht, paths, hp, p, hr, expanded, hx, hq⟩ := h
  obtain ⟨first, hfirst, hexhausts⟩ := drain_entered hr
  obtain ⟨hfit, rest, hrest, hsub, hall⟩ := expandSections_entered hx
  obtain ⟨os, hos, hlast⟩ := drain_entered hq
  have hnone : os = [] := by
    refine List.eq_nil_iff_forall_not_mem.2 fun m hm => ?_
    exact hos.fresh m hm (hall m (hos.mem_members m hm))
  subst hnone
  refine ⟨top, paths, p, first, rest, ht, hp, hfit, hfirst, hexhausts, ?_, hsub, ?_, hlast.pending⟩
  · simpa using hrest.append hos
  · exact fun m hm => hos.mem_expanded.2 (.inr (hall m hm))

theorem final_entered {q : Progress K S} (h : g.final root = .ok q) :
    ∃ top paths ms, g.trail (.one g.root) .root root = .ok top ∧ g.pathsTrail root = .ok paths ∧
      g.SectionsFit root ∧ g.Entered root (begun top paths) ms q ∧
      (∀ m ∈ g.members root, m.key ∈ ms.map Member.key) ∧ q.pending = [] := by
  obtain ⟨top, paths, p, first, rest, ht, hp, hfit, hfirst, -, hrest, -, hall, hpending⟩ :=
    final_phases h
  have hms := hfirst.append hrest
  refine ⟨top, paths, first ++ rest, ht, hp, hfit, hms, fun m hm => ?_, hpending⟩
  exact (hms.mem_expanded.1 (hall m hm)).resolve_right List.not_mem_nil

theorem walk_entered {vs : List (Visit K)} (h : g.walk root = .ok vs) :
    ∃ top paths ms q, g.trail (.one g.root) .root root = .ok top ∧ g.pathsTrail root = .ok paths ∧
      g.SectionsFit root ∧ g.Entered root (begun top paths) ms q ∧ q.visits = vs ∧
      ∀ m ∈ g.members root, m.key ∈ ms.map Member.key := by
  rw [walk_eq, map_eq_ok_iff] at h
  obtain ⟨q, hq, rfl⟩ := h
  obtain ⟨top, paths, ms, ht, hp, hfit, hms, hall, -⟩ := final_entered hq
  exact ⟨top, paths, ms, q, ht, hp, hfit, hms, rfl, hall⟩

end Grammar

end ApiLint.Walk
