import ApiLint.Lint
import ApiLint.Proofs.Json.Reordering
import ApiLint.Proofs.Walk.Fidelity
import ApiLint.Proofs.Walk.Separation

/-!
# Walking reordered documents

The walk of a reordered document takes its steps in another order from the first object on. But each
visit in one document has a match in the other, of the same kind, at the same location, and to the
same node reordered. That is shown from a node to its children, and since no location is visited
twice it makes the visits of both walks the same up to their order.
-/

namespace ApiLint.Walk

open Json Outcome Walked

variable {K S P : Type} {g : Grammar K S P} {root root' : Value}

structure Child.Matches (c d : Child P) : Prop where
  segment : d.segment = c.segment
  place : d.place = c.place
  node : c.node.Reordered d.node

theorem Branch.exists_child {v w : Value} (h : v.Reordered w) (hv : v.Distinct)
    {branch : Branch P} {c : Child P} (hc : c ∈ branch.children v) :
    ∃ d ∈ branch.children w, c.Matches d := by
  cases branch with
  | field key place =>
    cases hx : v.get? key with
    | none => simp [children, hx] at hc
    | some x =>
      obtain rfl : c = ⟨key, place, x⟩ := by simpa [children, hx] using hc
      obtain ⟨y, hy, hxy⟩ := h.get? hx
      exact ⟨⟨key, place, y⟩, by simp [children, hy], rfl, rfl, hxy⟩
  | members extensions place =>
    cases hms : v.members? with
    | none => simp [children, hms] at hc
    | some ms =>
      simp only [children, hms, List.mem_map] at hc
      obtain ⟨m, hm, rfl⟩ := hc
      obtain ⟨hmem, hkeep⟩ := List.mem_filter.1 hm
      have hx : v.get? m.1 = some m.2 :=
        Option.bind_eq_some_iff.2 ⟨ms, hms, Members.get?_of_mem (hv.nodup_keys hms) hmem⟩
      obtain ⟨y, hy, hxy⟩ := h.get? hx
      obtain ⟨ns, hns, hget⟩ := Option.bind_eq_some_iff.1 hy
      have hin : (m.1, y) ∈ ns.filter fun n => extensions || !isExtension n.1 :=
        List.mem_filter.2 ⟨Members.mem_of_get? hget, hkeep⟩
      refine ⟨⟨m.1, place, y⟩, ?_, rfl, rfl, hxy⟩
      simp only [children, hns]
      exact List.mem_map.2 ⟨_, hin, rfl⟩
  | elements place =>
    cases hxs : v.items? with
    | none => simp [children, hxs] at hc
    | some xs =>
      simp only [children, hxs, List.mem_map] at hc
      obtain ⟨⟨x, i⟩, hx, rfl⟩ := hc
      rw [List.mem_zipIdx_iff_getElem?] at hx
      obtain ⟨ys, hys, y, hy, hxy⟩ := h.getElem? hxs hx
      refine ⟨⟨Nat.repr i, place, y⟩, ?_, rfl, rfl, hxy⟩
      simp only [children, hys]
      exact List.mem_map.2 ⟨(y, i), List.mem_zipIdx_iff_getElem?.2 hy, rfl⟩

theorem Shape.fits_eq {v w : Value} (h : v.Reordered w) (shape : Shape) :
    shape.fits v = shape.fits w := by
  cases shape with
  | object => exact h.isSome_members?
  | array => exact h.isSome_items?

namespace Form

variable {v w : Value} (form : Form K S P)

theorem replacedBy?_eq (h : v.Reordered w) : form.replacedBy? v = form.replacedBy? w := by
  unfold replacedBy? Reference.ofNode?
  rw [h.stringAt?_eq]

theorem mismatch?_eq (h : v.Reordered w) : form.mismatch? v = form.mismatch? w := by
  unfold mismatch?
  simp only [Shape.fits_eq h]

end Form

structure Visit.Matches (v w : Visit K) : Prop where
  kind : w.kind = v.kind
  location : w.location = v.location
  node : v.node.Reordered w.node

def Covers (vs ws : List (Visit K)) : Prop := ∀ v ∈ vs, ∃ w ∈ ws, v.Matches w

theorem Covers.mono {vs ws ws' : List (Visit K)} (h : Covers vs ws) (hw : ∀ w ∈ ws, w ∈ ws') :
    Covers vs ws' := by
  intro v hv
  obtain ⟨w, hmem, hmatch⟩ := h v hv
  exact ⟨w, hw w hmem, hmatch⟩

theorem Covers.append {vs ws vs' ws' : List (Visit K)} (h : Covers vs ws) (h' : Covers vs' ws') :
    Covers (vs ++ vs') (ws ++ ws') :=
  List.forall_mem_append.2 ⟨h.mono fun _ hw => List.mem_append_left _ hw,
    h'.mono fun _ hw => List.mem_append_right _ hw⟩

theorem Covers.record {t u : Trail K S} (h : Covers t.visits u.visits) (kind : Option K)
    (l : Location) {v w : Value} (hvw : v.Reordered w) :
    Covers (t.record kind l v).visits (u.record kind l w).visits := by
  cases kind with
  | none => exact h
  | some k =>
    refine List.forall_mem_cons.2 ⟨⟨⟨k, l, w⟩, List.mem_cons_self, rfl, rfl, hvw⟩, ?_⟩
    exact h.mono fun _ hw => List.mem_cons_of_mem _ hw

namespace Grammar

/-- Which branches a node has does not depend on the order of its members. -/
def OrderFree (g : Grammar K S P) : Prop :=
  ∀ p v w, v.Reordered w → (g.form p).branches v = (g.form p).branches w

theorem OrderFree.branches_eq (hg : g.OrderFree) (place : Place P) {v w : Value}
    (h : v.Reordered w) : (g.formOf place).branches v = (g.formOf place).branches w := by
  cases place with
  | one p => exact hg p v w h
  | items p => rfl
  | entries p => rfl

theorem OrderFree.exists_child (hg : g.OrderFree) {place : Place P} {v w : Value}
    (h : v.Reordered w) (hv : v.Distinct) {c : Child P} (hc : c ∈ (g.formOf place).children v) :
    ∃ d ∈ (g.formOf place).children w, c.Matches d := by
  obtain ⟨branch, hbranch, hc⟩ := List.mem_flatMap.1 hc
  rw [hg.branches_eq place h] at hbranch
  obtain ⟨d, hd, hmatch⟩ := Branch.exists_child h hv hc
  exact ⟨d, List.mem_flatMap.2 ⟨branch, hbranch, hd⟩, hmatch⟩

theorem OrderFree.covers_children (hg : g.OrderFree) {place : Place P} {l : Location} {v w : Value}
    (h : v.Reordered w) (hv : v.Distinct) (hbelow : ∀ c ∈ (g.formOf place).children v,
      ∀ d, c.Matches d → ∃ u, g.trail d.place (l.child d.segment) d.node = .ok u ∧
        Covers (g.found c.place (l.child c.segment) c.node).visits u.visits) :
    (∀ d ∈ (g.formOf place).children w, g.trail d.place (l.child d.segment) d.node =
      .ok (g.found d.place (l.child d.segment) d.node)) ∧
    Covers (Trail.concat (((g.formOf place).children v).map fun c =>
        g.found c.place (l.child c.segment) c.node)).visits
      (Trail.concat (((g.formOf place).children w).map fun d =>
        g.found d.place (l.child d.segment) d.node)).visits := by
  constructor
  · -- A child of the second node is the match of one of the first, below which the walk succeeds.
    intro d hd
    obtain ⟨c, hc, hmatch⟩ := hg.exists_child h.symm (h.distinct hv) hd
    obtain ⟨u, hu, -⟩ := hbelow c hc d
      ⟨hmatch.segment.symm, hmatch.place.symm, hmatch.node.symm⟩
    rw [hu, found_eq hu]
  · intro x hx
    obtain ⟨_, hfound, hx⟩ := List.mem_flatMap.1 hx
    obtain ⟨c, hc, rfl⟩ := List.mem_map.1 hfound
    obtain ⟨d, hd, hmatch⟩ := hg.exists_child h hv hc
    obtain ⟨u, hu, hcovers⟩ := hbelow c hc d hmatch
    obtain ⟨y, hy, hxy⟩ := hcovers x hx
    exact ⟨y, List.mem_flatMap.2 ⟨u, List.mem_map.2 ⟨d, hd, found_eq hu⟩, hy⟩, hxy⟩

theorem exists_trail_reordered (hg : g.OrderFree) {place : Place P} {l : Location} {v w : Value}
    {t : Trail K S} (h : v.Reordered w) (hv : v.Distinct) (ht : g.trail place l v = .ok t) :
    ∃ u, g.trail place l w = .ok u ∧ Covers t.visits u.visits := by
  rw [trail_eq] at ht
  rw [trail_eq, ← h.isBool_eq, ← Form.replacedBy?_eq _ h, ← Form.mismatch?_eq _ h]
  by_cases hb : ((g.formOf place).boolean && v.isBool) = true
  · rw [if_pos hb] at ht ⊢
    cases ht
    exact ⟨.empty, rfl, List.forall_mem_nil _⟩
  · rw [if_neg hb] at ht ⊢
    cases hr : (g.formOf place).replacedBy? v with
    | some references =>
      rw [hr] at ht
      cases ht
      exact ⟨_, rfl, List.forall_mem_singleton.2 ⟨_, List.mem_singleton_self _, rfl, rfl, h⟩⟩
    | none =>
      rw [hr] at ht
      cases hm : (g.formOf place).mismatch? v with
      | some shape =>
        rw [hm] at ht
        cases ht
      | none =>
        rw [hm] at ht
        obtain ⟨_, hts, rfl⟩ := map_eq_ok_iff.1 ht
        obtain ⟨hall, rfl⟩ := trails_eq_ok_iff.1 hts
        -- Children are smaller than their node, so what is below them is matched already.
        have hbelow : ∀ c ∈ (g.formOf place).children v, ∀ d, c.Matches d →
            ∃ u, g.trail d.place (l.child d.segment) d.node = .ok u ∧
              Covers (g.found c.place (l.child c.segment) c.node).visits u.visits := by
          intro c hc d hmatch
          have hlt := Form.sizeOf_lt_of_mem_children hc
          have hd := (Form.child?_of_mem_children hv hc).2
          rw [hmatch.segment, hmatch.place]
          exact exists_trail_reordered hg hmatch.node hd (hall c hc)
        obtain ⟨hall', hcovers⟩ := hg.covers_children h hv hbelow
        exact ⟨_, map_eq_ok_iff.2 ⟨_, trails_eq_ok_iff.2 ⟨hall', rfl⟩, rfl⟩, hcovers.record _ l h⟩
termination_by sizeOf v

theorem exists_pathsTrail_reordered (hg : g.OrderFree) (h : root.Reordered root')
    (hd : root.Distinct) {t : Trail K S} (ht : g.pathsTrail root = .ok t) :
    ∃ u, g.pathsTrail root' = .ok u ∧ Covers t.visits u.visits := by
  unfold pathsTrail at ht ⊢
  cases hp : root.get? "paths" with
  | none =>
    rw [hp] at ht
    cases ht
    rw [h.get?_eq_none hp]
    exact ⟨.empty, rfl, List.forall_mem_nil _⟩
  | some paths =>
    rw [hp] at ht
    obtain ⟨paths', hp', hpaths⟩ := h.get? hp
    rw [hp']
    exact exists_trail_reordered hg hpaths (hd.of_get? hp) ht

theorem exists_member_reordered (h : root.Reordered root') (hd : root.Distinct) {m : Member S}
    (hm : m ∈ g.members root) : ∃ node, m.node.Reordered node ∧
      ⟨m.group, m.name, m.location, node⟩ ∈ g.members root' := by
  obtain ⟨-, hl, ms, hms, hmem⟩ := mem_membersOf_iff.1 (mem_members_iff.1 hm)
  obtain ⟨v, hv, hms⟩ := Option.bind_eq_some_iff.1 hms
  have hx : v.get? m.name = some m.node := Option.bind_eq_some_iff.2
    ⟨ms, hms, Members.get?_of_mem ((hd.of_descend? hv).nodup_keys hms) hmem⟩
  obtain ⟨w, hw, hvw⟩ := h.descend? hv
  obtain ⟨y, hy, hxy⟩ := hvw.get? hx
  obtain ⟨ns, hns, hget⟩ := Option.bind_eq_some_iff.1 hy
  refine ⟨y, hxy, mem_members_iff.2 (mem_membersOf_iff.2 ⟨rfl, hl, ns, ?_, ?_⟩)⟩
  · exact Option.bind_eq_some_iff.2 ⟨w, hw, hns⟩
  · exact Members.mem_of_get? hget

theorem sectionsFit_reordered (h : root.Reordered root') (hfit : g.SectionsFit root) :
    g.SectionsFit root' := by
  intro holder' hh
  obtain ⟨holder, hh, hholder⟩ := h.symm.descend? hh
  obtain ⟨hobject, hsections⟩ := hfit holder hh
  constructor
  · rwa [Shape.fits_eq hholder]
  · intro s v hv
    obtain ⟨w, hw, hvw⟩ := hholder.get? hv
    rw [Shape.fits_eq hvw]
    exact hsections s w hw

theorem exists_memberVisits_reordered (hg : g.OrderFree) (h : root.Reordered root')
    (hd : root.Distinct) {m : Member S} (hm : m ∈ g.members root) (hw : g.Walkable m) :
    ∃ n ∈ g.members root', n.key = m.key ∧ g.Walkable n ∧
      Covers (g.memberVisits m) (g.memberVisits n) := by
  obtain ⟨node, hnode, hn⟩ := exists_member_reordered h hd hm
  obtain ⟨t, ht⟩ := hw
  obtain ⟨u, hu, hcovers⟩ := exists_trail_reordered hg hnode (distinct_of_mem_members hd hm) ht
  refine ⟨_, hn, rfl, ⟨u, hu⟩, ?_⟩
  rw [memberVisits_eq ht]
  rw [memberVisits_eq (m := ⟨m.group, m.name, m.location, node⟩) hu]
  exact hcovers

theorem accepts_reordered (hg : g.OrderFree) (hs : g.sections.Nodup) (h : root.Reordered root')
    (hd : root.Distinct) (ha : g.Accepts root) : g.Accepts root' where
  top := by
    obtain ⟨t, ht⟩ := ha.top
    obtain ⟨u, hu, -⟩ := exists_trail_reordered hg h hd ht
    exact ⟨u, hu⟩
  paths := by
    obtain ⟨t, ht⟩ := ha.paths
    obtain ⟨u, hu, -⟩ := exists_pathsTrail_reordered hg h hd ht
    exact ⟨u, hu⟩
  sections := sectionsFit_reordered h ha.sections
  members := by
    intro n hn
    obtain ⟨node, -, hm⟩ := exists_member_reordered h.symm (h.distinct hd) hn
    obtain ⟨n', hn', hkey, hwalkable, -⟩ :=
      exists_memberVisits_reordered hg h hd hm (ha.members _ hm)
    -- Members are told apart by their sections and names.
    have hkeys := nodup_keys_members hs (h.distinct hd)
    obtain rfl := List.inj_on_of_nodup_map hkeys hn' hn hkey
    exact hwalkable

theorem covers_plainWalk (hg : g.OrderFree) (h : root.Reordered root') (hd : root.Distinct)
    {vs ws : List (Visit K)} (hv : g.plainWalk root = .ok vs) (hw : g.plainWalk root' = .ok ws) :
    Covers vs ws := by
  obtain ⟨top, paths, ht, hp, -, hall, rfl⟩ := plainWalk_eq_ok_iff.1 hv
  obtain ⟨top', paths', ht', hp', -, -, rfl⟩ := plainWalk_eq_ok_iff.1 hw
  obtain ⟨_, hu, htop⟩ := exists_trail_reordered hg h hd ht
  obtain rfl := Except.ok.inj (hu.symm.trans ht')
  obtain ⟨_, hu, hpaths⟩ := exists_pathsTrail_reordered hg h hd hp
  obtain rfl := Except.ok.inj (hu.symm.trans hp')
  refine (htop.append hpaths).append fun v hv => ?_
  obtain ⟨m, hm, hv⟩ := List.mem_flatMap.1 hv
  obtain ⟨n, hn, -, -, hcovers⟩ := exists_memberVisits_reordered hg h hd hm (hall m hm)
  obtain ⟨w, hw, hmatch⟩ := hcovers v hv
  exact ⟨w, List.mem_flatMap.2 ⟨n, hn, hw⟩, hmatch⟩

variable [DecidableEq S]

theorem covers_walk (hg : g.OrderFree) (hs : g.sections.Nodup) (h : root.Reordered root')
    (hd : root.Distinct) {vs ws : List (Visit K)} (hv : g.walk root = .ok vs)
    (hw : g.walk root' = .ok ws) : Covers vs ws := by
  have hd' := h.distinct hd
  obtain ⟨vs', hv'⟩ := exists_plainWalk_iff.2 ((exists_walk_iff hs hd).1 ⟨vs, hv⟩)
  obtain ⟨ws', hw'⟩ := exists_plainWalk_iff.2 ((exists_walk_iff hs hd').1 ⟨ws, hw⟩)
  have hcovers := covers_plainWalk hg h hd hv' hw'
  intro v hmem
  obtain ⟨w, hw'', hmatch⟩ := hcovers v ((walk_perm hs hd hv hv').mem_iff.1 hmem)
  exact ⟨w, (walk_perm hs hd' hw hw').mem_iff.2 hw'', hmatch⟩

theorem exists_walk_reordered (hg : g.OrderFree) (hs : g.sections.Nodup)
    (h : root.Reordered root') (hd : root.Distinct) {vs : List (Visit K)}
    (hv : g.walk root = .ok vs) : ∃ ws, g.walk root' = .ok ws :=
  (exists_walk_iff hs (h.distinct hd)).2
    (accepts_reordered hg hs h hd ((exists_walk_iff hs hd).1 ⟨vs, hv⟩))

theorem perm_locations [DecidableEq K] (hg : g.OrderFree) (hsep : g.Separated)
    (h : root.Reordered root') (hd : root.Distinct) {vs ws : List (Visit K)}
    (hv : g.walk root = .ok vs) (hw : g.walk root' = .ok ws) (kind : K) :
    ((ofKind vs kind).map Visit.location).Perm ((ofKind ws kind).map Visit.location) := by
  have hd' := h.distinct hd
  have hnodup : ((ofKind vs kind).map Visit.location).Nodup :=
    (nodup_locations hsep hd hv).sublist (List.filter_sublist.map _)
  have hnodup' : ((ofKind ws kind).map Visit.location).Nodup :=
    (nodup_locations hsep hd' hw).sublist (List.filter_sublist.map _)
  have hsub : ∀ {us us' : List (Visit K)}, Covers us us' →
      ∀ l ∈ (ofKind us kind).map Visit.location, l ∈ (ofKind us' kind).map Visit.location := by
    intro us us' hcovers l hl
    obtain ⟨u, hu, rfl⟩ := List.mem_map.1 hl
    obtain ⟨hu, hkind⟩ := List.mem_filter.1 hu
    obtain ⟨u', hu', hmatch⟩ := hcovers u hu
    rw [← hmatch.kind] at hkind
    exact List.mem_map.2 ⟨u', List.mem_filter.2 ⟨hu', hkind⟩, hmatch.location⟩
  have hforth := covers_walk hg hsep.sections h hd hv hw
  have hback := covers_walk hg hsep.sections h.symm hd' hw hv
  exact (List.perm_ext_iff_of_nodup hnodup hnodup').2 fun l => ⟨hsub hforth l, hsub hback l⟩

end Grammar

end ApiLint.Walk
