import ApiLint.Proofs.Walk.Extending

/-!
# Walks with a vendor extension more

Where every part of a walk passes over an extension, and it is no member of a section, the walk goes
the same way with it: in each state the same was recorded, the same references wait, and the same
members are marked. That is so at every node that is recorded and whose extensions are passed over.
-/

namespace ApiLint.Walk

open Json Outcome

variable {K S P : Type} {g : Grammar K S P} {e : Extension} {spot : Spot} {root : Value}

def Member.extended (e : Extension) (spot : Spot) (m : Member S) : Member S :=
  ⟨m.group, m.name, m.location, e.put (spot.along m.location.segments) m.node⟩

structure Progress.Alike (p q : Progress K S) : Prop where
  visits : q.visits.map Visit.label = p.visits.map Visit.label
  pending : q.pending = p.pending
  expanded : q.expanded = p.expanded

namespace Grammar

/-- Every part of a walk passes over an extension at the spot, which is in none of the sections. -/
structure Harmless (g : Grammar K S P) (root : Value) (spot : Spot) : Prop where
  top : g.Clear (.one g.root) root spot
  paths : ∀ v, root.get? "paths" = some v → g.Clear (.one g.paths) v (spot.under "paths")
  sections : ∀ s, spot.along (g.container s) ≠ .within []
  members : ∀ m ∈ g.members root,
    g.Clear (.one (g.member m.group)) m.node (spot.along m.location.segments)

theorem Harmless.exists_pathsTrail (hg : g.Steady) (h : g.Harmless root spot) {t : Trail K S}
    (ht : g.pathsTrail root = .ok t) :
    ∃ u, g.pathsTrail (e.put spot root) = .ok u ∧ t.Alike u := by
  have hget : (e.put spot root).get? "paths" =
      (root.get? "paths").map (e.put (spot.under "paths")) :=
    Extension.get?_put (fun _ => by decide) root
  unfold pathsTrail at ht ⊢
  rw [hget]
  cases hv : root.get? "paths" with
  | none =>
    rw [hv] at ht
    exact ⟨t, ht, .refl t⟩
  | some v =>
    rw [hv] at ht
    exact (h.paths v hv).exists_trail hg ht

theorem Harmless.get?_container (hg : g.Steady) (h : g.Harmless root spot) (s : S) (name : String) :
    ((e.put spot root).descend? (g.container s) >>= (·.get? name)) =
      (root.descend? (g.container s) >>= (·.get? name)).map
        (e.put (spot.along (g.container s ++ [name]))) := by
  rw [Extension.descend?_put (hg.container s), Spot.along_concat]
  cases root.descend? (g.container s) with
  | none => rfl
  | some v => exact Extension.get?_put (fun hs => absurd hs (h.sections s)) v

theorem Harmless.target?_put (hg : g.Steady) (h : g.Harmless root spot) (s : S)
    (reference : String) : g.target? (e.put spot root) s reference =
      (g.target? root s reference).map (Member.extended e spot) := by
  unfold target? Reference.resolve
  by_cases hinternal : Reference.isInternal reference = true
  · simp only [hinternal, if_true]
    cases Reference.nameIn? (g.container s) reference with
    | none => rfl
    | some name =>
      simp only [h.get?_container hg]
      cases root.descend? (g.container s) >>= (·.get? name) with
      | none => rfl
      | some node => rfl
  · simp only [hinternal]
    rfl

theorem Harmless.sectionMembers_put (hg : g.Steady) (h : g.Harmless root spot) (holder : Value)
    (s : S) : g.sectionMembers (e.put (spot.along g.holder) holder) s =
      (g.sectionMembers holder s).map (List.map (Member.extended e spot)) := by
  have hspot : (spot.along g.holder).under (g.key s) = spot.along (g.container s) :=
    (Spot.along_concat _ _ _).symm
  unfold sectionMembers
  rw [Extension.get?_put fun _ => hg.key s, hspot]
  cases holder.get? (g.key s) with
  | none => rfl
  | some v =>
    simp only [Option.map_some, Extension.members?_put (h.sections s)]
    cases v.members? with
    | none => rfl
    | some ms =>
      simp only [Option.map_some, Except.map, List.map_map]
      refine congrArg Except.ok (List.map_congr_left fun m _ => ?_)
      simp only [Function.comp_apply, Member.extended, Spot.along_concat]

variable {p p' q : Progress K S}

section Whole

variable [DecidableEq S]

theorem Harmless.exists_enter (hg : g.Steady) (h : g.Harmless root spot) {m : Member S}
    (hm : m ∈ g.members root) (hp : p.Alike p') (he : g.enter p m = .ok q) :
    ∃ q', g.enter p' (m.extended e spot) = .ok q' ∧ q.Alike q' := by
  have hkey : (m.extended e spot).key = m.key := rfl
  by_cases hmem : m.key ∈ p.expanded
  · rw [enter_of_mem hmem] at he
    cases he
    rw [enter_of_mem (by rw [hkey, hp.expanded]; exact hmem)]
    exact ⟨p', rfl, hp⟩
  · rw [enter_of_not_mem hmem, map_eq_ok_iff] at he
    obtain ⟨t, ht, rfl⟩ := he
    obtain ⟨u, hu, halike⟩ := (h.members m hm).exists_trail (e := e) hg ht
    rw [enter_of_not_mem (by rw [hkey, hp.expanded]; exact hmem)]
    refine ⟨_, map_eq_ok_iff.2 ⟨u, hu, rfl⟩, ?_, ?_, ?_⟩
    · simp only [List.map_append, hp.visits, halike.visits]
    · rw [hp.pending, halike.references]
    · rw [hkey, hp.expanded]

theorem Harmless.exists_drain (hg : g.Steady) (h : g.Harmless root spot) (hp : p.Alike p')
    (hq : g.drain root p = .ok q) :
    ∃ q', g.drain (e.put spot root) p' = .ok q' ∧ q.Alike q' := by
  fun_induction drain g root p generalizing p' with
  | case1 p hpending =>
    cases hq
    exact ⟨p', drain_nil (hp.pending.trans hpending), hp⟩
  | case2 p s reference rest hpending ht ih =>
    rw [drain_cons (hp.pending.trans hpending), h.target?_put hg, ht]
    exact ih ⟨hp.visits, rfl, hp.expanded⟩ hq
  | case3 => cases hq
  | case4 p s reference rest hpending m ht r he ih =>
    rw [drain_cons (hp.pending.trans hpending), h.target?_put hg, ht]
    have hpopped : Progress.Alike ⟨p.visits, rest, p.expanded⟩ ⟨p'.visits, rest, p'.expanded⟩ :=
      ⟨hp.visits, rfl, hp.expanded⟩
    obtain ⟨r', hr', halike⟩ := h.exists_enter hg (mem_members_of_target? ht).2 hpopped he
    obtain ⟨q', hq', hend⟩ := ih halike hq
    exact ⟨q', bind_eq_ok_iff.2 ⟨r', hr', hq'⟩, hend⟩

theorem Harmless.exists_section (hg : g.Steady) (h : g.Harmless root spot) {holder : Value}
    (hh : root.descend? g.holder = some holder) {s : S} (hp : p.Alike p')
    (hq : (g.sectionMembers holder s >>= (·.foldlM g.enter p)) = .ok q) :
    ∃ q', (g.sectionMembers (e.put (spot.along g.holder) holder) s >>= (·.foldlM g.enter p')) =
      .ok q' ∧ q.Alike q' := by
  obtain ⟨ms, hms, hq⟩ := bind_eq_ok_iff.1 hq
  have hmembers : ∀ m ∈ ms, m ∈ g.members root := by
    obtain ⟨-, rfl⟩ := (sectionMembers_eq_ok_iff hh).1 hms
    intro m hm
    exact List.mem_flatMap.2 ⟨s, g.mem_sections s, hm⟩
  obtain ⟨q', hq', halike⟩ := foldlM_related g.enter (Member.extended e spot) hp
    (fun m hm _ _ _ hp he => h.exists_enter hg (hmembers m hm) hp he) hq
  refine ⟨q', bind_eq_ok_iff.2 ⟨_, ?_, hq'⟩, halike⟩
  rw [h.sectionMembers_put hg, hms]
  rfl

theorem Harmless.exists_expandSections (hg : g.Steady) (h : g.Harmless root spot)
    (hp : p.Alike p') (hq : g.expandSections root p = .ok q) :
    ∃ q', g.expandSections (e.put spot root) p' = .ok q' ∧ q.Alike q' := by
  unfold expandSections at hq ⊢
  rw [Extension.descend?_put hg.holder]
  cases hh : root.descend? g.holder with
  | none =>
    rw [hh] at hq
    cases hq
    exact ⟨p', rfl, hp⟩
  | some holder =>
    have hfits : Shape.object.fits (e.put (spot.along g.holder) holder) =
        Shape.object.fits holder := Extension.isSome_members?_put ..
    rw [hh] at hq
    simp only [Option.map_some, hfits] at hq ⊢
    by_cases hfit : Shape.object.fits holder = true
    · rw [if_pos hfit] at hq ⊢
      have hsections := foldlM_related
        (fun p s => g.sectionMembers (e.put (spot.along g.holder) holder) s >>= (·.foldlM g.enter p))
        id hp (fun s _ _ _ _ hp hq => h.exists_section hg hh hp hq) hq
      rwa [List.map_id] at hsections
    · rw [if_neg hfit] at hq
      cases hq

theorem Harmless.exists_walk (hg : g.Steady) (h : g.Harmless root spot) {vs : List (Visit K)}
    (hv : g.walk root = .ok vs) : ∃ ws, g.walk (e.put spot root) = .ok ws ∧
      ws.map Visit.label = vs.map Visit.label := by
  rw [walk_eq, map_eq_ok_iff] at hv
  obtain ⟨r, hfinal, rfl⟩ := hv
  simp only [final, bind_eq_ok_iff] at hfinal
  obtain ⟨top, ht, paths, hp, p, hr, q, hx, hd⟩ := hfinal
  obtain ⟨top', ht', htop⟩ := h.top.exists_trail (e := e) hg ht
  obtain ⟨paths', hp', hpaths⟩ := h.exists_pathsTrail (e := e) hg hp
  have hbegun : (begun top paths).Alike (begun top' paths') :=
    ⟨(htop.append hpaths).visits, (htop.append hpaths).references, rfl⟩
  obtain ⟨p', hr', hreached⟩ := h.exists_drain (e := e) hg hbegun hr
  obtain ⟨q', hx', hexpanded⟩ := h.exists_expandSections hg hreached hx
  obtain ⟨r', hd', hend⟩ := h.exists_drain hg hexpanded hd
  refine ⟨r'.visits, ?_, hend.visits⟩
  rw [walk_eq, map_eq_ok_iff]
  refine ⟨r', ?_, rfl⟩
  simp only [final, bind_eq_ok_iff]
  exact ⟨top', ht', paths', hp', p', hr', q', hx', hd'⟩

end Whole

theorem clear_root (hsep : g.Separated) {start : String} (hstart : start ∈ g.starts)
    (rest : List String) : g.Clear (.one g.root) root (.within (start :: rest)) := by
  refine .intro (fun _ h => nomatch h) fun _ c hc => ?_
  by_cases hsegment : start = c.segment
  · obtain ⟨branch, hbranch, hchild⟩ := List.mem_flatMap.1 hc
    obtain ⟨key, place, rfl, hleaf⟩ := hsep.leaves root branch hbranch
    obtain ⟨rfl, rfl⟩ := Branch.eq_of_mem_children_field hchild
    obtain ⟨k, hform⟩ := hleaf (hsegment ▸ hstart)
    exact clear_leaf hform c.node _
  · rw [Spot.under_of_ne hsegment]
    exact clear_elsewhere g c.place c.node

section Recorded

variable {place : Place P} {l : Location} {v : Value} {t : Trail K S} {w : Visit K}
  (hpart : g.Part root place l v) (ht : g.trail place l v = .ok t) (hw : w ∈ t.visits)
  (hk : g.PassesOver w.kind)

include hpart ht hw hk

theorem clear_top (hsep : g.Separated) (hd : root.Distinct) :
    g.Clear (.one g.root) root (.within w.location.segments) := by
  rcases hpart.top_or_start ht hw with ⟨rfl, rfl, rfl⟩ | ⟨start, rest, hstart, hmem⟩
  · obtain ⟨path, hpath, hclear⟩ := clear_of_mem_visits hsep.parted hk ht hd hw
    rw [hpath]
    exact hclear
  · rw [hstart]
    exact clear_root hsep hmem rest

theorem clear_paths (hg : g.Steady) (hsep : g.Separated) (hd : root.Distinct) {u : Value}
    (hu : root.get? "paths" = some u) :
    g.Clear (.one g.paths) u ((Spot.within w.location.segments).under "paths") := by
  cases hl : w.location.segments with
  | nil => exact clear_elsewhere g _ u
  | cons key rest =>
    by_cases hkey : key = "paths"
    · subst hkey
      rw [Spot.under_self]
      cases rest with
      | nil => exact .intro (fun _ _ => hg.paths u) fun _ c _ => clear_elsewhere g c.place c.node
      | cons name rest =>
        obtain ⟨rfl, rfl, hv⟩ := hpart.eq_paths hsep ht hw hl
        obtain rfl : u = v := Option.some.inj (hu.symm.trans hv)
        obtain ⟨path, hpath, hclear⟩ :=
          clear_of_mem_visits hsep.parted hk ht (hpart.distinct hd) hw
        obtain rfl : name :: rest = path := (List.cons.inj (hl.symm.trans hpath)).2
        exact hclear
    · rw [Spot.under_of_ne hkey]
      exact clear_elsewhere g _ u

theorem clear_member (hsep : g.Separated) (hd : root.Distinct) {n : Member S}
    (hn : n ∈ g.members root) : g.Clear (.one (g.member n.group)) n.node
      ((Spot.within w.location.segments).along n.location.segments) := by
  rcases Spot.along_eq n.location.segments w.location.segments with h | ⟨rest, hrest, h⟩
  · rw [h]
    exact clear_elsewhere g _ n.node
  · rw [h]
    obtain ⟨rfl, rfl, rfl⟩ := hpart.eq_member hsep hd ht hw hn ⟨rest, hrest.symm⟩
    obtain ⟨path, hpath, hclear⟩ := clear_of_mem_visits hsep.parted hk ht (hpart.distinct hd) hw
    obtain rfl : rest = path := List.append_cancel_left (hrest.symm.trans hpath)
    exact hclear

end Recorded

variable [DecidableEq S] {vs : List (Visit K)} {w : Visit K}

theorem harmless_of_mem_walk (hg : g.Steady) (hsep : g.Separated) (hd : root.Distinct)
    (h : g.walk root = .ok vs) (hw : w ∈ vs) (hk : g.PassesOver w.kind)
    (hc : ∀ s, w.location.segments ≠ g.container s) :
    g.Harmless root (.within w.location.segments) := by
  obtain ⟨place, l, v, t, hpart, ht, hw⟩ := exists_part h hw
  refine ⟨clear_top hpart ht hw hk hsep hd, fun u => clear_paths hpart ht hw hk hg hsep hd,
    fun s hs => ?_, fun n => clear_member hpart ht hw hk hsep hd⟩
  rcases Spot.along_eq (g.container s) w.location.segments with h | ⟨rest, hrest, h⟩
  · rw [h] at hs
    cases hs
  · rw [h] at hs
    cases hs
    exact hc s (by rw [hrest, List.append_nil])

theorem exists_walk_extended (hg : g.Steady) (hsep : g.Separated) (hd : root.Distinct)
    (h : g.walk root = .ok vs) (hw : w ∈ vs) (hk : g.PassesOver w.kind)
    (hc : ∀ s, w.location.segments ≠ g.container s) (e : Extension) :
    ∃ ws, g.walk (root.modifyAt e.into w.location.segments) = .ok ws ∧
      ws.map Visit.label = vs.map Visit.label :=
  (harmless_of_mem_walk hg hsep hd h hw hk hc).exists_walk hg h

end Grammar

end ApiLint.Walk
