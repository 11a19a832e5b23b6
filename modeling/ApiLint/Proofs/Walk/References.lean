import ApiLint.Proofs.Walk.Positions
import ApiLint.Proofs.Walk.Without

/-!
# References as leaves

A reference is recorded as such and ends the descent, so nothing is recorded below it. Where it may
stand in the place of a node, a node that is recorded is none.
-/

namespace ApiLint.Walk

open Json

variable {K S P : Type} {g : Grammar K S P} {root : Value}

theorem ofNode?_eq_some_iff {v : Value} {reference : String} :
    Reference.ofNode? v = some reference ↔
      ∃ ms, v = .object ms ∧ Members.get? ms "$ref" = some (.string reference) := by
  constructor
  · intro h
    obtain ⟨x, hx, hstring⟩ := Option.bind_eq_some_iff.1 h
    cases v with
    | object ms =>
      cases x with
      | string s =>
        obtain rfl := Option.some.inj hstring
        exact ⟨ms, rfl, hx⟩
      | _ => cases hstring
    | _ => cases hx
  · rintro ⟨ms, rfl, hx⟩
    simp only [Reference.ofNode?, Value.stringAt?, Value.get?_object, hx]
    rfl

namespace Grammar

/-- At these positions, and at all below them, references are told from other nodes: they have a
kind of their own, and kinds in whose place they may stand give way to them. -/
structure Refers (g : Grammar K S P) (replaceable : List K) (sound : P → Prop) : Prop where
  below : ∀ p, sound p → ∀ v, ∀ branch ∈ (g.form p).branches v, sound branch.place.position
  root : sound g.root
  paths : sound g.paths
  member : ∀ s, sound (g.member s)
  kind : ∀ p, sound p → (g.form p).kind ≠ some g.reference
  gives_way : ∀ p, sound p → (g.form p).replacement ≠ .never ∨
    ∀ k ∈ replaceable, (g.form p).kind ≠ some k
  own : g.reference ∉ replaceable

variable {replaceable : List K} {sound : P → Prop}

theorem Refers.kind_ne (hg : g.Refers replaceable sound) {place : Place P}
    (hp : sound place.position) : (g.formOf place).kind ≠ some g.reference := by
  cases place with
  | one p => exact hg.kind p hp
  | items p => exact nofun
  | entries p => exact nofun

theorem Refers.of_mem_children (hg : g.Refers replaceable sound) (place : Place P)
    (hp : sound place.position) {v : Value} {c : Child P}
    (hc : c ∈ (g.formOf place).children v) : sound c.place.position :=
  position_of_mem_children hg.below hp hc

theorem ofNode?_of_replacedBy? {form : Form K S P} {v : Value} {references : List (S × String)}
    (h : form.replacedBy? v = some references) : ∃ r, Reference.ofNode? v = some r := by
  unfold Form.replacedBy? at h
  split at h
  case h_1 => cases h
  case h_2 =>
    obtain ⟨r, hr, -⟩ := Option.map_eq_some_iff.1 h
    exact ⟨r, hr⟩
  case h_3 =>
    obtain ⟨r, hr, -⟩ := Option.map_eq_some_iff.1 h
    exact ⟨r, hr⟩

theorem ofNode?_of_not_replacedBy? {form : Form K S P} {v : Value}
    (hr : form.replacement ≠ .never) (h : form.replacedBy? v = none) :
    Reference.ofNode? v = none := by
  unfold Form.replacedBy? at h
  split at h
  case h_1 hn => exact absurd hn hr
  case h_2 => exact Option.map_eq_none_iff.1 h
  case h_3 => exact Option.map_eq_none_iff.1 h

structure Told (g : Grammar K S P) (replaceable : List K) (w : Visit K) : Prop where
  reference : w.kind = g.reference → ∃ r, Reference.ofNode? w.node = some r
  other : w.kind ∈ replaceable → Reference.ofNode? w.node = none

theorem Refers.told_of_mem_visits (hg : g.Refers replaceable sound) {place : Place P}
    {l : Location} {v : Value} {t : Trail K S} (h : g.trail place l v = .ok t)
    (hp : sound place.position) : ∀ w ∈ t.visits, g.Told replaceable w := by
  rcases trail_cases h with ⟨-, -, rfl⟩ | ⟨references, hr, rfl⟩ | ⟨hr, -, hall, rfl⟩
  · exact List.forall_mem_nil _
  · intro w hw
    obtain rfl := List.mem_singleton.1 hw
    exact ⟨fun _ => ofNode?_of_replacedBy? hr, fun hk => absurd hk hg.own⟩
  · intro w hw
    rcases Trail.mem_visits_record hw with ⟨k, hk, rfl⟩ | hw
    · refine ⟨?_, ?_⟩
      · rintro rfl
        exact absurd hk (hg.kind_ne hp)
      · intro hmem
        cases place with
        | one p =>
          rcases hg.gives_way p hp with hreplacement | hkind
          · exact ofNode?_of_not_replacedBy? hreplacement hr
          · exact absurd hk (hkind k hmem)
        | items p => cases hk
        | entries p => cases hk
    · rw [visits_concat] at hw
      obtain ⟨c, hc, hw⟩ := List.mem_flatMap.1 hw
      have hsize := Form.sizeOf_lt_of_mem_children hc
      exact hg.told_of_mem_visits (hall c hc) (hg.of_mem_children place hp hc) w hw
termination_by sizeOf v

def Ends (vs : List (Visit K)) (l : Location) : Prop :=
  ∀ w ∈ vs, l.segments <+: w.location.segments → w.location = l

theorem Refers.ends_of_mem_visits (hg : g.Refers replaceable sound) (hparted : g.Parted)
    {place : Place P} {l : Location} {v : Value} {t : Trail K S} (h : g.trail place l v = .ok t)
    (hp : sound place.position) (hv : v.Distinct) :
    ∀ r ∈ t.visits, r.kind = g.reference → Ends t.visits r.location := by
  refine trail_induction (motive := fun place _ v t => sound place.position → v.Distinct →
    ∀ r ∈ t.visits, r.kind = g.reference → Ends t.visits r.location) ?passed ?replaced ?walked
    h hp hv
  case passed => exact fun _ _ _ _ _ => List.forall_mem_nil _
  case replaced =>
    intro _ l v _ _ _ _ r hr _ w hw _
    rw [List.mem_singleton.1 hr, List.mem_singleton.1 hw]
  case walked =>
    intro place l v hall ih hp hv r hr hk w hw hpre
    rcases Trail.mem_visits_record hr with ⟨k, hkind, rfl⟩ | hr
    · exact absurd (hkind.trans (congrArg some hk)) (hg.kind_ne hp)
    · rw [visits_concat] at hr
      obtain ⟨c, hc, hr⟩ := List.mem_flatMap.1 hr
      have hbelow : (l.child c.segment).segments <+: w.location.segments :=
        (prefix_of_mem_visits (hall c hc) r hr).trans hpre
      rcases Trail.mem_visits_record hw with ⟨k, -, rfl⟩ | hw
      · exact absurd hbelow Location.not_child_prefix
      · rw [visits_concat] at hw
        obtain ⟨d, hd, hw⟩ := List.mem_flatMap.1 hw
        -- What is below the reference is below the same child.
        have hsegment := Location.eq_of_child_prefix hbelow (prefix_of_mem_visits (hall d hd) w hw)
        obtain rfl : c = d := List.inj_on_of_nodup_map (hparted place v hv) hc hd hsegment
        have hsound := hg.of_mem_children place hp hc
        exact ih c hc hsound (Form.child?_of_mem_children hv hc).2 r hr hk w hw hpre

theorem Refers.start_of_mem_top (hg : g.Refers replaceable sound) (hsep : g.Separated)
    (hrooted : g.Rooted) {top : Trail K S} (h : g.trail (.one g.root) .root root = .ok top)
    {r : Visit K} (hr : r ∈ top.visits) (hk : r.kind = g.reference) :
    ∃ key rest, r.location.segments = key :: rest ∧ key ∉ g.starts := by
  obtain ⟨hboolean, hreplacement⟩ := hrooted.root
  obtain ⟨-, hall, rfl⟩ := (trail_eq_ok_iff (.one g.root) hboolean hreplacement).1 h
  rcases Trail.mem_visits_record hr with ⟨k, hkind, rfl⟩ | hr
  · exact absurd (hkind.trans (congrArg some hk)) (hg.kind_ne hg.root)
  · rw [visits_concat] at hr
    obtain ⟨c, hc, hr⟩ := List.mem_flatMap.1 hr
    obtain ⟨rest, hrest⟩ := prefix_of_mem_visits (hall c hc) r hr
    refine ⟨c.segment, rest, hrest.symm, fun hstart => ?_⟩
    obtain ⟨branch, hbranch, hchild⟩ := List.mem_flatMap.1 hc
    obtain ⟨key, place, rfl, hleaf⟩ := hsep.leaves root branch hbranch
    obtain ⟨rfl, rfl⟩ := Branch.eq_of_mem_children_field hchild
    -- Where a later part starts the root has a leaf, and leaves are no references.
    obtain ⟨k, hform⟩ := hleaf hstart
    have hsound : sound c.place.position := hg.of_mem_children (.one g.root) hg.root hc
    rw [found_eq (trail_leaf hform _ _)] at hr
    obtain rfl := List.mem_singleton.1 hr
    have hkind : (g.formOf c.place).kind = some g.reference := by rw [hform, ← hk]
    exact hg.kind_ne hsound hkind

theorem Refers.of_part (hg : g.Refers replaceable sound) {place : Place P} {l : Location}
    {v : Value} (h : g.Part root place l v) : sound place.position := by
  cases h with
  | top => exact hg.root
  | paths => exact hg.paths
  | member => exact hg.member _

theorem Refers.part_eq (hg : g.Refers replaceable sound) (hsep : g.Separated) (hrooted : g.Rooted)
    (hd : root.Distinct) {r w : Visit K} {place place' : Place P} {l l' : Location} {v v' : Value}
    {t t' : Trail K S} (hpart : g.Part root place l v) (ht : g.trail place l v = .ok t)
    (hr : r ∈ t.visits) (hk : r.kind = g.reference) (hpart' : g.Part root place' l' v')
    (ht' : g.trail place' l' v' = .ok t') (hw : w ∈ t'.visits)
    (hpre : r.location.segments <+: w.location.segments) : place' = place ∧ l' = l ∧ v' = v := by
  cases hpart with
  | top =>
    obtain ⟨key, rest, hstart, hne⟩ := hg.start_of_mem_top hsep hrooted ht hr hk
    rcases hpart'.top_or_start ht' hw with h | ⟨key', rest', hstart', hmem⟩
    · exact h
    · rw [hstart, hstart'] at hpre
      exact absurd ((List.cons_prefix_cons.1 hpre).1 ▸ hmem) hne
  | paths hv =>
    obtain ⟨name, rest, hstart⟩ := hsep.paths_visits ((pathsTrail_of_get? hv).trans ht) hr
    obtain ⟨more, hmore⟩ := hpre
    rw [hstart] at hmore
    obtain ⟨hplace, hl, hv'⟩ := hpart'.eq_paths hsep ht' hw hmore.symm
    exact ⟨hplace, hl, Option.some.inj (hv'.symm.trans hv)⟩
  | member hm =>
    exact hpart'.eq_member hsep hd ht' hw hm ((prefix_of_mem_visits ht r hr).trans hpre)

variable [DecidableEq S] {vs : List (Visit K)}

theorem Refers.told_of_mem_walk (hg : g.Refers replaceable sound) (h : g.walk root = .ok vs) :
    ∀ w ∈ vs, g.Told replaceable w := by
  intro w hw
  obtain ⟨place, l, v, t, hpart, ht, hw⟩ := exists_part h hw
  exact hg.told_of_mem_visits ht (hg.of_part hpart) w hw

theorem Refers.ends_of_mem_walk (hg : g.Refers replaceable sound) (hsep : g.Separated)
    (hrooted : g.Rooted) (hd : root.Distinct) (h : g.walk root = .ok vs) :
    ∀ r ∈ vs, r.kind = g.reference → Ends vs r.location := by
  intro r hr hk w hw hpre
  obtain ⟨place, l, v, t, hpart, ht, hr⟩ := exists_part h hr
  obtain ⟨place', l', v', t', hpart', ht', hw⟩ := exists_part h hw
  obtain ⟨rfl, rfl, rfl⟩ := hg.part_eq hsep hrooted hd hpart ht hr hk hpart' ht' hw hpre
  obtain rfl : t = t' := Except.ok.inj (ht.symm.trans ht')
  exact hg.ends_of_mem_visits hsep.parted ht (hg.of_part hpart) (hpart.distinct hd) r hr hk w hw hpre

/-- In what a walk records references are leaves, and where one may stand nothing else has a text
under `$ref`. -/
structure LeafReferences (g : Grammar K S P) (replaceable : List K) (vs : List (Visit K)) :
    Prop where
  text : ∀ w ∈ vs, w.kind = g.reference → ∃ ms reference,
    w.node = .object ms ∧ Members.get? ms "$ref" = some (.string reference)
  leaf : ∀ r ∈ vs, r.kind = g.reference → ∀ w ∈ vs,
    r.location.segments <+: w.location.segments → w.location = r.location
  replaced : ∀ w ∈ vs, w.kind ∈ replaceable → ¬ ∃ ms reference,
    w.node = .object ms ∧ Members.get? ms "$ref" = some (.string reference)

theorem leafReferences_walk (hg : g.Refers replaceable sound) (hsep : g.Separated)
    (hrooted : g.Rooted) (hd : root.Distinct) (h : g.walk root = .ok vs) :
    g.LeafReferences replaceable vs where
  text w hw hk := by
    obtain ⟨reference, hr⟩ := (hg.told_of_mem_walk h w hw).reference hk
    obtain ⟨ms, hnode, hget⟩ := ofNode?_eq_some_iff.1 hr
    exact ⟨ms, reference, hnode, hget⟩
  leaf := hg.ends_of_mem_walk hsep hrooted hd h
  replaced w hw hk := by
    rintro ⟨ms, reference, hget⟩
    have hnone := (hg.told_of_mem_walk h w hw).other hk
    rw [ofNode?_eq_some_iff.2 ⟨ms, hget⟩] at hnone
    cases hnone

end Grammar

end ApiLint.Walk
