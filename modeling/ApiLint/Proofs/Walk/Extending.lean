import ApiLint.Proofs.Document.Extending
import ApiLint.Proofs.Walk.Without

/-!
# Walking nodes with a vendor extension more

A trail does not change when an extension is put into an object on it, as long as the grammar passes
over the extensions of that object: the children are the same, each with the extension if it is put
there, and so are the references. That is so at every node of a kind whose extensions are passed
over, and at a reference, which is not looked into.
-/

namespace ApiLint.Walk

open Json Outcome

variable {K S P : Type} {g : Grammar K S P} {e : Extension} {spot : Spot}

def Child.extended (e : Extension) (spot : Spot) (c : Child P) : Child P :=
  ⟨c.segment, c.place, e.put (spot.under c.segment) c.node⟩

namespace Branch

def Plain : Branch P → Prop
  | field key _ => isExtension key = false
  | _ => True

def Skips : Branch P → Prop
  | members extensions _ => extensions = false
  | _ => True

instance : (branch : Branch P) → Decidable branch.Plain
  | field key _ => inferInstanceAs (Decidable (isExtension key = false))
  | members _ _ => .isTrue trivial
  | elements _ => .isTrue trivial

instance : (branch : Branch P) → Decidable branch.Skips
  | field _ _ => .isTrue trivial
  | members extensions _ => inferInstanceAs (Decidable (extensions = false))
  | elements _ => .isTrue trivial

theorem filter_among (place : Place P) (e : Extension) (ms : Members) :
    (members false place).children (.object (e.among ms)) =
      (members false place).children (.object ms) := by
  have hsplit : ms.filter (fun m => !isExtension m.1) =
      (ms.take e.position).filter (fun m => !isExtension m.1) ++
        (ms.drop e.position).filter fun m => !isExtension m.1 := by
    rw [← List.filter_append, List.take_append_drop]
  simp only [children, Value.members?, Extension.among, Bool.false_or, List.filter_append, hsplit]
  rw [List.filter_cons_of_neg]
  simp [e.vendor]

theorem children_put {branch : Branch P} (hplain : branch.Plain)
    (hskips : spot = .within [] → branch.Skips) (v : Value) :
    branch.children (e.put spot v) = (branch.children v).map (Child.extended e spot) := by
  cases branch with
  | field key place =>
    have hget : (e.put spot v).get? key = (v.get? key).map (e.put (spot.under key)) :=
      Extension.get?_put (fun _ => hplain) v
    simp only [children, hget]
    cases v.get? key <;> rfl
  | members extensions place =>
    by_cases hspot : spot = .within []
    · obtain rfl : extensions = false := hskips hspot
      subst hspot
      cases v with
      | object ms =>
        have hsame : ∀ c : Child P, c.extended e (.within []) = c := fun c => rfl
        simp only [funext hsame, List.map_id']
        exact filter_among place e ms
      | _ => rfl
    · simp only [children, Extension.members?_put hspot]
      cases v.members? with
      | none => rfl
      | some ms =>
        simp only [Option.map_some, List.filter_map, List.map_map]
        rfl
  | elements place =>
    simp only [children, Extension.items?_put]
    cases v.items? with
    | none => rfl
    | some xs =>
      simp only [Option.map_some, Value.zipIdx_map_zipIdx, List.map_map]
      rfl

end Branch

namespace Form

variable (form : Form K S P)

theorem replacedBy?_put (e : Extension) (spot : Spot) (v : Value) :
    form.replacedBy? (e.put spot v) = form.replacedBy? v := by
  have href : Reference.ofNode? (e.put spot v) = Reference.ofNode? v :=
    Extension.stringAt?_put (by decide) e spot v
  unfold replacedBy?
  rw [href]

theorem mismatch?_put (e : Extension) (spot : Spot) (v : Value) :
    form.mismatch? (e.put spot v) = form.mismatch? v := by
  have hfits : ∀ shape : Shape, shape.fits (e.put spot v) = shape.fits v := by
    intro shape
    cases shape with
    | object => exact Extension.isSome_members?_put e spot v
    | array => exact Extension.isSome_items?_put e spot v
  unfold mismatch?
  simp only [hfits]

end Form

namespace Trail

/-- The same is recorded under the same kinds, and the same references are followed. -/
structure Alike (t u : Trail K S) : Prop where
  visits : u.visits.map Visit.label = t.visits.map Visit.label
  references : u.references = t.references

theorem Alike.refl (t : Trail K S) : t.Alike t := ⟨rfl, rfl⟩

theorem Alike.append {t u t' u' : Trail K S} (h : t.Alike u) (h' : t'.Alike u') :
    (t.append t').Alike (u.append u') where
  visits := by simp only [visits_append, List.map_append, h.visits, h'.visits]
  references := by simp only [references_append, h.references, h'.references]

theorem Alike.concat {A : Type} {xs : List A} {f f' : A → Trail K S}
    (h : ∀ x ∈ xs, (f x).Alike (f' x)) :
    (Trail.concat (xs.map f)).Alike (Trail.concat (xs.map f')) := by
  induction xs with
  | nil => exact .refl _
  | cons x xs ih =>
    obtain ⟨hx, hxs⟩ := List.forall_mem_cons.1 h
    simp only [List.map_cons, concat_cons]
    exact hx.append (ih hxs)

theorem Alike.record {t u : Trail K S} (h : t.Alike u) (kind : Option K) (l : Location)
    (v w : Value) : (t.record kind l v).Alike (u.record kind l w) := by
  cases kind with
  | none => exact h
  | some k => exact ⟨congrArg ((k, l) :: ·) h.visits, h.references⟩

end Trail

namespace Grammar

structure Steady (g : Grammar K S P) : Prop where
  branches : ∀ p (e : Extension) (spot : Spot) v,
    (g.form p).branches (e.put spot v) = (g.form p).branches v
  plain : ∀ p v, ∀ branch ∈ (g.form p).branches v, branch.Plain
  paths : ∀ v, ∀ branch ∈ (g.form g.paths).branches v, branch.Skips
  holder : ∀ key ∈ g.holder, isExtension key = false
  key : ∀ s, isExtension (g.key s) = false

theorem Steady.container (hg : g.Steady) (s : S) : ∀ key ∈ g.container s, isExtension key = false :=
  List.forall_mem_append.2 ⟨hg.holder, List.forall_mem_singleton.2 (hg.key s)⟩

theorem Steady.children_put (hg : g.Steady) (place : Place P) {v : Value}
    (hskips : spot = .within [] → ∀ branch ∈ (g.formOf place).branches v, branch.Skips) :
    (g.formOf place).children (e.put spot v) =
      ((g.formOf place).children v).map (Child.extended e spot) := by
  have hbranches : (g.formOf place).branches (e.put spot v) = (g.formOf place).branches v := by
    cases place with
    | one p => exact hg.branches p e spot v
    | items p => rfl
    | entries p => rfl
  have hplain : ∀ branch ∈ (g.formOf place).branches v, branch.Plain := by
    cases place with
    | one p => exact hg.plain p v
    | items p => exact List.forall_mem_singleton.2 trivial
    | entries p => exact List.forall_mem_singleton.2 trivial
  rw [Form.children, Form.children, hbranches, List.map_flatMap]
  refine List.flatMap_congr fun branch hb => ?_
  exact Branch.children_put (hplain branch hb) (fun h => hskips h branch hb) v

/-- An extension at the spot is passed over by the trail that starts in this place, as the spot is
at or below a reference, at a node whose extensions are passed over, or off the trail. -/
inductive Clear (g : Grammar K S P) : Place P → Value → Spot → Prop where
  | intro {place : Place P} {v : Value} {spot : Spot}
    (here : (g.formOf place).replacedBy? v = none → spot = .within [] →
      ∀ branch ∈ (g.formOf place).branches v, branch.Skips)
    (below : (g.formOf place).replacedBy? v = none → ∀ c ∈ (g.formOf place).children v,
      Clear g c.place c.node (spot.under c.segment)) : Clear g place v spot

theorem clear_elsewhere (g : Grammar K S P) (place : Place P) (v : Value) :
    g.Clear place v .elsewhere :=
  .intro (fun _ h => nomatch h) fun _ c hc =>
    have := Form.sizeOf_lt_of_mem_children hc
    clear_elsewhere g c.place c.node
termination_by sizeOf v

theorem clear_leaf {place : Place P} {k : K} (hp : g.formOf place = { kind := some k }) (v : Value)
    (spot : Spot) : g.Clear place v spot := by
  have hnone : (g.formOf place).branches v = [] := by rw [hp]
  refine .intro (fun _ _ branch hb => ?_) fun _ c hc => ?_
  · rw [hnone] at hb
    cases hb
  · rw [Form.children, hnone] at hc
    cases hc

theorem Clear.exists_trail (hg : g.Steady) {place : Place P} {v : Value} {l : Location}
    {t : Trail K S} (hc : g.Clear place v spot) (ht : g.trail place l v = .ok t) :
    ∃ u, g.trail place l (e.put spot v) = .ok u ∧ t.Alike u := by
  induction hc generalizing l t with
  | @intro place v spot here below ih =>
    rw [trail_eq] at ht
    rw [trail_eq, Extension.isBool_put, Form.replacedBy?_put, Form.mismatch?_put]
    by_cases hb : ((g.formOf place).boolean && v.isBool) = true
    · rw [if_pos hb] at ht ⊢
      exact ⟨t, ht, .refl t⟩
    · rw [if_neg hb] at ht ⊢
      cases hr : (g.formOf place).replacedBy? v with
      | some references =>
        rw [hr] at ht
        cases ht
        exact ⟨_, rfl, rfl, rfl⟩
      | none =>
        rw [hr] at ht
        cases hm : (g.formOf place).mismatch? v with
        | some shape =>
          rw [hm] at ht
          cases ht
        | none =>
          rw [hm] at ht
          obtain ⟨_, hts, rfl⟩ := map_eq_ok_iff.1 ht
          obtain ⟨hall, rfl⟩ := trails_eq_ok_iff.1 hts
          have hbelow : ∀ c ∈ (g.formOf place).children v,
              g.trail c.place (l.child c.segment) (c.extended e spot).node =
                .ok (g.found c.place (l.child c.segment) (c.extended e spot).node) ∧
              (g.found c.place (l.child c.segment) c.node).Alike
                (g.found c.place (l.child c.segment) (c.extended e spot).node) := by
            intro c hmem
            obtain ⟨u, hu, halike⟩ := ih hr c hmem (hall c hmem)
            rw [Child.extended, found_eq hu]
            exact ⟨hu, halike⟩
          refine ⟨_, map_eq_ok_iff.2 ⟨_, trails_eq_ok_iff.2 ⟨fun d hd => ?_, rfl⟩, rfl⟩, ?_⟩
          · rw [hg.children_put place (here hr)] at hd
            obtain ⟨c, hmem, rfl⟩ := List.mem_map.1 hd
            exact (hbelow c hmem).1
          · rw [hg.children_put place (here hr), List.map_map]
            exact (Trail.Alike.concat fun c hmem => (hbelow c hmem).2).record _ l v _

def PassesOver (g : Grammar K S P) (k : K) : Prop :=
  ∀ p, (g.form p).kind = some k → ∀ v, ∀ branch ∈ (g.form p).branches v, branch.Skips

theorem PassesOver.formOf {k : K} (hk : g.PassesOver k) {place : Place P}
    (h : (g.formOf place).kind = some k) (v : Value) :
    ∀ branch ∈ (g.formOf place).branches v, branch.Skips := by
  cases place with
  | one p => exact hk p h v
  | items p => cases h
  | entries p => cases h

theorem clear_of_mem_visits (hg : g.Parted) {w : Visit K} (hk : g.PassesOver w.kind)
    {place : Place P} {l : Location} {v : Value} {t : Trail K S} (h : g.trail place l v = .ok t)
    (hv : v.Distinct) (hw : w ∈ t.visits) :
    ∃ path, w.location.segments = l.segments ++ path ∧ g.Clear place v (.within path) := by
  rcases trail_cases h with ⟨-, -, rfl⟩ | ⟨references, hr, rfl⟩ | ⟨-, -, hall, rfl⟩
  · cases hw
  · obtain rfl := List.mem_singleton.1 hw
    refine ⟨[], (List.append_nil _).symm, .intro (fun h => ?_) fun h => ?_⟩
    · rw [hr] at h
      cases h
    · rw [hr] at h
      cases h
  · rcases Trail.mem_visits_record hw with ⟨k, hkind, rfl⟩ | hw
    · refine ⟨[], (List.append_nil _).symm, .intro (fun _ _ => hk.formOf hkind v) fun _ c _ => ?_⟩
      exact clear_elsewhere g c.place c.node
    · rw [visits_concat] at hw
      obtain ⟨c, hc, hw⟩ := List.mem_flatMap.1 hw
      have hsize := Form.sizeOf_lt_of_mem_children hc
      have hdistinct := (Form.child?_of_mem_children hv hc).2
      obtain ⟨path, hpath, hclear⟩ := clear_of_mem_visits hg hk (hall c hc) hdistinct hw
      refine ⟨c.segment :: path, ?_, .intro (fun _ h => nomatch h) fun _ d hd => ?_⟩
      · rw [hpath, Location.segments_child, List.append_assoc]
        rfl
      · by_cases hsegment : c.segment = d.segment
        · obtain rfl : c = d := List.inj_on_of_nodup_map (hg place v hv) hc hd hsegment
          rwa [Spot.under_self]
        · rw [Spot.under_of_ne hsegment]
          exact clear_elsewhere g d.place d.node
termination_by sizeOf v

end Grammar

end ApiLint.Walk
