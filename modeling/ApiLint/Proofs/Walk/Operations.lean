import ApiLint.Lint
import ApiLint.Proofs.Walk.References

/-!
# Operations

Operations stand below the paths and nowhere else: a walk records, in their order, those that two
loops come to, one over the path items and one over the names of methods. What a reference leads to
and what stands in a section has no operation in it.
-/

namespace ApiLint

open Json Walk

/-- The operations of a document in the order of its paths, and below each path in that of the
methods. Vendor extensions and references are passed over. -/
def operations (methods : List String) (document : Value) : List (Location × Value) :=
  ((document.get? "paths" >>= Value.members?).getD []).flatMap fun m =>
    if isExtension m.1 || (m.2.stringAt? "$ref").isSome then []
    else methods.filterMap fun method =>
      (m.2.get? method).map fun operation => (⟨["paths", m.1, method]⟩, operation)

namespace Walk

open Outcome Walked

theorem flatMap_filter {A B : Type} (keep : A → Bool) (xs : List A) (f : A → List B) :
    (xs.filter keep).flatMap f = xs.flatMap fun x => if keep x then f x else [] := by
  induction xs with
  | nil => rfl
  | cons x xs ih => cases h : keep x <;> simp [h, ih]

variable {K S P : Type} {g : Grammar K S P} {root : Value}

namespace Grammar

/-- At these positions, and at all below them, no node of the kind `k` is recorded. -/
structure Lacks (g : Grammar K S P) (k : K) (lacking : P → Prop) : Prop where
  reference : g.reference ≠ k
  kind : ∀ p, lacking p → (g.form p).kind ≠ some k
  below : ∀ p, lacking p → ∀ v, ∀ branch ∈ (g.form p).branches v, lacking branch.place.position

/-- A path item has a node of the kind `k` under each method, and there is none anywhere else. -/
structure Operates (g : Grammar K S P) (k : K) (methods : List String) (item operation : P)
    (lacking : P → Prop) : Prop where
  lacks : g.Lacks k lacking
  root : lacking g.root
  member : ∀ s, lacking (g.member s)
  paths : g.formOf (.one g.paths) =
    { shape := some .object, branches := fun _ => [.members false (.one item)] }
  item : ∃ kind rest, kind ≠ k ∧ (∀ branch ∈ rest, lacking branch.place.position) ∧
    g.formOf (.one item) =
      { replacement := .recorded, kind := some kind, shape := some .object,
        branches := fun _ => methods.map (.field · (.one operation)) ++ rest }
  operation : ∃ branches, (∀ v, ∀ branch ∈ branches v, lacking branch.place.position) ∧
    g.formOf (.one operation) = { kind := some k, shape := some .object, branches }

variable {k : K} {methods : List String} {item operation : P} {lacking : P → Prop} {l : Location}
  {v : Value} {t : Trail K S}

theorem Lacks.kind_ne (hg : g.Lacks k lacking) {place : Place P} (h : g.trail place l v = .ok t)
    (hp : lacking place.position) : ∀ w ∈ t.visits, w.kind ≠ k := by
  refine trail_induction (motive := fun place _ _ t => lacking place.position →
    ∀ w ∈ t.visits, w.kind ≠ k) ?passed ?replaced ?walked h hp
  case passed => exact fun _ _ _ _ => List.forall_mem_nil _
  case replaced =>
    intro _ l v _ _ _ w hw
    rw [List.mem_singleton.1 hw]
    exact hg.reference
  case walked =>
    intro place l v _ ih hp w hw
    rcases Trail.mem_visits_record hw with ⟨k', hk', rfl⟩ | hw
    · intro hk
      cases place with
      | one p => exact hg.kind p hp (hk'.trans (congrArg some hk))
      | items p => cases hk'
      | entries p => cases hk'
    · rw [visits_concat] at hw
      obtain ⟨c, hc, hw⟩ := List.mem_flatMap.1 hw
      exact ih c hc (position_of_mem_children hg.below hp hc) w hw

variable [DecidableEq K]

theorem Lacks.ofKind_eq_nil (hg : g.Lacks k lacking) {place : Place P}
    (h : g.trail place l v = .ok t) (hp : lacking place.position) : ofKind t.visits k = [] :=
  List.filter_eq_nil_iff.2 fun w hw => by simpa using hg.kind_ne h hp w hw

theorem ofKind_record (kind : Option K) (l : Location) (v : Value) (t : Trail K S) (k : K) :
    ofKind (t.record kind l v).visits k =
      (if kind = some k then [⟨k, l, v⟩] else []) ++ ofKind t.visits k := by
  cases kind with
  | none => rfl
  | some kind =>
    by_cases h : kind = k
    · subst h
      simp [Trail.record, ofKind]
    · simp [Trail.record, ofKind, h]

theorem ofKind_below (l : Location) (cs : List (Child P)) (k : K) : ofKind (g.below l cs) k =
    cs.flatMap fun c => ofKind (g.found c.place (l.child c.segment) c.node).visits k :=
  List.filter_flatMap

theorem Lacks.ofKind_below_eq_nil (hg : g.Lacks k lacking) {branches : List (Branch P)}
    (hb : ∀ branch ∈ branches, lacking branch.place.position)
    (hall : ∀ c ∈ branches.flatMap (·.children v), g.trail c.place (l.child c.segment) c.node =
      .ok (g.found c.place (l.child c.segment) c.node)) :
    ofKind (g.below l (branches.flatMap (·.children v))) k = [] := by
  rw [ofKind_below, List.flatMap_eq_nil_iff]
  intro c hc
  obtain ⟨branch, hbranch, hmem⟩ := List.mem_flatMap.1 hc
  refine hg.ofKind_eq_nil (hall c hc) ?_
  rw [Branch.place_of_mem_children hmem]
  exact hb branch hbranch

theorem Operates.ofKind_operation (hg : g.Operates k methods item operation lacking)
    (h : g.trail (.one operation) l v = .ok t) : ofKind t.visits k = [⟨k, l, v⟩] := by
  obtain ⟨branches, hbelow, hform⟩ := hg.operation
  obtain ⟨-, hall, rfl⟩ := (trail_eq_ok_iff (.one operation) (by rw [hform]) (by rw [hform])).1 h
  rw [hform] at hall ⊢
  rw [ofKind_record, if_pos rfl, visits_concat]
  exact congrArg _ (hg.lacks.ofKind_below_eq_nil (hbelow v) hall)

theorem Operates.ofKind_methods (hg : g.Operates k methods item operation lacking)
    (hall : ∀ c ∈ (methods.map (Branch.field · (.one operation))).flatMap (·.children v),
      g.trail c.place (l.child c.segment) c.node =
        .ok (g.found c.place (l.child c.segment) c.node)) :
    ofKind (g.below l ((methods.map (Branch.field · (.one operation))).flatMap (·.children v))) k =
      methods.filterMap fun method => (v.get? method).map fun w => ⟨k, l.child method, w⟩ := by
  rw [ofKind_below, List.filterMap_eq_flatMap_toList, List.flatMap_map, List.flatMap_assoc]
  refine List.flatMap_congr fun method hmethod => ?_
  cases hw : v.get? method with
  | none => simp [Branch.children, hw]
  | some w =>
    have hchild : (⟨method, .one operation, w⟩ : Child P) ∈
        (Branch.field method (.one operation)).children v := by simp [Branch.children, hw]
    have htrail := hall _ (List.mem_flatMap.2 ⟨_, List.mem_map_of_mem hmethod, hchild⟩)
    simp [Branch.children, hw, hg.ofKind_operation htrail]

theorem Operates.ofKind_item (hg : g.Operates k methods item operation lacking)
    (h : g.trail (.one item) l v = .ok t) : ofKind t.visits k =
      if (v.stringAt? "$ref").isSome then []
      else methods.filterMap fun method => (v.get? method).map fun w => ⟨k, l.child method, w⟩ := by
  obtain ⟨kind, rest, hne, hrest, hform⟩ := hg.item
  rcases trail_cases h with ⟨hb, -, -⟩ | ⟨references, hr, rfl⟩ | ⟨hr, -, hall, rfl⟩
  · rw [hform] at hb
    cases hb
  · obtain ⟨reference, href⟩ := ofNode?_of_replacedBy? hr
    have hstring : v.stringAt? "$ref" = some reference := href
    rw [hstring, ofKind, List.filter_cons_of_neg (by simpa using hg.lacks.reference)]
    rfl
  · have hstring : v.stringAt? "$ref" = none :=
      ofNode?_of_not_replacedBy? (by rw [hform]; exact nofun) hr
    rw [hform] at hall ⊢
    simp only [Form.children, List.flatMap_append, List.mem_append] at hall ⊢
    have hmethods := hg.ofKind_methods fun c hc => hall c (.inl hc)
    have hnone := hg.lacks.ofKind_below_eq_nil hrest fun c hc => hall c (.inr hc)
    rw [hstring, ofKind_record, if_neg (by simpa using hne), visits_concat, ofKind_below,
      List.flatMap_append, ← ofKind_below, ← ofKind_below, hmethods, hnone]
    simp

theorem Operates.ofKind_paths (hg : g.Operates k methods item operation lacking)
    (h : g.pathsTrail root = .ok t) :
    ofKind t.visits k = (operations methods root).map fun o => ⟨k, o.1, o.2⟩ := by
  unfold pathsTrail at h
  unfold operations
  split at h
  case h_2 hnone =>
    cases h
    rw [hnone]
    rfl
  case h_1 paths hpaths =>
    have hform := hg.paths
    obtain ⟨hobject, hall, rfl⟩ :=
      (trail_eq_ok_iff (.one g.paths) (by rw [hform]) (by rw [hform])).1 h
    rw [hform] at hall ⊢
    rw [hpaths, ofKind_record, if_neg nofun, visits_concat, ofKind_below]
    cases hms : paths.members? with
    | none => simp [Form.children, Branch.children, hms]
    | some ms =>
      simp only [Form.children, List.flatMap_cons, List.flatMap_nil, List.append_nil,
        Branch.children, hms, Bool.false_or, List.mem_map, List.mem_filter, List.nil_append,
        Option.bind_eq_bind, Option.bind_some, Option.getD_some, List.flatMap_map,
        List.map_flatMap, flatMap_filter] at hall ⊢
      refine List.flatMap_congr fun m hm => ?_
      cases hextension : isExtension m.1 with
      | true => rfl
      | false =>
        have htrail := hall _ ⟨m, ⟨hm, by rw [hextension]; rfl⟩, rfl⟩
        simp only [hg.ofKind_item htrail, Bool.not_false, if_true, Bool.false_or]
        split
        · rfl
        · simp only [List.map_filterMap, Option.map_map]
          rfl

variable [DecidableEq S]

theorem Operates.ofKind_walk (hg : g.Operates k methods item operation lacking)
    {vs : List (Visit K)} (h : g.walk root = .ok vs) :
    ofKind vs k = (operations methods root).map fun o => ⟨k, o.1, o.2⟩ := by
  obtain ⟨top, paths, ms, q, ht, hp, -, hms, rfl, -⟩ := walk_entered h
  have hmembers : ofKind (ms.flatMap g.memberVisits) k = [] := by
    rw [ofKind, List.filter_flatMap, List.flatMap_eq_nil_iff]
    intro m hm
    obtain ⟨t, htrail⟩ := hms.walkable m hm
    rw [memberVisits_eq htrail]
    exact hg.lacks.ofKind_eq_nil htrail (hg.member m.group)
  have hbegun : ofKind (begun top paths).visits k =
      ofKind top.visits k ++ ofKind paths.visits k :=
    List.filter_append ..
  calc ofKind q.visits k
      = ofKind (begun top paths).visits k ++ ofKind (ms.flatMap g.memberVisits) k := by
        rw [hms.visits]
        exact List.filter_append ..
    _ = ofKind paths.visits k := by
        rw [hbegun, hmembers, hg.lacks.ofKind_eq_nil ht hg.root, List.nil_append, List.append_nil]
    _ = (operations methods root).map fun o => ⟨k, o.1, o.2⟩ := hg.ofKind_paths hp

end Grammar

end Walk

end ApiLint
