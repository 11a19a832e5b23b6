import ApiLint.Proofs.Document.Ignored
import ApiLint.Proofs.Walk.PlainWalk
import ApiLint.Proofs.Walk.Separation

/-!
# Walking without some members

When members are taken out of the paths or of a section, the plain walk loses the visits at and
below them and makes the others as before. Other references lead nowhere then, and the members that
they led to are still members of their sections. So the walk through the queue ends with the same
visits, in an order of its own.
-/

namespace ApiLint.Walk

open Json Outcome Ignore

variable {K S P : Type} {g : Grammar K S P} {root : Value} {container names : List String}

namespace Visit

def label (v : Visit K) : K × Location := (v.kind, v.location)

def trim (container names : List String) (v : Visit K) : Visit K :=
  if v.location.segments <+: container then
    ⟨v.kind, v.location, v.node.without (container.drop v.location.segments.length) names⟩
  else v

@[simp] theorem kind_trim (container names : List String) (v : Visit K) :
    (v.trim container names).kind = v.kind := by
  unfold trim
  split <;> rfl

@[simp] theorem location_trim (container names : List String) (v : Visit K) :
    (v.trim container names).location = v.location := by
  unfold trim
  split <;> rfl

theorem trim_of_not_prefix {v : Visit K} (h : ¬ v.location.segments <+: container) :
    v.trim container names = v :=
  if_neg h

end Visit

def cut (container names : List String) (vs : List (Visit K)) : List (Visit K) :=
  (vs.filter fun v => !hides container names v.location).map (Visit.trim container names)

theorem cut_append (vs ws : List (Visit K)) :
    cut container names (vs ++ ws) = cut container names vs ++ cut container names ws := by
  simp only [cut, List.filter_append, List.map_append]

theorem cut_flatMap {A : Type} (xs : List A) (f : A → List (Visit K)) :
    cut container names (xs.flatMap f) = xs.flatMap fun x => cut container names (f x) := by
  simp only [cut, List.filter_flatMap, List.map_flatMap]

theorem cut_cons_of_above (v : Visit K) (h : v.location.segments <+: container)
    (vs : List (Visit K)) : cut container names (v :: vs) =
      ⟨v.kind, v.location, v.node.without (container.drop v.location.segments.length) names⟩ ::
        cut container names vs := by
  simp only [cut, List.filter_cons, hides_above h, Bool.not_false, if_true, List.map_cons,
    Visit.trim, if_pos h]

theorem cut_eq_self {vs : List (Visit K)}
    (h : ∀ v ∈ vs, hides container names v.location = false ∧
      ¬ v.location.segments <+: container) : cut container names vs = vs := by
  have hfilter : (vs.filter fun v => !hides container names v.location) = vs :=
    List.filter_eq_self.2 fun v hv => by simp [(h v hv).1]
  rw [cut, hfilter]
  exact (List.map_congr_left fun v hv => Visit.trim_of_not_prefix (h v hv).2).trans (List.map_id vs)

theorem cut_apart (place : List String) (hp : ¬ place <+: container)
    (hc : ¬ container <+: place) {vs : List (Visit K)}
    (h : ∀ v ∈ vs, place <+: v.location.segments) : cut container names vs = vs := by
  refine cut_eq_self fun v hv => ⟨hides_apart hp hc (h v hv), fun hpre => ?_⟩
  exact hp ((h v hv).trans hpre)

theorem cut_member {name : String} {vs : List (Visit K)}
    (h : ∀ v ∈ vs, container ++ [name] <+: v.location.segments) :
    cut container names vs = if names.contains name then [] else vs := by
  split
  case isTrue hmem =>
    have hall : ∀ v ∈ vs, hides container names v.location = true := by
      intro v hv
      exact hides_iff.2 ⟨name, List.contains_iff_mem.1 hmem, h v hv⟩
    have hnone : (vs.filter fun v => !hides container names v.location) = [] :=
      List.filter_eq_nil_iff.2 fun v hv => by simp [hall v hv]
    rw [cut, hnone]
    rfl
  case isFalse hmem =>
    refine cut_eq_self fun v hv => ⟨?_, fun hpre => ?_⟩
    · rw [Bool.eq_false_iff, Ne, hides_iff]
      rintro ⟨other, hother, hpre⟩
      have hle : (container ++ [other]).length ≤ (container ++ [name]).length := by simp
      have heq := (List.prefix_of_prefix_length_le hpre (h v hv) hle).eq_of_length (by simp)
      obtain rfl : other = name := by simpa using heq
      exact hmem (List.contains_iff_mem.2 hother)
    · have hle := ((h v hv).trans hpre).length_le
      simp only [List.length_append, List.length_singleton] at hle
      omega

theorem cut_parts {A : Type} (name : A → String) (visits : A → List (Visit K)) {xs : List A}
    (h : ∀ x ∈ xs, ∀ v ∈ visits x, container ++ [name x] <+: v.location.segments) :
    cut container names (xs.flatMap visits) =
      (xs.filter fun x => !names.contains (name x)).flatMap visits := by
  induction xs with
  | nil => rfl
  | cons x xs ih =>
    obtain ⟨hx, hxs⟩ := List.forall_mem_cons.1 h
    rw [List.flatMap_cons, cut_append, cut_member hx, ih hxs, List.filter_cons]
    cases names.contains (name x) <;> rfl

theorem flatMap_cut {A : Type} {f : Visit K → List A} {seen : A → Bool} {vs : List (Visit K)}
    (hidden : ∀ v ∈ vs, hides container names v.location = true → (f v).filter seen = [])
    (left : ∀ v ∈ vs, hides container names v.location = false →
      f (v.trim container names) = (f v).filter seen) :
    (cut container names vs).flatMap f = (vs.flatMap f).filter seen := by
  induction vs with
  | nil => rfl
  | cons v vs ih =>
    obtain ⟨hv, hvs⟩ := List.forall_mem_cons.1 hidden
    obtain ⟨lv, lvs⟩ := List.forall_mem_cons.1 left
    have hrest : ((vs.filter fun v => !hides container names v.location).map
        (Visit.trim container names)).flatMap f = (vs.flatMap f).filter seen := ih hvs lvs
    rw [List.flatMap_cons, List.filter_append, cut, List.filter_cons]
    cases h : hides container names v.location with
    | true =>
      rw [hv h]
      exact hrest
    | false =>
      rw [← lv h, ← hrest]
      rfl

theorem Shape.fits_without (shape : Shape) (v : Value) :
    shape.fits (v.without container names) = shape.fits v := by
  cases shape with
  | object => exact Value.isSome_members?_modifyMembers _ _ v
  | array => exact congrArg Option.isSome (Value.items?_modifyMembers _ _ v)

theorem Form.mismatch?_without (form : Form K S P) (v : Value) :
    form.mismatch? (v.without container names) = form.mismatch? v := by
  simp only [mismatch?, Shape.fits_without]

namespace Grammar

/-- The container has members that may be taken out: it is that of the paths, or a section. -/
def Loses (g : Grammar K S P) (container : List String) : Prop :=
  container = ["paths"] ∨ ∃ s, container = g.container s

/-- What stands at the top does not depend on what may be taken out. -/
structure Rooted (g : Grammar K S P) : Prop where
  root : (g.form g.root).boolean = false ∧ (g.form g.root).replacement = .never
  branches : ∀ v w, (g.form g.root).branches v = (g.form g.root).branches w
  paths : ∃ extensions place, ∀ v, (g.form g.paths).branches v = [.members extensions place]

theorem Loses.exists_cons (h : g.Loses container) :
    ∃ key rest, container = key :: rest ∧ key ∈ g.starts := by
  rcases h with rfl | ⟨s, rfl⟩
  · exact ⟨"paths", [], rfl, List.mem_cons_self⟩
  · cases hc : g.container s with
    | nil => simp [Grammar.container] at hc
    | cons key rest =>
      refine ⟨key, rest, rfl, List.mem_cons_of_mem _ ?_⟩
      exact List.mem_filterMap.2 ⟨s, g.mem_sections s, by rw [hc]; rfl⟩

theorem Separated.exists_container_cons (hg : g.Separated) (s : S) :
    ∃ key rest, g.container s = key :: rest ∧ "paths" ≠ key := by
  cases hc : g.container s with
  | nil => simp [Grammar.container] at hc
  | cons key rest =>
    refine ⟨key, rest, rfl, fun hkey => hg.heads s ?_⟩
    rw [hc, hkey]
    rfl

def below (g : Grammar K S P) (l : Location) (cs : List (Child P)) : List (Visit K) :=
  cs.flatMap fun c => (g.found c.place (l.child c.segment) c.node).visits

theorem visits_concat (l : Location) (cs : List (Child P)) :
    (Trail.concat (cs.map fun c => g.found c.place (l.child c.segment) c.node)).visits =
      g.below l cs := by
  simp only [Trail.concat, List.flatMap_map, below]

variable (names) in
theorem field_without (hg : g.Separated) (hc : g.Loses container) {branch : Branch P}
    (hb : branch ∈ (g.form g.root).branches root)
    (hall : ∀ c ∈ branch.children root, g.trail c.place (Location.root.child c.segment) c.node =
      .ok (g.found c.place (Location.root.child c.segment) c.node)) :
    (∀ c ∈ branch.children (root.without container names),
      g.trail c.place (Location.root.child c.segment) c.node =
        .ok (g.found c.place (Location.root.child c.segment) c.node)) ∧
    g.below .root (branch.children (root.without container names)) =
      cut container names (g.below .root (branch.children root)) := by
  obtain ⟨key, place, rfl, hleaf⟩ := hg.leaves root branch hb
  obtain ⟨start, rest, rfl, hstart⟩ := hc.exists_cons
  by_cases hkey : key = start
  case pos =>
    -- The member that holds the container is a leaf, and it is recorded as it is now.
    subst hkey
    obtain ⟨k, hk⟩ := hleaf hstart
    have hchildren : (Branch.field key place).children (root.without (key :: rest) names) =
        ((Branch.field key place).children root).map fun c =>
          ⟨c.segment, c.place, c.node.without rest names⟩ := by
      simp only [Branch.children, Value.get?_without_cons, if_true]
      cases root.get? key <;> rfl
    rw [hchildren]
    constructor
    · intro c hc
      obtain ⟨d, hd, rfl⟩ := List.mem_map.1 hc
      obtain ⟨rfl, rfl⟩ := Branch.eq_of_mem_children_field hd
      rw [found_eq (trail_leaf hk _ _), trail_leaf hk]
    · cases hw : root.get? key with
      | none => simp [Branch.children, hw, below, cut]
      | some w =>
        have hpre : (Location.root.child key).segments <+: key :: rest := by simp
        simp only [Branch.children, hw, List.map_cons, List.map_nil, below, List.flatMap_cons,
          List.flatMap_nil, List.append_nil, found_eq (trail_leaf hk _ _)]
        exact (cut_cons_of_above ⟨k, Location.root.child key, w⟩ hpre []).symm
  case neg =>
    have hchildren : (Branch.field key place).children (root.without (start :: rest) names) =
        (Branch.field key place).children root := by
      simp only [Branch.children, Value.get?_without_cons, if_neg hkey]
    rw [hchildren]
    refine ⟨hall, (cut_apart [key] ?_ ?_ ?_).symm⟩
    · simp [hkey]
    · simp [Ne.symm hkey]
    · intro v hv
      obtain ⟨c, hmem, hw⟩ := List.mem_flatMap.1 hv
      have hpre := prefix_of_mem_visits (hall c hmem) v hw
      rwa [(Branch.eq_of_mem_children_field hmem).1] at hpre

variable (names) in
theorem top_without (hg : g.Separated) (hr : g.Rooted) (hc : g.Loses container)
    {top : Trail K S} (h : g.trail (.one g.root) .root root = .ok top) :
    ∃ t, g.trail (.one g.root) .root (root.without container names) = .ok t ∧
      t.visits = cut container names top.visits := by
  obtain ⟨hboolean, hreplacement⟩ := hr.root
  obtain ⟨hfit, hall, rfl⟩ := (trail_eq_ok_iff (.one g.root) hboolean hreplacement).1 h
  have hfields : ∀ branch ∈ (g.form g.root).branches root, _ := fun branch hb =>
    field_without names hg hc hb fun c hmem =>
      hall c (List.mem_flatMap.2 ⟨branch, hb, hmem⟩)
  have hbelow : g.below .root ((g.form g.root).children (root.without container names)) =
      cut container names (g.below .root ((g.form g.root).children root)) := by
    simp only [below, Form.children, List.flatMap_assoc, cut_flatMap]
    rw [hr.branches (root.without container names) root]
    refine List.flatMap_congr fun branch hb => ?_
    have hbranch := (hfields branch hb).2
    simp only [below, cut_flatMap] at hbranch
    exact hbranch
  refine ⟨_, (trail_eq_ok_iff (.one g.root) hboolean hreplacement).2
    ⟨?_, fun c hmem => ?_, rfl⟩, ?_⟩
  · exact (Form.mismatch?_without _ root).trans hfit
  · obtain ⟨branch, hb, hmem⟩ := List.mem_flatMap.1 hmem
    have hb : branch ∈ (g.form g.root).branches (root.without container names) := hb
    rw [hr.branches _ root] at hb
    exact (hfields branch hb).1 c hmem
  · cases hk : (g.form g.root).kind with
    | none =>
      simp only [formOf, hk, Trail.record, visits_concat]
      exact hbelow
    | some k =>
      simp only [formOf, hk, Trail.record, visits_concat, hbelow]
      exact (cut_cons_of_above ⟨k, .root, root⟩ List.nil_prefix _).symm

theorem children_without_nil (extensions : Bool) (place : Place P) (v : Value) :
    (Branch.members extensions place).children (v.without [] names) =
      ((Branch.members extensions place).children v).filter fun c =>
        !names.contains c.segment := by
  simp only [Branch.children, Value.without, Value.members?_modifyMembers_nil]
  cases v.members? with
  | none => rfl
  | some ms =>
    simp only [Option.map_some, removeNames, List.filter_map, List.filter_filter]
    congr 1
    refine List.filter_congr fun m _ => ?_
    exact Bool.and_comm _ _

variable (names) in
theorem paths_without (hg : g.Separated) (hr : g.Rooted) (hc : g.Loses container)
    {paths : Trail K S} (h : g.pathsTrail root = .ok paths) :
    ∃ t, g.pathsTrail (root.without container names) = .ok t ∧
      t.visits = cut container names paths.visits := by
  rcases hc with rfl | ⟨s, rfl⟩
  case inl =>
    obtain ⟨hboolean, hreplacement, hkind⟩ := hg.paths
    obtain ⟨extensions, place, hbranches⟩ := hr.paths
    have hchildren : ∀ v, (g.formOf (.one g.paths)).children v =
        (Branch.members extensions place).children v := by
      intro v
      simp only [formOf, Form.children, hbranches, List.flatMap_cons, List.flatMap_nil,
        List.append_nil]
    have hrecord : ∀ (l : Location) (v : Value) (t : Trail K S),
        t.record (g.formOf (.one g.paths)).kind l v = t := by
      intro l v t
      rw [formOf, hkind]
      rfl
    unfold pathsTrail at h ⊢
    rw [Value.get?_without_cons, if_pos rfl]
    cases hv : root.get? "paths" with
    | none =>
      rw [hv] at h
      cases h
      exact ⟨_, rfl, rfl⟩
    | some v =>
      rw [hv] at h
      obtain ⟨hfit, hall, rfl⟩ := (trail_eq_ok_iff (.one g.paths) hboolean hreplacement).1 h
      refine ⟨_, (trail_eq_ok_iff (.one g.paths) hboolean hreplacement).2
        ⟨(Form.mismatch?_without _ v).trans hfit, fun c hmem => ?_, rfl⟩, ?_⟩
      · rw [hchildren, children_without_nil] at hmem
        rw [hchildren] at hall
        exact hall c (List.mem_filter.1 hmem).1
      · simp only [hrecord, visits_concat, hchildren, children_without_nil] at hall ⊢
        exact (cut_parts Child.segment _ fun c hmem => prefix_of_mem_visits (hall c hmem)).symm
  case inr =>
    -- The paths are in another place than the section.
    obtain ⟨key, rest, hcons, hne⟩ := hg.exists_container_cons s
    refine ⟨paths, ?_, (cut_apart ["paths"] ?_ ?_ fun v hv => ?_).symm⟩
    · rw [← h, pathsTrail, pathsTrail, hcons, Value.get?_without_cons, if_neg hne]
    · simp [hcons, hne]
    · simp [hcons, Ne.symm hne]
    · obtain ⟨name, rest, hsegments⟩ := hg.paths_visits h hv
      rw [hsegments]
      exact List.prefix_append ["paths"] (name :: rest)

theorem container_eq_of_within {s t : S} {name : String}
    (h : g.container t <+: g.container s ++ [name]) : g.container t = g.container s := by
  have hle : (g.container t).length ≤ (g.container s).length := by simp [Grammar.container]
  have hpre := List.prefix_of_prefix_length_le h (List.prefix_append _ _) hle
  exact hpre.eq_of_length (by simp [Grammar.container])

theorem Loses.eq_paths (hg : g.Separated) (hc : g.Loses container)
    (h : ["paths"] <+: container) : container = ["paths"] := by
  rcases hc with rfl | ⟨s, rfl⟩
  · rfl
  · obtain ⟨key, rest, hcons, hne⟩ := hg.exists_container_cons s
    rw [hcons] at h
    exact absurd (List.cons_prefix_cons.1 h).1 hne

theorem Loses.apart (hg : g.Separated) (hc : g.Loses container) {s : S}
    (hne : container ≠ g.container s) (name : String) :
    ¬ g.container s ++ [name] <+: container ∧ ¬ container <+: g.container s ++ [name] := by
  rcases hc with rfl | ⟨t, rfl⟩
  · obtain ⟨key, rest, hcons, hkey⟩ := hg.exists_container_cons s
    simp [hcons, hkey, Ne.symm hkey]
  · refine ⟨fun h => ?_, fun h => hne (container_eq_of_within h)⟩
    have hle := h.length_le
    simp only [Grammar.container, List.length_append, List.length_singleton] at hle
    omega

theorem descend?_without_of_ne (hg : g.Separated) (hc : g.Loses container) {s : S}
    (hne : container ≠ g.container s) :
    (root.without container names).descend? (g.container s) = root.descend? (g.container s) := by
  rcases hc with rfl | ⟨t, rfl⟩
  · obtain ⟨key, rest, hcons, hkey⟩ := hg.exists_container_cons s
    rw [hcons]
    exact Value.descend?_modifyMembers_of_head_ne (Ne.symm hkey) _ [] rest root
  · have hkey : g.key s ≠ g.key t := by
      intro h
      exact hne (by rw [Grammar.container, Grammar.container, h])
    exact Value.descend?_modifyMembers_of_last_ne hkey _ g.holder root

theorem membersOf_without (hg : g.Separated) (hc : g.Loses container) (s : S) :
    g.membersOf (root.without container names) s =
      if container = g.container s then
        (g.membersOf root s).filter fun m => !names.contains m.name
      else g.membersOf root s := by
  split
  case isTrue heq =>
    subst heq
    have hmembers : ((root.without (g.container s) names).descend? (g.container s) >>=
        Value.members?) =
        (root.descend? (g.container s) >>= Value.members?).map (removeNames names) := by
      rw [Value.descend?_without_self]
      cases root.descend? (g.container s) with
      | none => rfl
      | some v => exact Value.members?_modifyMembers_nil _ v
    rw [membersOf, membersOf, hmembers]
    cases root.descend? (g.container s) >>= Value.members? with
    | none => rfl
    | some ms => simp only [Option.map_some, removeNames, List.filter_map]; rfl
  case isFalse hne => rw [membersOf, membersOf, descend?_without_of_ne hg hc hne]

theorem mem_members_without (hg : g.Separated) (hc : g.Loses container) {m : Member S}
    (h : m ∈ g.members (root.without container names)) : m ∈ g.members root := by
  rw [mem_members_iff, membersOf_without hg hc] at h
  rw [mem_members_iff]
  split at h
  · exact (List.mem_filter.1 h).1
  · exact h

theorem members_without (hg : g.Separated) (hc : g.Loses container) :
    (g.members (root.without container names)).flatMap g.memberVisits =
      cut container names ((g.members root).flatMap g.memberVisits) := by
  simp only [members, List.flatMap_assoc, cut_flatMap]
  refine List.flatMap_congr fun s _ => ?_
  have hbelow : ∀ m ∈ g.membersOf root s, ∀ v ∈ g.memberVisits m,
      g.container s ++ [m.name] <+: v.location.segments := by
    intro m hm v hv
    have hpre := prefix_of_mem_memberVisits hv
    rwa [(mem_membersOf_iff.1 hm).2.1] at hpre
  rw [membersOf_without hg hc]
  split
  case isTrue heq =>
    subst heq
    rw [← cut_flatMap, cut_parts Member.name g.memberVisits hbelow]
  case isFalse hne =>
    refine List.flatMap_congr fun m hm => ?_
    obtain ⟨hm₁, hm₂⟩ := hc.apart hg hne m.name
    exact (cut_apart _ hm₁ hm₂ (hbelow m hm)).symm

theorem SectionsFit.without (h : g.SectionsFit root) :
    g.SectionsFit (root.without container names) := by
  intro holder' hh
  obtain ⟨holder, hh, ht⟩ := (Value.trimmed_without container names root).descend? hh
  obtain ⟨hobject, hsections⟩ := h holder hh
  refine ⟨ht.isSome_members?.trans hobject, fun s v' hv => ?_⟩
  obtain ⟨v, hv, htv⟩ := ht.get? hv
  exact htv.isSome_members?.trans (hsections s v hv)

variable (names) in
theorem plainWalk_without (hg : g.Separated) (hr : g.Rooted) (hc : g.Loses container)
    {vs : List (Visit K)} (h : g.plainWalk root = .ok vs) :
    g.plainWalk (root.without container names) = .ok (cut container names vs) := by
  obtain ⟨top, paths, ht, hp, hfit, hall, rfl⟩ := plainWalk_eq_ok_iff.1 h
  obtain ⟨top', ht', htop⟩ := top_without names hg hr hc ht
  obtain ⟨paths', hp', hpaths⟩ := paths_without names hg hr hc hp
  refine plainWalk_eq_ok_iff.2 ⟨top', paths', ht', hp', hfit.without, fun m hm => ?_, ?_⟩
  · exact hall m (mem_members_without hg hc hm)
  · simp only [Trail.visits_append, cut_append, htop, hpaths, members_without hg hc]

variable (names) in
theorem walk_without [DecidableEq S] (hg : g.Separated) (hr : g.Rooted) (hc : g.Loses container)
    (hd : root.Distinct) {vs : List (Visit K)} (h : g.walk root = .ok vs) :
    ∃ ws, g.walk (root.without container names) = .ok ws ∧ ws.Perm (cut container names vs) := by
  have hd' : (root.without container names).Distinct :=
    hd.modifyMembers fun _ => List.filter_sublist
  obtain ⟨us, hu⟩ := exists_plainWalk_iff.2 ((exists_walk_iff hg.sections hd).1 ⟨vs, h⟩)
  have hu' := plainWalk_without names hg hr hc hu
  obtain ⟨ws, hw⟩ := (exists_walk_iff hg.sections hd').2 (exists_plainWalk_iff.1 ⟨_, hu'⟩)
  refine ⟨ws, hw, (walk_perm hg.sections hd' hw hu').trans ?_⟩
  exact (((walk_perm hg.sections hd h hu).filter _).map _).symm

/-- What is observed of a walk, and loses what a container hides, loses what all of them hide. -/
theorem walk_withoutAll [DecidableEq S] (hg : g.Separated) (hr : g.Rooted) {A : Type}
    (observe : List (Visit K) → List A) (place : A → Location)
    (hstep : ∀ (d : Value) container names vs ws, d.Distinct → g.Loses container →
      g.walk d = .ok vs → ws.Perm (cut container names vs) →
      (observe ws).Perm ((observe vs).filter fun a => !hides container names (place a)))
    {ls : List (List String × List String)} (hls : ∀ l ∈ ls, g.Loses l.1) {d : Value}
    (hd : d.Distinct) {vs : List (Visit K)} (h : g.walk d = .ok vs) :
    ∃ ws, g.walk (withoutAll ls d) = .ok ws ∧ (observe ws).Perm
      ((observe vs).filter fun a => !ls.any fun l => hides l.1 l.2 (place a)) := by
  induction ls generalizing d vs with
  | nil => exact ⟨vs, h, by simp⟩
  | cons l ls ih =>
    obtain ⟨hl, hls⟩ := List.forall_mem_cons.1 hls
    obtain ⟨us, hu, hus⟩ := walk_without l.2 hg hr hl hd h
    have hd' : (d.without l.1 l.2).Distinct := hd.modifyMembers fun _ => List.filter_sublist
    obtain ⟨ws, hw, hws⟩ := ih hls hd' hu
    refine ⟨ws, hw, hws.trans ?_⟩
    have hrest := (hstep d l.1 l.2 vs us hd hl h hus).filter
      fun a => !ls.any fun l => hides l.1 l.2 (place a)
    rw [List.filter_filter] at hrest
    simpa [Bool.and_comm] using hrest

def Above (g : Grammar K S P) (root : Value) (l : Location) (k : K) : Prop :=
  (l = .root ∧ (g.form g.root).kind = some k) ∨
  ∃ key place, .field key place ∈ (g.form g.root).branches root ∧ l = Location.root.child key ∧
    g.formOf place = { kind := some k }

theorem above_of_mem_top (hg : g.Separated) (hr : g.Rooted) (hc : g.Loses container)
    {top : Trail K S} (h : g.trail (.one g.root) .root root = .ok top) {v : Visit K}
    (hv : v ∈ top.visits) (hpre : v.location.segments <+: container) :
    g.Above root v.location v.kind := by
  obtain ⟨hboolean, hreplacement⟩ := hr.root
  obtain ⟨-, hall, rfl⟩ := (trail_eq_ok_iff (.one g.root) hboolean hreplacement).1 h
  obtain ⟨start, rest, rfl, hstart⟩ := hc.exists_cons
  rcases Trail.mem_visits_record hv with ⟨k, hk, rfl⟩ | hv
  · exact .inl ⟨rfl, hk⟩
  · obtain ⟨t, ht, hv⟩ := List.mem_flatMap.1 hv
    obtain ⟨c, hc, rfl⟩ := List.mem_map.1 ht
    obtain ⟨branch, hbranch, hchild⟩ := List.mem_flatMap.1 hc
    obtain ⟨key, place, rfl, hleaf⟩ := hg.leaves root branch hbranch
    obtain ⟨rfl, rfl⟩ := Branch.eq_of_mem_children_field hchild
    have hbelow := (prefix_of_mem_visits (hall c hc) v hv).trans hpre
    obtain rfl : c.segment = start := (List.cons_prefix_cons.1 hbelow).1
    obtain ⟨k, hk⟩ := hleaf hstart
    rw [found_eq (trail_leaf hk _ _)] at hv
    obtain rfl := List.mem_singleton.1 hv
    exact .inr ⟨c.segment, c.place, hbranch, rfl, hk⟩

theorem above_of_mem_walk [DecidableEq S] (hg : g.Separated) (hr : g.Rooted)
    (hc : g.Loses container) {vs : List (Visit K)} (h : g.walk root = .ok vs) {v : Visit K}
    (hv : v ∈ vs) (hpre : v.location.segments <+: container) :
    g.Above root v.location v.kind := by
  obtain ⟨top, paths, ms, q, ht, hp, -, hms, rfl, -⟩ := walk_entered h
  rw [hms.visits] at hv
  rcases List.mem_append.1 hv with hv | hv
  · rcases List.mem_append.1 hv with hv | hv
    · exact above_of_mem_top hg hr hc ht hv hpre
    · -- The nodes below the paths are too far down for the container of the paths.
      obtain ⟨name, rest, hsegments⟩ := hg.paths_visits hp hv
      rw [hsegments] at hpre
      rcases hc with rfl | ⟨s, rfl⟩
      · have hle := hpre.length_le
        simp at hle
      · obtain ⟨key, _, hcons, hne⟩ := hg.exists_container_cons s
        rw [hcons] at hpre
        exact absurd (List.cons_prefix_cons.1 hpre).1 hne
  · obtain ⟨m, hm, hv⟩ := List.mem_flatMap.1 hv
    have hbelow := (prefix_of_mem_memberVisits hv).trans hpre
    rw [location_of_mem_members (hms.mem_members m hm)] at hbelow
    by_cases heq : container = g.container m.group
    · have hle := hbelow.length_le
      simp only [heq, List.length_append, List.length_singleton] at hle
      omega
    · exact absurd hbelow (hc.apart hg heq m.name).1

end Grammar

end ApiLint.Walk
