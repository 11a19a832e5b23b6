import ApiLint.Proofs.Walk.Without

/-!
# Failures

A walk fails on the trail of one of its parts, or at what should hold the sections or be one. The
error names a node of the document, at its own place, that does not have the shape that is required
there. What lies below a container is walked through an object only, so an error below it leads
through one of its members.
-/

namespace ApiLint.Walk

open Json Outcome Ignore

variable {K S P : Type} {g : Grammar K S P} {root : Value} {e : ShapeError}

/-- The location leads to a node of the document, and this node does not have the shape. -/
def ShapeError.Truthful (e : ShapeError) (document : Value) : Prop :=
  ∃ v, document.at? e.location.segments = some v ∧ e.expected.fits v = false

namespace Grammar

theorem fits_of_mismatch? {form : Form K S P} {v : Value} {shape : Shape}
    (h : form.mismatch? v = some shape) : shape.fits v = false := by
  unfold Form.mismatch? at h
  split at h
  case h_2 => cases h
  case h_1 required _ =>
    split at h
    case isTrue => cases h
    case isFalse hfit =>
      obtain rfl := Option.some.inj h
      exact Bool.eq_false_iff.2 hfit

theorem trail_error_cases {place : Place P} {l : Location} {v : Value}
    (h : g.trail place l v = .error e) :
    (e.location = l ∧ e.expected.fits v = false) ∨
      ∃ c ∈ (g.formOf place).children v,
        g.trail c.place (l.child c.segment) c.node = .error e := by
  rw [trail_eq] at h
  split at h
  case isTrue => cases h
  case isFalse =>
    split at h
    case h_1 => cases h
    case h_2 =>
      split at h
      case h_1 shape hshape =>
        cases h
        exact .inl ⟨rfl, fits_of_mismatch? hshape⟩
      case h_2 => exact .inr (exists_of_mapM_eq_error (map_eq_error_iff.1 h))

theorem prefix_of_trail_error {place : Place P} {l : Location} {v : Value}
    (h : g.trail place l v = .error e) : l.segments <+: e.location.segments := by
  rcases trail_error_cases h with ⟨rfl, -⟩ | ⟨c, hc, hchild⟩
  · exact List.prefix_rfl
  · have := Form.sizeOf_lt_of_mem_children hc
    exact (List.prefix_append _ _).trans (prefix_of_trail_error hchild)
termination_by sizeOf v

theorem truthful_of_trail {place : Place P} {l : Location} {v : Value}
    (h : g.trail place l v = .error e) (hv : v.Distinct) (hl : root.at? l.segments = some v) :
    e.Truthful root := by
  rcases trail_error_cases h with ⟨rfl, hfits⟩ | ⟨c, hc, hchild⟩
  · exact ⟨v, hl, hfits⟩
  · obtain ⟨hsegment, hd⟩ := Form.child?_of_mem_children hv hc
    have hstep : v.at? [c.segment] = some c.node :=
      Option.bind_eq_some_iff.2 ⟨c.node, hsegment, rfl⟩
    have := Form.sizeOf_lt_of_mem_children hc
    exact truthful_of_trail hchild hd (Value.at?_append_eq_some hl hstep)
termination_by sizeOf v

theorem Part.at? {place : Place P} {l : Location} {v : Value} (h : g.Part root place l v)
    (hd : root.Distinct) : root.at? l.segments = some v := by
  cases h with
  | top => rfl
  | paths hv => exact Option.bind_eq_some_iff.2 ⟨v, Value.child?_of_get? hv, rfl⟩
  | member hm => exact at?_of_mem_members hd hm

/-- Where a walk fails: on the trail of a part, or at something that objects lead to and that would
have to be one too. -/
inductive Fails (g : Grammar K S P) (root : Value) (e : ShapeError) : Prop where
  | onTrail {place : Place P} {l : Location} {v : Value} (part : g.Part root place l v)
    (failed : g.trail place l v = .error e) : Fails g root e
  | atHolder {v : Value} (found : root.descend? e.location.segments = some v)
    (expected : e.expected = .object) (misfit : Shape.object.fits v = false) : Fails g root e

theorem fails_of_sectionMembers {holder : Value} (hh : root.descend? g.holder = some holder)
    {s : S} (h : g.sectionMembers holder s = .error e) : g.Fails root e := by
  unfold sectionMembers at h
  split at h
  case h_1 => cases h
  case h_2 v hv =>
    split at h
    case h_1 => cases h
    case h_2 hm =>
      cases h
      refine .atHolder ((descend?_container hh s).trans hv) rfl ?_
      rw [Shape.fits, hm]
      rfl

variable [DecidableEq S]

theorem fails_of_enter {p : Progress K S} {m : Member S} (hm : m ∈ g.members root)
    (h : g.enter p m = .error e) : g.Fails root e := by
  by_cases hmem : m.key ∈ p.expanded
  · rw [enter_of_mem hmem] at h
    cases h
  · rw [enter_of_not_mem hmem] at h
    exact .onTrail (.member hm) (map_eq_error_iff.1 h)

theorem fails_of_drain {p : Progress K S} (h : g.drain root p = .error e) : g.Fails root e := by
  fun_induction drain g root p with
  | case1 => cases h
  | case2 _ _ _ _ _ _ ih => exact ih h
  | case3 p s reference rest hp m ht e' he =>
    cases h
    exact fails_of_enter (mem_members_of_target? ht).2 he
  | case4 _ _ _ _ _ _ _ _ _ ih => exact ih h

theorem fails_of_expandSections {p : Progress K S} (h : g.expandSections root p = .error e) :
    g.Fails root e := by
  unfold expandSections at h
  split at h
  case h_1 => cases h
  case h_2 holder hh =>
    split at h
    case isFalse hfit =>
      cases h
      exact .atHolder hh rfl (Bool.eq_false_iff.2 hfit)
    case isTrue =>
      obtain ⟨_, s, _, q, -, -, hs⟩ := foldlM_eq_error_iff.1 h
      rcases bind_eq_error_iff.1 hs with hsection | ⟨ms, hms, hs⟩
      · exact fails_of_sectionMembers hh hsection
      · obtain ⟨before, m, after, r, hsplit, -, hm⟩ := foldlM_eq_error_iff.1 hs
        obtain ⟨-, rfl⟩ := (sectionMembers_eq_ok_iff hh).1 hms
        have hmem : m ∈ g.membersOf root s := by simp [hsplit]
        exact fails_of_enter (List.mem_flatMap.2 ⟨s, g.mem_sections s, hmem⟩) hm

theorem fails_of_walk (h : g.walk root = .error e) : g.Fails root e := by
  rw [walk_eq, map_eq_error_iff] at h
  rcases bind_eq_error_iff.1 h with htop | ⟨top, -, h⟩
  · exact .onTrail .top htop
  rcases bind_eq_error_iff.1 h with hpaths | ⟨paths, -, h⟩
  · unfold pathsTrail at hpaths
    split at hpaths
    case h_1 v hv => exact .onTrail (.paths hv) hpaths
    case h_2 => cases hpaths
  rcases bind_eq_error_iff.1 h with hreached | ⟨reached, -, h⟩
  · exact fails_of_drain hreached
  rcases bind_eq_error_iff.1 h with hexpanded | ⟨expanded, -, hrest⟩
  · exact fails_of_expandSections hexpanded
  · exact fails_of_drain hrest

theorem truthful_of_walk (hd : root.Distinct) (h : g.walk root = .error e) : e.Truthful root := by
  cases fails_of_walk h with
  | onTrail part failed => exact truthful_of_trail failed (part.distinct hd) (part.at? hd)
  | atHolder found expected misfit =>
    exact ⟨_, Value.at?_of_descend? found, by rw [expected, misfit]⟩

omit [DecidableEq S] in
theorem Separated.top_error (hg : g.Separated) (h : g.trail (.one g.root) .root root = .error e)
    {key : String} (hkey : key ∈ g.starts) (rest : List String) :
    e.location.segments ≠ key :: rest := by
  intro hl
  rcases trail_error_cases h with ⟨hroot, -⟩ | ⟨c, hc, hchild⟩
  · rw [hroot] at hl
    cases hl
  · have hprefix := prefix_of_trail_error hchild
    rw [hl] at hprefix
    obtain rfl : c.segment = key := (List.cons_prefix_cons.1 hprefix).1
    obtain ⟨branch, hbranch, hmem⟩ := List.mem_flatMap.1 hc
    obtain ⟨key, place, rfl, hleaf⟩ := hg.leaves root branch hbranch
    obtain ⟨rfl, rfl⟩ := Branch.eq_of_mem_children_field hmem
    obtain ⟨k, hk⟩ := hleaf hkey
    rw [trail_leaf hk] at hchild
    cases hchild

omit [DecidableEq S] in
theorem Rooted.exists_path_of_error (hr : g.Rooted) {v : Value} (hv : v.Distinct)
    (h : g.trail (.one g.paths) (Location.root.child "paths") v = .error e) {name : String}
    {rest : List String} (hl : e.location.segments = "paths" :: name :: rest) :
    (v.get? name).isSome := by
  rcases trail_error_cases h with ⟨hpaths, -⟩ | ⟨c, hc, hchild⟩
  · rw [hpaths] at hl
    cases hl
  · have hprefix := prefix_of_trail_error hchild
    rw [hl] at hprefix
    obtain rfl : c.segment = name :=
      (List.cons_prefix_cons.1 (List.cons_prefix_cons.1 hprefix).2).1
    obtain ⟨extensions, place, hbranches⟩ := hr.paths
    have hmem : c ∈ (Branch.members extensions place).children v := by
      simpa [formOf, Form.children, hbranches] using hc
    have hobject : v.members?.isSome := by
      cases hm : v.members? with
      | none => simp [Branch.children, hm] at hmem
      | some ms => rfl
    rw [← Value.child?_eq_get? hobject, (Branch.child?_of_mem_children hv hmem).1]
    rfl

omit [DecidableEq S] in
theorem Loses.length_le {container : List String} (hc : g.Loses container) (s : S) :
    container.length ≤ (g.container s).length := by
  rcases hc with rfl | ⟨t, rfl⟩ <;> simp [Grammar.container]

theorem exists_member_of_walk_error (hg : g.Separated) (hr : g.Rooted) (hd : root.Distinct)
    (h : g.walk root = .error e) {container : List String} (hc : g.Loses container) {name : String}
    (hpre : container ++ [name] <+: e.location.segments) :
    (root.descend? (container ++ [name])).isSome := by
  have hway : ∀ {way : List String} {v : Value}, root.descend? way = some v →
      container ++ [name] <+: way → (root.descend? (container ++ [name])).isSome := by
    rintro _ v hv ⟨rest, rfl⟩
    rw [Value.descend?_append] at hv
    obtain ⟨w, hw, -⟩ := Option.bind_eq_some_iff.1 hv
    rw [hw]
    rfl
  cases fails_of_walk h with
  | atHolder found => exact hway found hpre
  | onTrail part failed =>
    cases part with
    | top =>
      obtain ⟨key, rest, rfl, hkey⟩ := hc.exists_cons
      obtain ⟨more, hmore⟩ := hpre
      exact absurd hmore.symm (hg.top_error failed hkey _)
    | @paths v hv =>
      obtain ⟨more, hmore⟩ := hpre
      rcases hc with rfl | ⟨s, rfl⟩
      · change (root.descend? ["paths", name]).isSome
        rw [Value.descend?_cons, hv, Option.bind_eq_bind, Option.bind_some,
          Value.descend?_singleton]
        exact hr.exists_path_of_error (hd.of_get? hv) failed hmore.symm
      · obtain ⟨_, hpaths⟩ := prefix_of_trail_error failed
        obtain ⟨key, rest, hcons, hne⟩ := hg.exists_container_cons s
        rw [← hmore, hcons] at hpaths
        exact absurd (List.cons.inj hpaths).1 hne
    | @member m hm =>
      -- No container is deeper than a member, so the way to the member leads through it.
      have hle : (container ++ [name]).length ≤ m.location.segments.length := by
        rw [location_of_mem_members hm]
        simpa using hc.length_le m.group
      refine hway (descend?_of_mem_members hd hm) ?_
      exact List.prefix_of_prefix_length_le hpre (prefix_of_trail_error failed) hle

end Grammar

end ApiLint.Walk
