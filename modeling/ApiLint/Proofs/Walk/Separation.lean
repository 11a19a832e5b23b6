import ApiLint.Proofs.Walk.Entering

/-!
# Separate places

The parts of a walk stand in different places of the document: below the root, below the paths, and
at the members of the sections. What the root says of the paths and of the sections is recorded
without looking into them. The members of sections stand apart from one another, each is walked
once, and no location is recorded twice.
-/

namespace ApiLint.Walk

open Json Outcome

variable {K S P : Type} {g : Grammar K S P} {root : Value}

namespace Branch

def key? : Branch P → Option String
  | field key _ => some key
  | _ => none

/-- The children of these branches are told apart by their segments: there is one branch, or each
leads to one child under a key of its own. -/
def Apart (branches : List (Branch P)) : Prop :=
  branches.length = 1 ∨ (∀ branch ∈ branches, branch.key?.isSome) ∧ (branches.filterMap key?).Nodup

instance (branches : List (Branch P)) : Decidable (Apart branches) :=
  inferInstanceAs (Decidable (_ ∨ _))

theorem nodup_segments {v : Value} (hv : v.Distinct) (branch : Branch P) :
    ((branch.children v).map Child.segment).Nodup := by
  cases branch with
  | field key place => cases hw : v.get? key <;> simp [children, hw]
  | members extensions place =>
    cases hm : v.members? with
    | none => simp [children, hm]
    | some ms =>
      have hfilter : (ms.filter fun m => extensions || !isExtension m.1).Sublist ms :=
        List.filter_sublist
      have hkeys := (hv.nodup_keys hm).sublist (hfilter.map Prod.fst)
      simpa [children, hm, Function.comp_def] using hkeys
  | elements place =>
    cases hx : v.items? with
    | none => simp [children, hx]
    | some xs =>
      have hn : (xs.zipIdx.map Prod.snd).Nodup := by
        rw [List.zipIdx_map_snd]
        exact List.nodup_range'
      have hrepr := hn.map (f := Nat.repr) fun _ _ => eq_of_repr_eq
      rw [List.map_map] at hrepr
      simp only [children, hx, List.map_map]
      exact hrepr

theorem Apart.nodup_segments {branches : List (Branch P)} (h : Apart branches) {v : Value}
    (hv : v.Distinct) : ((branches.flatMap (·.children v)).map Child.segment).Nodup := by
  rcases h with h | ⟨hkeys, hn⟩
  · obtain ⟨branch, rfl⟩ := List.length_eq_one_iff.1 h
    simpa using Branch.nodup_segments hv branch
  · refine hn.sublist ?_
    clear hn
    induction branches with
    | nil => exact List.nil_sublist _
    | cons branch branches ih =>
      have hrest := ih (List.forall_mem_cons.1 hkeys).2
      cases branch with
      | field key place =>
        have hfirst : List.Sublist (((field key place).children v).map Child.segment) [key] := by
          cases hw : v.get? key <;> simp [children, hw]
        rw [List.flatMap_cons, List.map_append]
        exact hfirst.append hrest
      | _ => cases (List.forall_mem_cons.1 hkeys).1

theorem eq_of_mem_children_field {key : String} {place : Place P} {v : Value} {c : Child P}
    (h : c ∈ (field key place).children v) : c.segment = key ∧ c.place = place := by
  cases hw : v.get? key with
  | none => simp [children, hw] at h
  | some w =>
    obtain rfl : c = ⟨key, place, w⟩ := by simpa [children, hw] using h
    exact ⟨rfl, rfl⟩

end Branch

namespace Grammar

def starts (g : Grammar K S P) : List String :=
  "paths" :: g.sections.filterMap fun s => (g.container s).head?

/-- The parts of a walk have no place in common. -/
structure Separated (g : Grammar K S P) : Prop where
  apart : ∀ p v, Branch.Apart ((g.form p).branches v)
  sections : g.sections.Nodup
  keys : Function.Injective g.key
  paths : (g.form g.paths).boolean = false ∧ (g.form g.paths).replacement = .never ∧
    (g.form g.paths).kind = none
  heads : ∀ s, (g.container s).head? ≠ some "paths"
  leaves : ∀ v, ∀ branch ∈ (g.form g.root).branches v, ∃ key place, branch = .field key place ∧
    (key ∈ g.starts → ∃ k, g.formOf place = { kind := some k })

theorem Separated.parted (hg : g.Separated) : g.Parted := by
  intro place v hv
  cases place with
  | one p => exact (hg.apart p v).nodup_segments hv
  | items p => exact (Branch.Apart.nodup_segments (.inl rfl) hv)
  | entries p => exact (Branch.Apart.nodup_segments (.inl rfl) hv)

theorem Separated.top_visits (hg : g.Separated) {top : Trail K S}
    (h : g.trail (.one g.root) .root root = .ok top) {w : Visit K} (hw : w ∈ top.visits)
    {key : String} (hkey : key ∈ g.starts) (name : String) (rest : List String) :
    w.location.segments ≠ key :: name :: rest := by
  intro hl
  rcases trail_ok h with ⟨-, rfl⟩ | ⟨_, -, rfl⟩ | ⟨hall, rfl⟩
  · cases hw
  · obtain rfl := List.mem_singleton.1 hw
    cases hl
  · rcases Trail.mem_visits_record hw with ⟨k, -, rfl⟩ | hw
    · cases hl
    · obtain ⟨t, ht, hw⟩ := List.mem_flatMap.1 hw
      obtain ⟨c, hc, rfl⟩ := List.mem_map.1 ht
      have hprefix := prefix_of_mem_visits (hall c hc) w hw
      rw [hl] at hprefix
      obtain rfl : c.segment = key := (List.cons_prefix_cons.1 hprefix).1
      -- The child under this key is a leaf, so its only visit is to itself.
      obtain ⟨branch, hbranch, hchild⟩ := List.mem_flatMap.1 hc
      obtain ⟨key, place, rfl, hleaf⟩ := hg.leaves root branch hbranch
      obtain ⟨rfl, rfl⟩ := Branch.eq_of_mem_children_field hchild
      obtain ⟨k, hk⟩ := hleaf hkey
      rw [found_eq (trail_leaf hk _ _)] at hw
      obtain rfl := List.mem_singleton.1 hw
      cases hl

theorem Separated.paths_visits (hg : g.Separated) {paths : Trail K S}
    (h : g.pathsTrail root = .ok paths) {w : Visit K} (hw : w ∈ paths.visits) :
    ∃ name rest, w.location.segments = "paths" :: name :: rest := by
  obtain ⟨hboolean, hreplacement, hkind⟩ := hg.paths
  unfold pathsTrail at h
  split at h
  case h_2 => cases h; cases hw
  case h_1 v hv =>
    rcases trail_ok h with ⟨hb, -⟩ | ⟨_, hr, -⟩ | ⟨hall, rfl⟩
    · rw [formOf, hboolean] at hb
      cases hb
    · simp [formOf, Form.replacedBy?, hreplacement] at hr
    · rw [formOf, hkind] at hw
      obtain ⟨t, ht, hw⟩ := List.mem_flatMap.1 hw
      obtain ⟨c, hc, rfl⟩ := List.mem_map.1 ht
      obtain ⟨rest, hrest⟩ := prefix_of_mem_visits (hall c hc) w hw
      exact ⟨c.segment, rest, hrest.symm⟩

theorem prefix_of_mem_memberVisits {m : Member S} {w : Visit K} (hw : w ∈ g.memberVisits m) :
    m.location.segments <+: w.location.segments := by
  rw [memberVisits, found] at hw
  split at hw
  case h_1 t ht => exact prefix_of_mem_visits ht w hw
  case h_2 => cases hw

theorem location_start {m : Member S} (hm : m ∈ g.members root) : ∃ key name rest,
    (g.container m.group).head? = some key ∧ m.location.segments = key :: name :: rest := by
  rw [location_of_mem_members hm, container]
  cases g.holder with
  | nil => exact ⟨g.key m.group, m.name, [], rfl, rfl⟩
  | cons key keys =>
    cases keys with
    | nil => exact ⟨key, g.key m.group, [m.name], rfl, rfl⟩
    | cons name keys => exact ⟨key, name, _, rfl, rfl⟩

theorem mem_starts_of_head? {s : S} {key : String} (h : (g.container s).head? = some key) :
    key ∈ g.starts :=
  List.mem_cons_of_mem _ (List.mem_filterMap.2 ⟨s, g.mem_sections s, h⟩)

theorem pathsTrail_of_get? {v : Value} (h : root.get? "paths" = some v) :
    g.pathsTrail root = g.trail (.one g.paths) (Location.root.child "paths") v := by
  rw [pathsTrail, h]

theorem exists_of_pathsTrail {paths : Trail K S} (hp : g.pathsTrail root = .ok paths)
    {w : Visit K} (hw : w ∈ paths.visits) : ∃ v, root.get? "paths" = some v ∧
      g.trail (.one g.paths) (Location.root.child "paths") v = .ok paths := by
  unfold pathsTrail at hp
  split at hp
  case h_1 v hv => exact ⟨v, hv, hp⟩
  case h_2 => cases hp; cases hw

theorem Separated.key_eq (hg : g.Separated) {m n : Member S} (hm : m ∈ g.members root)
    (hn : n ∈ g.members root) {s : List String} (hms : m.location.segments <+: s)
    (hns : n.location.segments <+: s) : m.key = n.key := by
  rw [location_of_mem_members hm] at hms
  rw [location_of_mem_members hn] at hns
  have hle :
      (g.container m.group ++ [m.name]).length = (g.container n.group ++ [n.name]).length := by
    simp [container]
  have heq := (List.prefix_of_prefix_length_le hms hns (Nat.le_of_eq hle)).eq_of_length hle
  obtain ⟨hcontainer, hname⟩ := List.append_inj' heq rfl
  obtain ⟨-, hkey⟩ := List.append_inj' hcontainer rfl
  exact Prod.ext (hg.keys (List.singleton_inj.1 hkey)) (List.singleton_inj.1 hname)

theorem Separated.descending_memberVisits (hg : g.Separated) (hd : root.Distinct)
    {p q : Progress K S} {ms : List (Member S)} (hms : g.Entered root p ms q) :
    Descending (ms.flatMap g.memberVisits) := by
  refine .flatMap ?_ ?_
  · intro m hm
    obtain ⟨t, ht⟩ := hms.walkable m hm
    rw [memberVisits_eq ht]
    exact descending_visits hg.parted ht (distinct_of_mem_members hd (hms.mem_members m hm))
  · refine (List.pairwise_map.1 hms.nodup).imp_of_mem ?_
    intro m n hm hn hne v hv w hw hwv
    exact hne (hg.key_eq (hms.mem_members m hm) (hms.mem_members n hn)
      (prefix_of_mem_memberVisits hv) ((prefix_of_mem_memberVisits hw).trans hwv))

theorem Separated.descending_begun (hg : g.Separated) (hd : root.Distinct) {top paths : Trail K S}
    (ht : g.trail (.one g.root) .root root = .ok top) (hp : g.pathsTrail root = .ok paths) :
    Descending (begun top paths).visits := by
  have htop : Descending top.visits := descending_visits hg.parted ht hd
  have hpaths : Descending paths.visits := by
    unfold pathsTrail at hp
    split at hp
    case h_1 v hv => exact descending_visits hg.parted hp (hd.of_get? hv)
    case h_2 => cases hp; exact .nil
  refine htop.append hpaths ?_
  intro v hv w hw hwv
  obtain ⟨name, rest, hstart⟩ := hg.paths_visits hp hw
  rw [hstart] at hwv
  obtain ⟨more, hmore⟩ := hwv
  exact hg.top_visits ht hv List.mem_cons_self name (rest ++ more) hmore.symm

theorem Separated.not_prefix_begun (hg : g.Separated) {top paths : Trail K S}
    (ht : g.trail (.one g.root) .root root = .ok top) (hp : g.pathsTrail root = .ok paths)
    {v : Visit K} (hv : v ∈ (begun top paths).visits) {m : Member S} (hm : m ∈ g.members root) :
    ¬ m.location.segments <+: v.location.segments := by
  rintro ⟨more, hmore⟩
  obtain ⟨key, name, rest, hkey, hstart⟩ := location_start hm
  have hl : v.location.segments = key :: name :: (rest ++ more) := by rw [← hmore, hstart]; rfl
  rcases List.mem_append.1 hv with hv | hv
  · exact hg.top_visits ht hv (mem_starts_of_head? hkey) name _ hl
  · obtain ⟨_, _, hpath⟩ := hg.paths_visits hp hv
    rw [hpath, List.cons.injEq] at hl
    rw [← hl.1] at hkey
    exact hg.heads m.group hkey

/-- Where a walk starts on a trail: at the top, at the paths, or at a member. -/
inductive Part (g : Grammar K S P) (root : Value) : Place P → Location → Value → Prop where
  | top : Part g root (.one g.root) .root root
  | paths {v : Value} (h : root.get? "paths" = some v) :
    Part g root (.one g.paths) (Location.root.child "paths") v
  | member {m : Member S} (h : m ∈ g.members root) :
    Part g root (.one (g.member m.group)) m.location m.node

theorem exists_part [DecidableEq S] {vs : List (Visit K)} (h : g.walk root = .ok vs) {w : Visit K}
    (hw : w ∈ vs) : ∃ place l v t, g.Part root place l v ∧ g.trail place l v = .ok t ∧
      w ∈ t.visits := by
  obtain ⟨top, paths, ms, q, ht, hp, -, hms, rfl, -⟩ := walk_entered h
  rw [hms.visits] at hw
  rcases List.mem_append.1 hw with hw | hw
  · rcases List.mem_append.1 hw with hw | hw
    · exact ⟨_, _, _, top, .top, ht, hw⟩
    · obtain ⟨v, hv, htrail⟩ := exists_of_pathsTrail hp hw
      exact ⟨_, _, v, paths, .paths hv, htrail, hw⟩
  · obtain ⟨m, hm, hw⟩ := List.mem_flatMap.1 hw
    obtain ⟨t, htrail⟩ := hms.walkable m hm
    rw [memberVisits_eq htrail] at hw
    exact ⟨_, _, _, t, .member (hms.mem_members m hm), htrail, hw⟩

namespace Part

variable {place : Place P} {l : Location} {v : Value} {t : Trail K S} {w : Visit K}

theorem distinct (h : g.Part root place l v) (hd : root.Distinct) : v.Distinct := by
  cases h with
  | top => exact hd
  | paths hv => exact hd.of_get? hv
  | member hm => exact distinct_of_mem_members hd hm

theorem top_or_start (h : g.Part root place l v) (ht : g.trail place l v = .ok t)
    (hw : w ∈ t.visits) : place = .one g.root ∧ l = .root ∧ v = root ∨
      ∃ start rest, w.location.segments = start :: rest ∧ start ∈ g.starts := by
  obtain ⟨more, hmore⟩ := prefix_of_mem_visits ht w hw
  cases h with
  | top => exact .inl ⟨rfl, rfl, rfl⟩
  | paths hv => exact .inr ⟨"paths", more, hmore.symm, List.mem_cons_self⟩
  | member hm =>
    obtain ⟨key, name, rest, hkey, hstart⟩ := location_start hm
    rw [hstart] at hmore
    exact .inr ⟨key, name :: rest ++ more, hmore.symm, mem_starts_of_head? hkey⟩

theorem eq_paths (hg : g.Separated) (h : g.Part root place l v) (ht : g.trail place l v = .ok t)
    (hw : w ∈ t.visits) {name : String} {rest : List String}
    (hstart : w.location.segments = "paths" :: name :: rest) :
    place = .one g.paths ∧ l = Location.root.child "paths" ∧ root.get? "paths" = some v := by
  cases h with
  | top => exact absurd hstart (hg.top_visits ht hw List.mem_cons_self name rest)
  | paths hv => exact ⟨rfl, rfl, hv⟩
  | member hm =>
    obtain ⟨key, _, _, hkey, hmember⟩ := location_start hm
    obtain ⟨_, hmore⟩ := prefix_of_mem_visits ht w hw
    rw [hmember, hstart] at hmore
    obtain rfl : key = "paths" := (List.cons.inj hmore).1
    exact absurd hkey (hg.heads _)

theorem eq_member (hg : g.Separated) (hd : root.Distinct) (h : g.Part root place l v)
    (ht : g.trail place l v = .ok t) (hw : w ∈ t.visits) {m : Member S} (hm : m ∈ g.members root)
    (hpre : m.location.segments <+: w.location.segments) :
    place = .one (g.member m.group) ∧ l = m.location ∧ v = m.node := by
  obtain ⟨key, name, rest, hkey, hstart⟩ := location_start hm
  obtain ⟨more, hmore⟩ := id hpre
  rw [hstart] at hmore
  cases h with
  | top => exact absurd hmore.symm (hg.top_visits ht hw (mem_starts_of_head? hkey) name _)
  | paths hv =>
    obtain ⟨_, hpaths⟩ := prefix_of_mem_visits ht w hw
    rw [← hmore] at hpaths
    obtain rfl : "paths" = key := (List.cons.inj hpaths).1
    exact absurd hkey (hg.heads _)
  | member hn =>
    have heq := hg.key_eq hn hm (prefix_of_mem_visits ht w hw) hpre
    obtain rfl := List.inj_on_of_nodup_map (nodup_keys_members hg.sections hd) hn hm heq
    exact ⟨rfl, rfl, rfl⟩

end Part

theorem descending_walk [DecidableEq S] (hg : g.Separated) (hd : root.Distinct)
    {vs : List (Visit K)} (h : g.walk root = .ok vs) : Descending vs := by
  obtain ⟨top, paths, ms, q, ht, hp, -, hms, rfl, -⟩ := walk_entered h
  rw [hms.visits]
  refine (hg.descending_begun hd ht hp).append (hg.descending_memberVisits hd hms) ?_
  intro v hv w hw hwv
  obtain ⟨m, hm, hw⟩ := List.mem_flatMap.1 hw
  exact hg.not_prefix_begun ht hp hv (hms.mem_members m hm)
    ((prefix_of_mem_memberVisits hw).trans hwv)

theorem nodup_locations [DecidableEq S] (hg : g.Separated) (hd : root.Distinct)
    {vs : List (Visit K)} (h : g.walk root = .ok vs) : (vs.map Visit.location).Nodup :=
  (descending_walk hg hd h).nodup_locations

end Grammar

end ApiLint.Walk
