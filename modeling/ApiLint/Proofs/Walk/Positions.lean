import ApiLint.Proofs.Walk.Separation

/-!
# Positions in a walk

What holds of every walk because of the positions that a grammar leads to: below some positions no
reference is followed, and nodes of some kinds stand under keys that the grammar names.
-/

namespace ApiLint.Walk

open Json

variable {K S P : Type} {g : Grammar K S P} {root : Value}

def Place.position : Place P → P
  | one p => p
  | items p => p
  | entries p => p

def Branch.place : Branch P → Place P
  | field _ place => place
  | members _ place => place
  | elements place => place

theorem Branch.place_of_mem_children {branch : Branch P} {v : Value} {c : Child P}
    (h : c ∈ branch.children v) : c.place = branch.place := by
  cases branch with
  | field key place => exact (eq_of_mem_children_field h).2
  | members extensions place =>
    cases hm : v.members? with
    | none => simp [children, hm] at h
    | some ms =>
      simp only [children, hm, List.mem_map] at h
      obtain ⟨m, -, rfl⟩ := h
      rfl
  | elements place =>
    cases hx : v.items? with
    | none => simp [children, hx] at h
    | some xs =>
      simp only [children, hx, List.mem_map] at h
      obtain ⟨x, -, rfl⟩ := h
      rfl

namespace Grammar

theorem position_of_mem_children {holds : P → Prop}
    (below : ∀ p, holds p → ∀ v, ∀ branch ∈ (g.form p).branches v, holds branch.place.position)
    {place : Place P} (hp : holds place.position) {v : Value} {c : Child P}
    (hc : c ∈ (g.formOf place).children v) : holds c.place.position := by
  obtain ⟨branch, hbranch, hc⟩ := List.mem_flatMap.1 hc
  rw [Branch.place_of_mem_children hc]
  cases place with
  | one p => exact below p hp v branch hbranch
  | items p =>
    obtain rfl := List.mem_singleton.1 hbranch
    exact hp
  | entries p =>
    obtain rfl := List.mem_singleton.1 hbranch
    exact hp

/-- No reference is followed at these positions, and below them is no other position. -/
structure Quiet (g : Grammar K S P) (quiet : P → Prop) : Prop where
  replacement : ∀ p, quiet p → ∀ s, (g.form p).replacement ≠ .followed s
  below : ∀ p, quiet p → ∀ v, ∀ branch ∈ (g.form p).branches v, quiet branch.place.position

theorem Quiet.replacedBy? {quiet : P → Prop} (hg : g.Quiet quiet) {place : Place P}
    (hp : quiet place.position) {v : Value} {references : List (S × String)}
    (h : (g.formOf place).replacedBy? v = some references) : references = [] := by
  have hnever : ∀ s, (g.formOf place).replacement ≠ .followed s := by
    cases place with
    | one p => exact hg.replacement p hp
    | items p => exact fun s hs => nomatch hs
    | entries p => exact fun s hs => nomatch hs
  unfold Form.replacedBy? at h
  split at h
  case h_1 => cases h
  case h_2 =>
    obtain ⟨_, -, rfl⟩ := Option.map_eq_some_iff.1 h
    rfl
  case h_3 s hs => exact absurd hs (hnever s)

theorem Quiet.of_mem_children {quiet : P → Prop} (hg : g.Quiet quiet) {place : Place P}
    (hp : quiet place.position) {v : Value} {c : Child P}
    (hc : c ∈ (g.formOf place).children v) : quiet c.place.position :=
  position_of_mem_children hg.below hp hc

theorem Quiet.references {quiet : P → Prop} (hg : g.Quiet quiet) {place : Place P} {l : Location}
    {v : Value} {t : Trail K S} (hp : quiet place.position) (h : g.trail place l v = .ok t) :
    t.references = [] := by
  refine trail_induction (motive := fun place _ _ t => quiet place.position → t.references = [])
    ?passed ?replaced ?walked h hp
  case passed => exact fun _ _ _ _ => rfl
  case replaced => exact fun _ _ _ _ hr hp => hg.replacedBy? hp hr
  case walked =>
    intro place l v _ ih hp
    have hbelow : (Trail.concat (((g.formOf place).children v).map fun c =>
        g.found c.place (l.child c.segment) c.node)).references = [] := by
      simp only [Trail.concat, List.flatMap_map, List.flatMap_eq_nil_iff]
      exact fun c hc => ih c hc (hg.of_mem_children hp hc)
    cases hk : (g.formOf place).kind with
    | none => exact hbelow
    | some k => exact hbelow

/-- Nodes of the kind `k` stand in fields under these keys only. -/
structure Keyed (g : Grammar K S P) (k : K) (keys : List String) : Prop where
  reference : g.reference ≠ k
  below : ∀ p v, ∀ branch ∈ (g.form p).branches v, (g.form branch.place.position).kind = some k →
    ∃ key ∈ keys, ∃ q, branch = .field key (.one q)
  root : (g.form g.root).kind ≠ some k
  paths : (g.form g.paths).kind ≠ some k
  member : ∀ s, (g.form (g.member s)).kind ≠ some k

def Single (g : Grammar K S P) (k : K) (place : Place P) : Prop :=
  (g.form place.position).kind = some k → ∃ q, place = .one q

variable {k : K} {keys : List String}

theorem Keyed.of_mem_children (hg : g.Keyed k keys) {place : Place P} (hp : g.Single k place)
    {v : Value} {c : Child P} (hc : c ∈ (g.formOf place).children v) :
    g.Single k c.place ∧ ((g.formOf c.place).kind = some k → c.segment ∈ keys) := by
  obtain ⟨branch, hbranch, hc⟩ := List.mem_flatMap.1 hc
  have hplace := Branch.place_of_mem_children hc
  cases place with
  | one p =>
    constructor
    · intro hk
      rw [hplace] at hk ⊢
      obtain ⟨key, -, q, rfl⟩ := hg.below p v branch hbranch hk
      exact ⟨q, rfl⟩
    · intro hk
      cases hq : c.place with
      | one q =>
        rw [hplace] at hk hq
        have hkind : (g.form branch.place.position).kind = some k := by rwa [hq] at hk ⊢
        obtain ⟨key, hkey, q, rfl⟩ := hg.below p v branch hbranch hkind
        rw [(Branch.eq_of_mem_children_field hc).1]
        exact hkey
      | items q => rw [hq] at hk; cases hk
      | entries q => rw [hq] at hk; cases hk
  | items p =>
    obtain rfl := List.mem_singleton.1 hbranch
    rw [hplace]
    refine ⟨fun _ => ⟨p, rfl⟩, fun hk => ?_⟩
    obtain ⟨q, hq⟩ := hp hk
    cases hq
  | entries p =>
    obtain rfl := List.mem_singleton.1 hbranch
    rw [hplace]
    refine ⟨fun _ => ⟨p, rfl⟩, fun hk => ?_⟩
    obtain ⟨q, hq⟩ := hp hk
    cases hq

theorem Keyed.last_of_mem_visits (hg : g.Keyed k keys) {place : Place P} {l : Location} {v : Value}
    {t : Trail K S} (hp : g.Single k place) (h : g.trail place l v = .ok t) :
    ∀ w ∈ t.visits, w.kind = k → w.location = l ∧ (g.formOf place).kind = some k ∨
      ∃ key ∈ keys, w.location.last? = some key := by
  refine trail_induction (motive := fun place l _ t => g.Single k place → ∀ w ∈ t.visits,
    w.kind = k → w.location = l ∧ (g.formOf place).kind = some k ∨
      ∃ key ∈ keys, w.location.last? = some key) ?passed ?replaced ?walked h hp
  case passed => exact fun _ _ _ _ => List.forall_mem_nil _
  case replaced =>
    intro _ l v _ _ _ w hw hk
    obtain rfl := List.mem_singleton.1 hw
    exact absurd hk hg.reference
  case walked =>
    intro place l v _ ih hp w hw hk
    rcases Trail.mem_visits_record hw with ⟨k', hk', rfl⟩ | hw
    · exact .inl ⟨rfl, by rw [hk', ← hk]⟩
    · obtain ⟨t, ht, hw⟩ := List.mem_flatMap.1 hw
      obtain ⟨c, hc, rfl⟩ := List.mem_map.1 ht
      obtain ⟨hsingle, hkey⟩ := hg.of_mem_children hp hc
      rcases ih c hc hsingle w hw hk with ⟨hl, hkind⟩ | hlast
      · exact .inr ⟨c.segment, hkey hkind, by simp [hl, Location.last?]⟩
      · exact .inr hlast

theorem Keyed.last_of_mem_walk [DecidableEq S] (hg : g.Keyed k keys) {vs : List (Visit K)}
    (h : g.walk root = .ok vs) {w : Visit K} (hw : w ∈ vs) (hk : w.kind = k) :
    ∃ key ∈ keys, w.location.last? = some key := by
  obtain ⟨top, paths, ms, q, ht, hp, -, hms, rfl, -⟩ := walk_entered h
  have hstart : ∀ {p : P} {l : Location} {v : Value} {t : Trail K S},
      (g.form p).kind ≠ some k → g.trail (.one p) l v = .ok t → w ∈ t.visits →
      ∃ key ∈ keys, w.location.last? = some key := by
    intro p l v t hne h hw
    have hlast := hg.last_of_mem_visits (fun _ => ⟨p, rfl⟩) h w hw hk
    exact hlast.resolve_left fun hself => hne hself.2
  rw [hms.visits] at hw
  rcases List.mem_append.1 hw with hw | hw
  · rcases List.mem_append.1 hw with hw | hw
    · exact hstart hg.root ht hw
    · unfold pathsTrail at hp
      split at hp
      case h_1 => exact hstart hg.paths hp hw
      case h_2 => cases hp; cases hw
  · obtain ⟨m, hm, hw⟩ := List.mem_flatMap.1 hw
    obtain ⟨t, ht⟩ := hms.walkable m hm
    rw [memberVisits_eq ht] at hw
    exact hstart (hg.member m.group) ht hw

end Grammar

end ApiLint.Walk
