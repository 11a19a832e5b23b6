import ApiLint.Proofs.Json.Distinct
import ApiLint.Proofs.Outcome
import ApiLint.Walk.Trail

/-!
# Descent through a document

What holds of every successful trail, by induction on the nodes that it goes through. The visits of
a trail lie at or below the node where it starts, each location leads to the node that is recorded
with it, and each node comes before those below it, and no location is recorded twice, as long as
the children of a node are told apart by their segments.
-/

namespace ApiLint

namespace Location

theorem eq_of_child_prefix {l : Location} {a b : String} {s : List String}
    (ha : (l.child a).segments <+: s) (hb : (l.child b).segments <+: s) : a = b := by
  have h := List.prefix_of_prefix_length_le ha hb (by simp)
  simpa using h.eq_of_length (by simp)

theorem not_child_prefix {l : Location} {a : String} :
    ¬ (l.child a).segments <+: l.segments := by
  intro h
  have hle := h.length_le
  simp only [segments_child, List.length_append, List.length_singleton] at hle
  omega

end Location

namespace Walk

open Json Outcome

variable {K S P : Type}

theorem Branch.child?_of_mem_children {v : Value} (hv : v.Distinct) {branch : Branch P}
    {c : Child P} (h : c ∈ branch.children v) :
    v.child? c.segment = some c.node ∧ c.node.Distinct := by
  cases branch with
  | field key place =>
    cases hw : v.get? key with
    | none => simp [children, hw] at h
    | some w =>
      obtain rfl : c = ⟨key, place, w⟩ := by simpa [children, hw] using h
      exact ⟨Value.child?_of_get? hw, hv.of_get? hw⟩
  | members extensions place =>
    cases hm : v.members? with
    | none => simp [children, hm] at h
    | some ms =>
      simp only [children, hm, List.mem_map] at h
      obtain ⟨m, hmem, rfl⟩ := h
      have hin := (List.mem_filter.1 hmem).1
      have hget : v.get? m.1 = some m.2 :=
        Option.bind_eq_some_iff.2 ⟨ms, hm, Members.get?_of_mem (hv.nodup_keys hm) hin⟩
      exact ⟨Value.child?_of_get? hget, hv.of_mem_members hm hin⟩
  | elements place =>
    cases hx : v.items? with
    | none => simp [children, hx] at h
    | some xs =>
      simp only [children, hx, List.mem_map] at h
      obtain ⟨⟨x, i⟩, hmem, rfl⟩ := h
      exact ⟨Value.child?_repr hx hmem, hv.of_mem_items hx (List.fst_mem_of_mem_zipIdx hmem)⟩

theorem Form.child?_of_mem_children {v : Value} (hv : v.Distinct) {form : Form K S P}
    {c : Child P} (h : c ∈ form.children v) :
    v.child? c.segment = some c.node ∧ c.node.Distinct := by
  obtain ⟨branch, -, hc⟩ := List.mem_flatMap.1 h
  exact Branch.child?_of_mem_children hv hc

theorem Trail.mem_visits_record {kind : Option K} {l : Location} {v : Value} {t : Trail K S}
    {w : Visit K} (h : w ∈ (t.record kind l v).visits) :
    (∃ k, kind = some k ∧ w = ⟨k, l, v⟩) ∨ w ∈ t.visits := by
  cases kind with
  | none => exact .inr h
  | some k =>
    rcases List.mem_cons.1 h with rfl | hw
    · exact .inl ⟨k, rfl, rfl⟩
    · exact .inr hw

def Descending (vs : List (Visit K)) : Prop :=
  vs.Pairwise fun v w => ¬ w.location.segments <+: v.location.segments

namespace Descending

variable {vs ws : List (Visit K)}

theorem nodup_locations (h : Descending vs) : (vs.map Visit.location).Nodup := by
  refine List.pairwise_map.2 (h.imp ?_)
  intro v w hvw hl
  exact hvw (hl ▸ List.prefix_rfl)

theorem sublist (h : Descending vs) (hsub : ws.Sublist vs) : Descending ws :=
  List.Pairwise.sublist hsub h

theorem append (hv : Descending vs) (hw : Descending ws)
    (h : ∀ v ∈ vs, ∀ w ∈ ws, ¬ w.location.segments <+: v.location.segments) :
    Descending (vs ++ ws) :=
  List.pairwise_append.2 ⟨hv, hw, h⟩

theorem flatMap {A : Type} {xs : List A} {f : A → List (Visit K)} (h : ∀ x ∈ xs, Descending (f x))
    (hxs : xs.Pairwise fun x y => ∀ v ∈ f x, ∀ w ∈ f y,
      ¬ w.location.segments <+: v.location.segments) : Descending (xs.flatMap f) :=
  List.pairwise_flatMap.2 ⟨h, hxs⟩

end Descending

namespace Grammar

def found (g : Grammar K S P) (place : Place P) (location : Location) (node : Value) : Trail K S :=
  match g.trail place location node with
  | .ok t => t
  | .error _ => .empty

variable {g : Grammar K S P}

theorem found_eq {place : Place P} {l : Location} {v : Value} {t : Trail K S}
    (h : g.trail place l v = .ok t) : g.found place l v = t := by
  rw [found, h]

theorem trails_eq_ok_iff {l : Location} {cs : List (Child P)} {ts : List (Trail K S)} :
    g.trails l cs = .ok ts ↔
      (∀ c ∈ cs, g.trail c.place (l.child c.segment) c.node =
        .ok (g.found c.place (l.child c.segment) c.node)) ∧
      ts = cs.map fun c => g.found c.place (l.child c.segment) c.node :=
  mapM_eq_ok_iff fun _ _ => found_eq

theorem trail_cases {place : Place P} {l : Location} {v : Value} {t : Trail K S}
    (h : g.trail place l v = .ok t) :
    (g.formOf place).boolean = true ∧ v.isBool = true ∧ t = .empty ∨
    (∃ references, (g.formOf place).replacedBy? v = some references ∧
      t = ⟨[⟨g.reference, l, v⟩], references⟩) ∨
    (g.formOf place).replacedBy? v = none ∧ (g.formOf place).mismatch? v = none ∧
      (∀ c ∈ (g.formOf place).children v, g.trail c.place (l.child c.segment) c.node =
        .ok (g.found c.place (l.child c.segment) c.node)) ∧
      t = (Trail.concat (((g.formOf place).children v).map fun c =>
        g.found c.place (l.child c.segment) c.node)).record (g.formOf place).kind l v := by
  rw [trail_eq] at h
  split at h
  case isTrue hb =>
    cases h
    obtain ⟨hboolean, hv⟩ := Bool.and_eq_true_iff.1 hb
    exact .inl ⟨hboolean, hv, rfl⟩
  case isFalse =>
    split at h
    case h_1 references hr => cases h; exact .inr (.inl ⟨references, hr, rfl⟩)
    case h_2 hr =>
      split at h
      case h_1 => cases h
      case h_2 hm =>
        obtain ⟨ts, ht, rfl⟩ := map_eq_ok_iff.1 h
        obtain ⟨hall, rfl⟩ := trails_eq_ok_iff.1 ht
        exact .inr (.inr ⟨hr, hm, hall, rfl⟩)

theorem trail_ok {place : Place P} {l : Location} {v : Value} {t : Trail K S}
    (h : g.trail place l v = .ok t) :
    (g.formOf place).boolean = true ∧ t = .empty ∨
    (∃ references, (g.formOf place).replacedBy? v = some references ∧
      t = ⟨[⟨g.reference, l, v⟩], references⟩) ∨
    (∀ c ∈ (g.formOf place).children v, g.trail c.place (l.child c.segment) c.node =
      .ok (g.found c.place (l.child c.segment) c.node)) ∧
    t = (Trail.concat (((g.formOf place).children v).map fun c =>
      g.found c.place (l.child c.segment) c.node)).record (g.formOf place).kind l v := by
  rcases trail_cases h with ⟨hb, -, rfl⟩ | hr | ⟨-, -, hw⟩
  · exact .inl ⟨hb, rfl⟩
  · exact .inr (.inl hr)
  · exact .inr (.inr hw)

theorem trail_eq_ok_iff (place : Place P) (hb : (g.formOf place).boolean = false)
    (hr : (g.formOf place).replacement = .never) {l : Location} {v : Value} {t : Trail K S} :
    g.trail place l v = .ok t ↔ (g.formOf place).mismatch? v = none ∧
      (∀ c ∈ (g.formOf place).children v, g.trail c.place (l.child c.segment) c.node =
        .ok (g.found c.place (l.child c.segment) c.node)) ∧
      t = (Trail.concat (((g.formOf place).children v).map fun c =>
        g.found c.place (l.child c.segment) c.node)).record (g.formOf place).kind l v := by
  have hreplaced : (g.formOf place).replacedBy? v = none := by rw [Form.replacedBy?, hr]
  rw [trail_eq, hb, hreplaced]
  cases (g.formOf place).mismatch? v with
  | some shape => simp
  | none =>
    simp only [Bool.false_and, Bool.false_eq_true, if_false, map_eq_ok_iff, trails_eq_ok_iff,
      true_and]
    constructor
    · rintro ⟨_, ⟨hall, rfl⟩, rfl⟩
      exact ⟨hall, rfl⟩
    · rintro ⟨hall, rfl⟩
      exact ⟨_, ⟨hall, rfl⟩, rfl⟩

theorem trail_induction {motive : Place P → Location → Value → Trail K S → Prop}
    (passed : ∀ place l v, motive place l v .empty)
    (replaced : ∀ place l v references, (g.formOf place).replacedBy? v = some references →
      motive place l v ⟨[⟨g.reference, l, v⟩], references⟩)
    (walked : ∀ place l v,
      (∀ c ∈ (g.formOf place).children v, g.trail c.place (l.child c.segment) c.node =
        .ok (g.found c.place (l.child c.segment) c.node)) →
      (∀ c ∈ (g.formOf place).children v,
        motive c.place (l.child c.segment) c.node (g.found c.place (l.child c.segment) c.node)) →
      motive place l v ((Trail.concat (((g.formOf place).children v).map fun c =>
        g.found c.place (l.child c.segment) c.node)).record (g.formOf place).kind l v))
    {place : Place P} {l : Location} {v : Value} {t : Trail K S}
    (h : g.trail place l v = .ok t) : motive place l v t := by
  rcases trail_ok h with ⟨-, rfl⟩ | ⟨references, hr, rfl⟩ | ⟨hall, rfl⟩
  · exact passed place l v
  · exact replaced place l v references hr
  · refine walked place l v hall fun c hc => ?_
    have := Form.sizeOf_lt_of_mem_children hc
    exact trail_induction passed replaced walked (hall c hc)
termination_by sizeOf v

theorem trail_leaf {place : Place P} {k : K} (hp : g.formOf place = { kind := some k })
    (l : Location) (v : Value) : g.trail place l v = .ok ⟨[⟨k, l, v⟩], []⟩ := by
  rw [trail_eq, hp]
  rfl

theorem prefix_of_mem_visits {place : Place P} {l : Location} {v : Value} {t : Trail K S}
    (h : g.trail place l v = .ok t) : ∀ w ∈ t.visits, l.segments <+: w.location.segments := by
  refine trail_induction (motive := fun _ l _ t =>
    ∀ w ∈ t.visits, l.segments <+: w.location.segments) ?passed ?replaced ?walked h
  case passed => exact fun _ _ _ => List.forall_mem_nil _
  case replaced =>
    intro _ l v _ _ w hw
    obtain rfl := List.mem_singleton.1 hw
    exact List.prefix_rfl
  case walked =>
    intro place l v _ ih w hw
    rcases Trail.mem_visits_record hw with ⟨k, -, rfl⟩ | hw
    · exact List.prefix_rfl
    · obtain ⟨t, ht, hw⟩ := List.mem_flatMap.1 hw
      obtain ⟨c, hc, rfl⟩ := List.mem_map.1 ht
      exact (List.prefix_append _ _).trans (ih c hc w hw)

theorem at?_of_mem_visits {root : Value} {place : Place P} {l : Location} {v : Value}
    {t : Trail K S} (h : g.trail place l v = .ok t) (hv : v.Distinct)
    (hl : root.at? l.segments = some v) :
    ∀ w ∈ t.visits, root.at? w.location.segments = some w.node := by
  refine trail_induction (motive := fun _ l v t => v.Distinct → root.at? l.segments = some v →
    ∀ w ∈ t.visits, root.at? w.location.segments = some w.node)
    ?passed ?replaced ?walked h hv hl
  case passed => exact fun _ _ _ _ _ => List.forall_mem_nil _
  case replaced =>
    intro _ l v _ _ _ hl w hw
    obtain rfl := List.mem_singleton.1 hw
    exact hl
  case walked =>
    intro place l v _ ih hv hl w hw
    rcases Trail.mem_visits_record hw with ⟨k, -, rfl⟩ | hw
    · exact hl
    · obtain ⟨t, ht, hw⟩ := List.mem_flatMap.1 hw
      obtain ⟨c, hc, rfl⟩ := List.mem_map.1 ht
      obtain ⟨hchild, hd⟩ := Form.child?_of_mem_children hv hc
      have hstep : v.at? [c.segment] = some c.node :=
        Option.bind_eq_some_iff.2 ⟨c.node, hchild, rfl⟩
      exact ih c hc hd (Value.at?_append_eq_some hl hstep) w hw

/-- No two children of a node have one segment. -/
def Parted (g : Grammar K S P) : Prop :=
  ∀ place v, v.Distinct → (((g.formOf place).children v).map Child.segment).Nodup

theorem descending_visits {place : Place P} {l : Location} {v : Value} {t : Trail K S}
    (hg : g.Parted) (h : g.trail place l v = .ok t) (hv : v.Distinct) : Descending t.visits := by
  refine trail_induction (motive := fun _ _ v t => v.Distinct → Descending t.visits)
    ?passed ?replaced ?walked h hv
  case passed => exact fun _ _ _ _ => .nil
  case replaced => exact fun _ _ _ _ _ _ => List.pairwise_singleton _ _
  case walked =>
    intro place l v hall ih hv
    have hbelow : ∀ c ∈ (g.formOf place).children v,
        ∀ w ∈ (g.found c.place (l.child c.segment) c.node).visits,
          (l.child c.segment).segments <+: w.location.segments :=
      fun c hc => prefix_of_mem_visits (hall c hc)
    have hchildren : Descending (Trail.concat (((g.formOf place).children v).map fun c =>
        g.found c.place (l.child c.segment) c.node) : Trail K S).visits := by
      simp only [Trail.concat, List.flatMap_map]
      refine .flatMap (fun c hc => ih c hc (Form.child?_of_mem_children hv hc).2) ?_
      -- Two children have different segments, so nothing is at or below both.
      refine (List.pairwise_map.1 (hg place v hv)).imp_of_mem ?_
      intro c d hc hd hne u hu w hw hwu
      exact hne (Location.eq_of_child_prefix (hbelow c hc u hu) ((hbelow d hd w hw).trans hwu))
    cases hk : (g.formOf place).kind with
    | none => exact hchildren
    | some k =>
      refine List.pairwise_cons.2 ⟨?_, hchildren⟩
      intro w hw hwl
      simp only [Trail.concat, List.flatMap_map, List.mem_flatMap] at hw
      obtain ⟨c, hc, hw⟩ := hw
      exact Location.not_child_prefix ((hbelow c hc w hw).trans hwl)

end Grammar

end Walk

end ApiLint
