import ApiLint.Proofs.Walk.Operations

/-!
# Grammars that mirror each other

Two grammars mirror each other at two places if a node is treated alike there, and has the same
children at places that mirror each other again, but for their order. Then a node can be walked at
both places or at neither, and the two trails have the same in them, but for the order.
-/

namespace ApiLint

open Json

namespace Outcome

variable {A B E : Type}

inductive Parallel (R : A → B → Prop) : Except E A → Except E B → Prop where
  | ok {a : A} {b : B} (h : R a b) : Parallel R (.ok a) (.ok b)
  | error (e e' : E) : Parallel R (.error e) (.error e')

namespace Parallel

variable {A' B' C : Type} {R : A → B → Prop} {x : Except E A} {y : Except E B}

theorem exists_ok_iff (h : Parallel R x y) : (∃ a, x = .ok a) ↔ ∃ b, y = .ok b := by
  cases h with
  | ok => exact ⟨fun _ => ⟨_, rfl⟩, fun _ => ⟨_, rfl⟩⟩
  | error => exact ⟨nofun, nofun⟩

theorem related {a : A} {b : B} (h : Parallel R x y) (hx : x = .ok a) (hy : y = .ok b) : R a b := by
  cases h with
  | ok h =>
    obtain rfl := Except.ok.inj hx
    obtain rfl := Except.ok.inj hy
    exact h
  | error => cases hx

theorem map {T : A' → B' → Prop} {f : A → A'} {f' : B → B'} (h : Parallel R x y)
    (hf : ∀ a b, R a b → T (f a) (f' b)) : Parallel T (x.map f) (y.map f') := by
  cases h with
  | ok h => exact .ok (hf _ _ h)
  | error e e' => exact .error e e'

theorem comp {T : B → C → Prop} {z : Except E C} (h : Parallel R x y) (h' : Parallel T y z) :
    Parallel (fun a c => ∃ b, R a b ∧ T b c) x z := by
  cases h with
  | ok h => cases h' with | ok h' => exact .ok ⟨_, h, h'⟩
  | error e _ => cases h' with | error _ e' => exact .error e e'

theorem bind {T : A' → B' → Prop} {f : A → Except E A'} {f' : B → Except E B'}
    (h : Parallel R x y) (hf : ∀ a b, R a b → Parallel T (f a) (f' b)) :
    Parallel T (x >>= f) (y >>= f') := by
  cases h with
  | ok h => exact hf _ _ h
  | error e e' => exact .error e e'

theorem mapM {T : A' → B' → Prop} {f : A → Except E A'} {f' : B → Except E B'} {xs : List A}
    {ys : List B} (h : List.Forall₂ (fun a b => Parallel T (f a) (f' b)) xs ys) :
    Parallel (List.Forall₂ T) (xs.mapM f) (ys.mapM f') := by
  induction h with
  | nil => exact .ok .nil
  | cons h _ ih =>
    rw [List.mapM_cons, List.mapM_cons]
    exact h.bind fun _ _ hhead => ih.bind fun _ _ htail => .ok (.cons hhead htail)

end Parallel

end Outcome

namespace Walk

open Outcome Walked

variable {K K' S S' P P' : Type}

theorem Form.mismatch?_congr {form : Form K S P} {form' : Form K' S' P'}
    (h : form.shape = form'.shape) (v : Value) : form.mismatch? v = form'.mismatch? v := by
  rw [mismatch?, mismatch?, h]

theorem Grammar.trails_perm {g : Grammar K S P} {l : Location} {cs ds : List (Child P)}
    (h : cs.Perm ds) : Parallel List.Perm (g.trails l cs) (g.trails l ds) := by
  cases hc : g.trails l cs with
  | ok ts =>
    obtain ⟨hall, rfl⟩ := trails_eq_ok_iff.1 hc
    rw [trails_eq_ok_iff.2 ⟨fun d hd => hall d (h.mem_iff.2 hd), rfl⟩]
    exact .ok (h.map _)
  | error e =>
    cases hd : g.trails l ds with
    | error e' => exact .error e e'
    | ok us =>
      obtain ⟨hall, -⟩ := trails_eq_ok_iff.1 hd
      rw [trails_eq_ok_iff.2 ⟨fun c hc => hall c (h.mem_iff.1 hc), rfl⟩] at hc
      cases hc

variable [DecidableEq K] [DecidableEq K']

/-- Kinds and sections of one grammar that stand for those of another. -/
structure Pairing (K K' S S' : Type) where
  kinds : List (K × K')
  oneToOne : ∀ p ∈ kinds, ∀ q ∈ kinds, p.1 = q.1 ↔ p.2 = q.2
  twin : S → S'

def Trail.recorded (t : Trail K S) (k : K) : List (Location × Value) :=
  (ofKind t.visits k).map fun v => (v.location, v.node)

theorem Trail.recorded_append (t u : Trail K S) (k : K) :
    (t.append u).recorded k = t.recorded k ++ u.recorded k := by
  simp only [recorded, ofKind, visits_append, List.filter_append, List.map_append]

namespace Pairing

variable {m : Pairing K K' S S'} {t t₁ t₂ : Trail K S} {u u₁ u₂ : Trail K' S'}

/-- But for the order, the two trails record the same under kinds that are paired, and have the same
references to follow. They record nothing else. -/
structure Agree (m : Pairing K K' S S') (t : Trail K S) (u : Trail K' S') : Prop where
  recorded : ∀ p ∈ m.kinds, (t.recorded p.1).Perm (u.recorded p.2)
  left : ∀ v ∈ t.visits, v.kind ∈ m.kinds.map Prod.fst
  right : ∀ v ∈ u.visits, v.kind ∈ m.kinds.map Prod.snd
  references : (t.references.map fun r => (m.twin r.1, r.2)).Perm u.references

namespace Agree

theorem empty : m.Agree .empty .empty :=
  ⟨fun _ _ => .nil, List.forall_mem_nil _, List.forall_mem_nil _, .nil⟩

theorem follow (references : List (S × String)) :
    m.Agree ⟨[], references⟩ ⟨[], references.map fun r => (m.twin r.1, r.2)⟩ :=
  ⟨fun _ _ => .nil, List.forall_mem_nil _, List.forall_mem_nil _, .refl _⟩

theorem append (h₁ : m.Agree t₁ u₁) (h₂ : m.Agree t₂ u₂) :
    m.Agree (t₁.append t₂) (u₁.append u₂) where
  recorded p hp := by
    rw [Trail.recorded_append, Trail.recorded_append]
    exact (h₁.recorded p hp).append (h₂.recorded p hp)
  left v hv := (List.mem_append.1 hv).elim (h₁.left v) (h₂.left v)
  right v hv := (List.mem_append.1 hv).elim (h₁.right v) (h₂.right v)
  references := by
    rw [Trail.references_append, Trail.references_append, List.map_append]
    exact h₁.references.append h₂.references

theorem concat {ts : List (Trail K S)} {us : List (Trail K' S')}
    (h : List.Forall₂ m.Agree ts us) : m.Agree (.concat ts) (.concat us) := by
  induction h with
  | nil => exact empty
  | cons h _ ih =>
    rw [Trail.concat_cons, Trail.concat_cons]
    exact h.append ih

theorem perm {ts₁ ts₂ : List (Trail K S)} (hp : ts₁.Perm ts₂) (h : m.Agree (.concat ts₂) u) :
    m.Agree (.concat ts₁) u := by
  have hvisits : (Trail.concat ts₁).visits.Perm (Trail.concat ts₂).visits := hp.flatMap_right _
  have hreferences : (Trail.concat ts₁).references.Perm (Trail.concat ts₂).references :=
    hp.flatMap_right _
  exact {
    recorded := fun p hp => ((hvisits.filter _).map _).trans (h.recorded p hp)
    left := fun v hv => h.left v (hvisits.mem_iff.1 hv)
    right := h.right
    references := (hreferences.map _).trans h.references }

theorem record {k : Option K} {k' : Option K'}
    (hk : Option.Rel (fun k k' => (k, k') ∈ m.kinds) k k') (h : m.Agree t u) (l : Location)
    (v : Value) : m.Agree (t.record k l v) (u.record k' l v) := by
  cases hk with
  | none => exact h
  | some hk =>
    rename_i k k'
    refine ⟨fun p hp => ?_, List.forall_mem_cons.2 ⟨List.mem_map_of_mem hk, h.left⟩,
      List.forall_mem_cons.2 ⟨List.mem_map_of_mem hk, h.right⟩, h.references⟩
    -- A kind that is paired is recorded on both sides at once.
    have hiff : k = p.1 ↔ k' = p.2 := m.oneToOne _ hk p hp
    simp only [Trail.recorded, Grammar.ofKind_record, Option.some.injEq, List.map_append, hiff]
    refine .append ?_ (h.recorded p hp)
    split <;> exact .refl _

end Agree

end Pairing

section

variable (related : Place P → Place P' → Value → Prop)

structure Child.Mirrors (c : Child P) (d : Child P') : Prop where
  segment : c.segment = d.segment
  node : c.node = d.node
  related : related c.place d.place c.node

inductive Branch.Mirrors (v : Value) : Branch P → Branch P' → Prop where
  | field {key : String} {place : Place P} {place' : Place P'}
    (h : ∀ w, v.get? key = some w → related place place' w) :
    Mirrors v (.field key place) (.field key place')
  | members {extensions : Bool} {place : Place P} {place' : Place P'}
    (h : ∀ ms, v.members? = some ms → ∀ m ∈ ms, related place place' m.2) :
    Mirrors v (.members extensions place) (.members extensions place')
  | elements {place : Place P} {place' : Place P'}
    (h : ∀ xs, v.items? = some xs → ∀ x ∈ xs, related place place' x) :
    Mirrors v (.elements place) (.elements place')

structure Form.Mirrors (m : Pairing K K' S S') (form : Form K S P) (form' : Form K' S' P')
    (v : Value) : Prop where
  boolean : form.boolean = form'.boolean
  replaced : (form.replacedBy? v).map (List.map fun r => (m.twin r.1, r.2)) = form'.replacedBy? v
  kind : Option.Rel (fun k k' => (k, k') ∈ m.kinds) form.kind form'.kind
  shape : form.shape = form'.shape
  children : form.replacedBy? v = none → ∃ cs, List.Forall₂ (Child.Mirrors related) cs
    (form'.children v) ∧ cs.Perm (form.children v)

/-- Wherever two places are related, their forms mirror each other. -/
structure Grammar.Mirrors (m : Pairing K K' S S') (g : Grammar K S P) (g' : Grammar K' S' P') :
    Prop where
  reference : (g.reference, g'.reference) ∈ m.kinds
  form : ∀ place place' v, related place place' v →
    (g.formOf place).Mirrors related m (g'.formOf place') v

end

variable {related : Place P → Place P' → Value → Prop} {v : Value}

theorem Branch.Mirrors.children {b : Branch P} {b' : Branch P'} (h : b.Mirrors related v b') :
    List.Forall₂ (Child.Mirrors related) (b.children v) (b'.children v) := by
  cases h with
  | @field key _ _ h =>
    cases hw : v.get? key with
    | none => simp [Branch.children, hw]
    | some w =>
      simp only [Branch.children, hw]
      exact .cons ⟨rfl, rfl, h w hw⟩ .nil
  | members h =>
    cases hms : v.members? with
    | none => simp [Branch.children, hms]
    | some ms =>
      simp only [Branch.children, hms, List.forall₂_map_left_iff, List.forall₂_map_right_iff,
        List.forall₂_same]
      exact fun m hm => ⟨rfl, rfl, h ms hms m (List.mem_filter.1 hm).1⟩
  | elements h =>
    cases hxs : v.items? with
    | none => simp [Branch.children, hxs]
    | some xs =>
      simp only [Branch.children, hxs, List.forall₂_map_left_iff, List.forall₂_map_right_iff,
        List.forall₂_same]
      exact fun x hx => ⟨rfl, rfl, h xs hxs x.1 (List.fst_mem_of_mem_zipIdx hx)⟩

theorem Branch.forall₂_children {bs : List (Branch P)} {bs' : List (Branch P')}
    (h : List.Forall₂ (Branch.Mirrors related v) bs bs') :
    List.Forall₂ (Child.Mirrors related) (bs.flatMap (·.children v))
      (bs'.flatMap (·.children v)) := by
  induction h with
  | nil => exact .nil
  | cons h _ ih => exact List.rel_append h.children ih

namespace Grammar

variable {g : Grammar K S P} {g' : Grammar K' S' P'} {m : Pairing K K' S S'}

theorem Mirrors.parallel_trail (hg : Grammar.Mirrors related m g g') {place : Place P}
    {place' : Place P'} {v : Value} (h : related place place' v) (l : Location) :
    Parallel m.Agree (g.trail place l v) (g'.trail place' l v) := by
  have hform := hg.form place place' v h
  rw [trail_eq, trail_eq, ← hform.boolean, ← hform.replaced, ← Form.mismatch?_congr hform.shape v]
  split
  case isTrue => exact .ok .empty
  case isFalse =>
    cases hr : (g.formOf place).replacedBy? v with
    | some references =>
      exact .ok ((Pairing.Agree.follow references).record (.some hg.reference) l v)
    | none =>
      cases (g.formOf place).mismatch? v with
      | some shape => exact .error _ _
      | none =>
        -- The children of the first node are put in the order of those of the second.
        obtain ⟨cs, hcs, hperm⟩ := hform.children hr
        have hbelow : Parallel (List.Forall₂ m.Agree) (g.trails l cs)
            (g'.trails l ((g'.formOf place').children v)) := by
          have hmem := (List.forall₂_and_left _ _).2 ⟨fun c hc => hperm.mem_iff.1 hc, hcs⟩
          refine .mapM (hmem.imp ?_)
          rintro c d ⟨hc, hmirrors⟩
          have := Form.sizeOf_lt_of_mem_children hc
          rw [← hmirrors.segment, ← hmirrors.node]
          exact hg.parallel_trail hmirrors.related (l.child c.segment)
        refine ((trails_perm hperm.symm).comp hbelow).map ?_
        rintro ts us ⟨cts, htrails, hts⟩
        exact ((Pairing.Agree.concat hts).perm htrails).record hform.kind l v
termination_by sizeOf v

end Grammar

end Walk

end ApiLint
