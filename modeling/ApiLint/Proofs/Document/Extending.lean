import ApiLint.Proofs.Document.Ignored
import ApiLint.Walk.Grammar

/-!
# Documents with a vendor extension more

A vendor extension is put into one object of a document. Of every value it is known whether that
object is at or below it, and by which path. What is looked up under other names is there as before,
with the extension if it leads to it.
-/

namespace ApiLint

open Json

namespace Json.Value

def modifyAt (f : Value → Value) : List String → Value → Value
  | [], v => f v
  | segment :: path, .object ms =>
    .object (ms.map fun m => if m.1 = segment then (m.1, modifyAt f path m.2) else m)
  | segment :: path, .array xs =>
    .array (xs.zipIdx.map fun x =>
      if Nat.repr x.2 = segment then modifyAt f path x.1 else x.1)
  | _, v => v

theorem zipIdx_map_zipIdx (g : Value × Nat → Value) (xs : List Value) (n : Nat) :
    ((xs.zipIdx n).map g).zipIdx n = (xs.zipIdx n).map fun p => (g p, p.2) := by
  induction xs generalizing n with
  | nil => rfl
  | cons x xs ih => simp only [List.zipIdx_cons, List.map_cons, ih]

theorem child?_modifyAt (f : Value → Value) (segment : String) (path : List String) (v : Value) :
    (v.modifyAt f (segment :: path)).child? segment =
      (v.child? segment).map (modifyAt f path) := by
  cases v with
  | object ms =>
    have hmap := Members.get?_map_at segment (modifyAt f path) ms segment
    rw [if_pos rfl] at hmap
    exact hmap
  | array xs =>
    rw [modifyAt, child?, child?, zipIdx_map_zipIdx, List.findSome?_map, List.map_findSome?]
    refine congrArg (xs.zipIdx.findSome? ·) (funext fun x => ?_)
    by_cases hx : Nat.repr x.2 = segment <;> simp [hx]
  | _ => rfl

theorem at?_modifyAt (f : Value → Value) (path : List String) (v : Value) :
    (v.modifyAt f path).at? path = (v.at? path).map f := by
  induction path generalizing v with
  | nil => rfl
  | cons segment path ih =>
    have hstep : ∀ w : Value, w.at? (segment :: path) = w.child? segment >>= (·.at? path) :=
      fun w => rfl
    rw [hstep, hstep, child?_modifyAt]
    cases v.child? segment with
    | none => rfl
    | some w => exact ih w

end Json.Value

/-- Where something is put, seen from a value: at the end of a path, or neither at it nor below. -/
inductive Spot where
  | elsewhere
  | within (path : List String)
  deriving DecidableEq

namespace Spot

def under (segment : String) : Spot → Spot
  | within (s :: path) => if s = segment then within path else elsewhere
  | _ => elsewhere

def along (segments : List String) (spot : Spot) : Spot :=
  segments.foldl (fun spot segment => spot.under segment) spot

@[simp] theorem under_elsewhere (segment : String) : elsewhere.under segment = elsewhere := rfl

@[simp] theorem under_here (segment : String) : (within []).under segment = elsewhere := rfl

@[simp] theorem under_self (segment : String) (path : List String) :
    (within (segment :: path)).under segment = within path := by
  simp [under]

theorem under_of_ne {segment s : String} (h : s ≠ segment) (path : List String) :
    (within (s :: path)).under segment = elsewhere := by
  simp [under, h]

@[simp] theorem along_elsewhere (segments : List String) : elsewhere.along segments = elsewhere := by
  induction segments with
  | nil => rfl
  | cons segment segments ih => exact ih

theorem along_concat (segments : List String) (segment : String) (spot : Spot) :
    spot.along (segments ++ [segment]) = (spot.along segments).under segment := by
  rw [along, along, List.foldl_append]
  rfl

theorem along_append (segments path : List String) :
    (within (segments ++ path)).along segments = within path := by
  induction segments with
  | nil => rfl
  | cons segment segments ih =>
    have hfirst : (within (segment :: segments ++ path)).under segment =
        within (segments ++ path) := under_self segment _
    rw [along, List.foldl_cons, hfirst]
    exact ih

theorem along_eq (segments path : List String) : (within path).along segments = elsewhere ∨
    ∃ rest, path = segments ++ rest ∧ (within path).along segments = within rest := by
  by_cases h : segments <+: path
  · obtain ⟨rest, rfl⟩ := h
    exact .inr ⟨rest, rfl, along_append segments rest⟩
  · left
    induction segments generalizing path with
    | nil => exact absurd List.nil_prefix h
    | cons segment segments ih =>
      rw [along, List.foldl_cons]
      cases path with
      | nil => exact along_elsewhere segments
      | cons s path =>
        by_cases hs : s = segment
        · subst hs
          rw [under_self]
          exact ih path fun hpre => h (List.cons_prefix_cons.2 ⟨rfl, hpre⟩)
        · rw [under_of_ne hs]
          exact along_elsewhere segments

end Spot

/-- A vendor extension that is put before the member at a position, or at the end. -/
structure Extension where
  key : String
  value : Value
  position : Nat
  vendor : Walk.isExtension key = true

namespace Extension

variable {e : Extension} {spot : Spot} {v : Value}

def among (e : Extension) (ms : Members) : Members :=
  ms.take e.position ++ (e.key, e.value) :: ms.drop e.position

def into (e : Extension) : Value → Value
  | .object ms => .object (e.among ms)
  | v => v

def put (e : Extension) : Spot → Value → Value
  | .elsewhere, v => v
  | .within path, v => v.modifyAt e.into path

@[simp] theorem put_elsewhere (e : Extension) (v : Value) : e.put .elsewhere v = v := rfl

theorem get?_among {key : String} (hk : Walk.isExtension key = false) (ms : Members) :
    Members.get? (e.among ms) key = Members.get? ms key := by
  have hne : (key == e.key) = false := by
    refine beq_false_of_ne fun h => ?_
    rw [h, e.vendor] at hk
    cases hk
  have hsplit : Members.get? ms key =
      (Members.get? (ms.take e.position) key).or (Members.get? (ms.drop e.position) key) := by
    rw [Members.get?, Members.get?, Members.get?, ← List.lookup_append, List.take_append_drop]
  rw [hsplit, among, Members.get?, List.lookup_append, List.lookup_cons, hne]
  rfl

theorem members?_put (h : spot ≠ .within []) (v : Value) : (e.put spot v).members? =
    v.members?.map (List.map fun m => (m.1, e.put (spot.under m.1) m.2)) := by
  cases spot with
  | elsewhere => simp
  | within path =>
    cases path with
    | nil => exact absurd rfl h
    | cons segment path =>
      cases v with
      | object ms =>
        refine congrArg some (List.map_congr_left fun m _ => ?_)
        by_cases hm : m.1 = segment
        · rw [if_pos hm, hm, Spot.under_self]
          rfl
        · rw [if_neg hm, Spot.under_of_ne (Ne.symm hm)]
          rfl
      | _ => rfl

theorem isSome_members?_put (e : Extension) (spot : Spot) (v : Value) :
    (e.put spot v).members?.isSome = v.members?.isSome := by
  by_cases h : spot = .within []
  · subst h
    cases v <;> rfl
  · rw [members?_put h, Option.isSome_map]

theorem items?_put (e : Extension) (spot : Spot) (v : Value) : (e.put spot v).items? =
    v.items?.map fun xs => xs.zipIdx.map fun x => e.put (spot.under (Nat.repr x.2)) x.1 := by
  cases spot with
  | elsewhere =>
    cases h : v.items? <;> simp [h]
  | within path =>
    cases v with
    | array xs =>
      cases path with
      | nil => simp [put, Value.modifyAt, into, Value.items?]
      | cons segment path =>
        refine congrArg some (List.map_congr_left fun x _ => ?_)
        by_cases hx : Nat.repr x.2 = segment
        · rw [if_pos hx, hx, Spot.under_self]
          rfl
        · rw [if_neg hx, Spot.under_of_ne (Ne.symm hx)]
          rfl
    | _ => cases path <;> rfl

theorem isSome_items?_put (e : Extension) (spot : Spot) (v : Value) :
    (e.put spot v).items?.isSome = v.items?.isSome := by
  rw [items?_put, Option.isSome_map]

theorem isBool_put (e : Extension) (spot : Spot) (v : Value) :
    (e.put spot v).isBool = v.isBool := by
  cases spot with
  | elsewhere => rfl
  | within path => cases path <;> cases v <;> rfl

theorem string?_put (e : Extension) (spot : Spot) (v : Value) :
    (e.put spot v).string? = v.string? := by
  cases spot with
  | elsewhere => rfl
  | within path => cases path <;> cases v <;> rfl

theorem get?_put {key : String} (h : spot = .within [] → Walk.isExtension key = false)
    (v : Value) : (e.put spot v).get? key = (v.get? key).map (e.put (spot.under key)) := by
  by_cases hspot : spot = .within []
  · have hk := h hspot
    subst hspot
    cases v with
    | object ms =>
      rw [Spot.under_here, Value.get?_object]
      refine (get?_among hk ms).trans ?_
      cases Members.get? ms key <;> rfl
    | _ => rfl
  · rw [Value.get?, members?_put hspot]
    cases hv : v.members? with
    | none => simp [Value.get?, hv]
    | some ms =>
      simp only [Value.get?, hv, Option.map_some, Option.bind_eq_bind, Option.bind_some]
      exact Members.get?_map (fun key => e.put (spot.under key)) ms key

theorem stringAt?_put {key : String} (hk : Walk.isExtension key = false) (e : Extension)
    (spot : Spot) (v : Value) : (e.put spot v).stringAt? key = v.stringAt? key := by
  rw [Value.stringAt?, Value.stringAt?, get?_put fun _ => hk]
  cases v.get? key with
  | none => rfl
  | some w => exact string?_put e _ w

theorem descend?_put {keys : List String} (hks : ∀ key ∈ keys, Walk.isExtension key = false)
    (spot : Spot) (v : Value) :
    (e.put spot v).descend? keys = (v.descend? keys).map (e.put (spot.along keys)) := by
  induction keys generalizing spot v with
  | nil => rfl
  | cons key keys ih =>
    obtain ⟨hk, hks⟩ := List.forall_mem_cons.1 hks
    rw [Value.descend?_cons, Value.descend?_cons, get?_put fun _ => hk]
    cases v.get? key with
    | none => rfl
    | some w => exact ih hks _ w

end Extension

end ApiLint
