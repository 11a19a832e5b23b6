import ApiLint.Proofs.Document.Ignored

/-!
# Pruned documents

A document from which members are deleted by their paths, which lead through objects only. To filter
a document is to delete the members at the ignored paths, however many lists they come from, and the
dialect is told from what is left.
-/

namespace ApiLint

open Json

namespace Json.Value

/-- The value without the members to which these paths lead. -/
def prune (gone : List String → Bool) : Value → Value
  | .object ms => .object <| (ms.filter fun m => !gone [m.1]).attach.map fun m =>
      (m.val.1, prune (fun path => gone (m.val.1 :: path)) m.val.2)
  | v => v
termination_by v => sizeOf v
decreasing_by exact sizeOf_lt_of_mem_members rfl (List.mem_filter.1 m.property).1

theorem induction_of_members {motive : Value → Prop}
    (object : ∀ ms, (∀ m ∈ ms, motive m.2) → motive (.object ms))
    (other : ∀ v, v.members? = none → motive v) (v : Value) : motive v := by
  cases hv : v.members? with
  | none => exact other v hv
  | some ms =>
    have hbelow : ∀ m ∈ ms, motive m.2 := fun m hm =>
      have := sizeOf_lt_of_mem_members hv hm
      induction_of_members object other m.2
    cases v with
    | object ns =>
      obtain rfl := Option.some.inj hv
      exact object _ hbelow
    | _ => cases hv
termination_by sizeOf v

variable {gone : List String → Bool}

theorem prune_object (gone : List String → Bool) (ms : Members) :
    (Value.object ms).prune gone = .object ((ms.filter fun m => !gone [m.1]).map fun m =>
      (m.1, m.2.prune fun path => gone (m.1 :: path))) := by
  rw [prune]
  exact congrArg object (List.attach_map_val
    (f := fun m : String × Value => (m.1, m.2.prune fun path => gone (m.1 :: path))))

theorem prune_of_not_object {v : Value} (h : v.members? = none) : v.prune gone = v := by
  cases v with
  | object ms => cases h
  | _ => simp [prune]

theorem prune_eq_self {v : Value} (h : ∀ key path, gone (key :: path) = false) :
    v.prune gone = v := by
  induction v using induction_of_members generalizing gone with
  | object ms ih =>
    have hkeep : (ms.filter fun m => !gone [m.1]) = ms :=
      List.filter_eq_self.2 fun m _ => by simp [h]
    have hbelow : ∀ m ∈ ms, (m.1, m.2.prune fun path => gone (m.1 :: path)) = m := by
      intro m hm
      rw [ih m hm fun key path => h m.1 (key :: path)]
    rw [prune_object, hkeep, List.map_congr_left hbelow, List.map_id']
  | other v hv => exact prune_of_not_object hv

theorem prune_prune (gone other : List String → Bool) (v : Value) :
    (v.prune gone).prune other = v.prune fun path => gone path || other path := by
  induction v using induction_of_members generalizing gone other with
  | object ms ih =>
    have hkeep : ∀ m : String × Value,
        (!gone [m.1] && !other [m.1]) = !(gone [m.1] || other [m.1]) := by simp
    simp only [prune_object, List.filter_map, List.filter_filter, List.map_map,
      Function.comp_def, Bool.and_comm (!other _), hkeep]
    refine congrArg object (List.map_congr_left fun m hm => ?_)
    rw [ih m (List.mem_filter.1 hm).1]
  | other v hv => rw [prune_of_not_object hv, prune_of_not_object hv, prune_of_not_object hv]

theorem get?_prune (v : Value) (key : String) : (v.prune gone).get? key =
    if gone [key] then none else (v.get? key).map (prune fun path => gone (key :: path)) := by
  cases v with
  | object ms =>
    have hfilter := Members.get?_filter (fun key => !gone [key]) ms key
    rw [prune_object, get?_object, get?_object,
      Members.get?_map fun key v => v.prune fun path => gone (key :: path), hfilter]
    cases gone [key] <;> rfl
  | _ => rw [prune_of_not_object rfl]; simp [get?, members?]

theorem isSome_members?_prune (v : Value) :
    (v.prune gone).members?.isSome = v.members?.isSome := by
  cases v with
  | object ms => rw [prune_object]; rfl
  | _ => rw [prune_of_not_object rfl]

theorem string?_prune (v : Value) : (v.prune gone).string? = v.string? := by
  cases v with
  | object ms => rw [prune_object]; rfl
  | _ => rw [prune_of_not_object rfl]

def among (container names : List String) (path : List String) : Bool :=
  names.any fun name => path == container ++ [name]

theorem among_nil (names : List String) (key : String) :
    among [] names [key] = names.contains key := by
  rw [among, List.contains_eq_any_beq]
  congr 1
  funext name
  simp

theorem among_nil_cons (names : List String) (key other : String) (path : List String) :
    among [] names (key :: other :: path) = false := by
  simp [among]

theorem among_cons (key : String) (container names : List String) (other : String)
    (path : List String) : among (key :: container) names (other :: path) =
      (other == key && among container names path) := by
  by_cases h : other = key
  · simp [among, h]
  · simp [among, beq_false_of_ne h]

theorem without_eq_prune (container names : List String) (v : Value) :
    v.without container names = v.prune (among container names) := by
  induction container generalizing v with
  | nil =>
    cases v with
    | object ms =>
      have hbelow : ∀ m : String × Value,
          (m.1, m.2.prune fun path => among [] names (m.1 :: path)) = m := by
        intro m
        rw [prune_eq_self (among_nil_cons names m.1)]
      simp only [prune_object, among_nil, hbelow, List.map_id']
      rfl
    | _ => rw [prune_of_not_object rfl]; rfl
  | cons key container ih =>
    cases v with
    | object ms =>
      have hkeep : ∀ m : String × Value, among (key :: container) names [m.1] = false := by
        intro m
        simp [among]
      have hbelow : ∀ m : String × Value,
          (if m.1 = key then (m.1, m.2.without container names) else m) =
            (m.1, m.2.prune fun path => among (key :: container) names (m.1 :: path)) := by
        intro m
        by_cases hm : m.1 = key
        · have hgone : (fun path => among (key :: container) names (m.1 :: path)) =
              among container names := by
            funext path
            rw [among_cons, hm, beq_self_eq_true, Bool.true_and]
          rw [if_pos hm, hgone, ih]
        · rw [if_neg hm, prune_eq_self fun other path => by simp [among_cons, hm]]
      simp only [prune_object, hkeep, Bool.not_false, List.filter_true, ← hbelow]
      rfl
    | _ => rw [prune_of_not_object rfl]; rfl

end Json.Value

namespace Ignore

def prune (i : Ignore) (dialect : Dialect) (document : Value) : Value :=
  document.prune fun path => (i.places dialect).contains path

theorem withoutAll_eq_prune (ls : List (List String × List String)) (d : Value) :
    withoutAll ls d = d.prune fun path => ls.any fun l => Value.among l.1 l.2 path := by
  induction ls generalizing d with
  | nil => exact (Value.prune_eq_self fun _ _ => rfl).symm
  | cons l ls ih =>
    have hfirst : withoutAll (l :: ls) d = withoutAll ls (d.without l.1 l.2) := rfl
    rw [hfirst, ih, Value.without_eq_prune, Value.prune_prune]
    rfl

theorem contains_places (i : Ignore) (dialect : Dialect) (path : List String) :
    (i.places dialect).contains path =
      (i.lists dialect).any fun l => Value.among l.1 l.2 path := by
  rw [List.contains_eq_any_beq]
  cases dialect with
  | swagger =>
    simp only [places, lists, List.any_append, List.any_map, List.any_cons, List.any_nil,
      Bool.or_false]
    rfl
  | openApi =>
    simp only [places, lists, List.any_append, List.any_map, List.any_cons, List.any_flatMap]
    rfl

theorem contains_places_singleton (i : Ignore) (dialect : Dialect) (key : String) :
    (i.places dialect).contains [key] = false := by
  cases dialect <;> simp [places]

theorem filter_eq_prune (i : Ignore) (dialect : Dialect) {d : Value} (hd : d.Distinct) :
    i.filter dialect d = i.prune dialect d := by
  rw [filter_eq i dialect hd, withoutAll_eq_prune, prune]
  simp only [contains_places]

end Ignore

namespace Dialect

theorem hasObject_prune {gone : List String → Bool} {key : String} (h : gone [key] = false)
    (d : Value) : hasObject (d.prune gone) key = hasObject d key := by
  simp only [hasObject, Value.get?_prune, h]
  cases d.get? key with
  | none => rfl
  | some v => exact Value.isSome_members?_prune v

theorem stringAt?_prune {gone : List String → Bool} {key : String} (h : gone [key] = false)
    (d : Value) : (d.prune gone).stringAt? key = d.stringAt? key := by
  simp only [Value.stringAt?, Value.get?_prune, h]
  cases d.get? key with
  | none => rfl
  | some v => exact Value.string?_prune v

theorem detect?_prune (i : Ignore) (dialect : Dialect) (d : Value) :
    detect? (i.prune dialect d) = detect? d := by
  have hkeep := i.contains_places_singleton dialect
  simp only [detect?, Ignore.prune, hasObject_prune (hkeep _), stringAt?_prune (hkeep _)]

end Dialect

end ApiLint
