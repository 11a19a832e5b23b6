import ApiLint.Proofs.Document.Distinct

/-!
# Documents without what is ignored

What stands where after members are taken out of a container: the container is there with fewer
members, everything beside it and below its other members is as it was, and no index is another. A
document without its ignored members has none to take out.
-/

namespace ApiLint

open Json

namespace Json.Members

theorem get?_filter (keep : String → Bool) (ms : Members) (key : String) :
    get? (ms.filter fun m => keep m.1) key = if keep key then ms.get? key else none := by
  induction ms with
  | nil => simp
  | cons m ms ih =>
    obtain ⟨k, v⟩ := m
    by_cases hk : key = k
    · subst hk
      cases hkeep : keep key <;> simp_all [get?_cons]
    · cases hkeep : keep k <;> simp [hkeep, get?_cons, hk, ih]

theorem get?_map (f : String → Value → Value) (ms : Members) (key : String) :
    get? (ms.map fun m => (m.1, f m.1 m.2)) key = (ms.get? key).map (f key) := by
  induction ms with
  | nil => rfl
  | cons m ms ih =>
    obtain ⟨k, v⟩ := m
    by_cases hk : key = k
    · simp [get?_cons, hk]
    · simp [get?_cons, hk, ih]

theorem get?_map_at (key : String) (f : Value → Value) (ms : Members) (other : String) :
    get? (ms.map fun m => if m.1 = key then (m.1, f m.2) else m) other =
      if other = key then (ms.get? other).map f else ms.get? other := by
  induction ms with
  | nil => simp
  | cons m ms ih =>
    obtain ⟨k, v⟩ := m
    by_cases hk : k = key
    · simp only [hk, List.map_cons, if_true, get?_cons, ih]
      by_cases ho : other = key <;> simp [ho]
    · simp only [hk, List.map_cons, if_false, get?_cons, ih]
      by_cases ho : other = k
      · subst ho
        simp [hk]
      · simp [ho]

end Json.Members

namespace Json.Value

theorem members?_modifyMembers_nil (f : Members → Members) (v : Value) :
    (v.modifyMembers f []).members? = v.members?.map f := by
  cases v <;> rfl

theorem isSome_members?_modifyMembers (f : Members → Members) (path : List String) (v : Value) :
    (v.modifyMembers f path).members?.isSome = v.members?.isSome := by
  cases v <;> cases path <;> rfl

theorem items?_modifyMembers (f : Members → Members) (path : List String) (v : Value) :
    (v.modifyMembers f path).items? = v.items? := by
  cases v <;> cases path <;> rfl

theorem get?_modifyMembers_cons (f : Members → Members) (key : String) (path : List String)
    (v : Value) (other : String) : (v.modifyMembers f (key :: path)).get? other =
      if other = key then (v.get? other).map (modifyMembers f path) else v.get? other := by
  cases v with
  | object ms => exact Members.get?_map_at key (modifyMembers f path) ms other
  | _ => simp [modifyMembers, get?, members?]

theorem descend?_modifyMembers (f : Members → Members) (path rest : List String) (v : Value) :
    (v.modifyMembers f (path ++ rest)).descend? path =
      (v.descend? path).map (modifyMembers f rest) := by
  induction path generalizing v with
  | nil => rfl
  | cons key path ih =>
    rw [List.cons_append, descend?_cons, descend?_cons, get?_modifyMembers_cons, if_pos rfl]
    cases v.get? key with
    | none => rfl
    | some w => exact ih w

theorem descend?_modifyMembers_of_head_ne {key other : String} (h : other ≠ key)
    (f : Members → Members) (path rest : List String) (v : Value) :
    (v.modifyMembers f (key :: path)).descend? (other :: rest) = v.descend? (other :: rest) := by
  rw [descend?_cons, descend?_cons, get?_modifyMembers_cons, if_neg h]

theorem descend?_modifyMembers_of_last_ne {key other : String} (h : other ≠ key)
    (f : Members → Members) (path : List String) (v : Value) :
    (v.modifyMembers f (path ++ [key])).descend? (path ++ [other]) =
      v.descend? (path ++ [other]) := by
  rw [descend?_append, descend?_append, descend?_modifyMembers]
  cases v.descend? path with
  | none => rfl
  | some w => exact descend?_modifyMembers_of_head_ne h f [] [] w

end Json.Value

namespace Json.Value

variable {container names : List String} {v w x : Value}

def without (container names : List String) (v : Value) : Value :=
  v.modifyMembers (Ignore.removeNames names) container

theorem get?_without_nil (names : List String) (v : Value) (key : String) :
    (v.without [] names).get? key = if names.contains key then none else v.get? key := by
  cases v with
  | object ms =>
    change Members.get? (ms.filter fun m => !names.contains m.1) key = _
    rw [Members.get?_filter fun key => !names.contains key]
    cases names.contains key <;> rfl
  | _ => simp [without, modifyMembers, get?, members?]

theorem get?_without_cons (key : String) (path names : List String) (v : Value) (other : String) :
    (v.without (key :: path) names).get? other =
      if other = key then (v.get? other).map (without path names) else v.get? other :=
  get?_modifyMembers_cons _ key path v other

theorem descend?_without_self (container names : List String) (v : Value) :
    (v.without container names).descend? container =
      (v.descend? container).map (without [] names) := by
  have h := descend?_modifyMembers (Ignore.removeNames names) container [] v
  rwa [List.append_nil] at h

theorem without_of_not_object (h : v.members? = none) : v.without container names = v := by
  cases v with
  | object ms => cases h
  | _ => cases container <;> rfl

theorem child?_eq_get? (h : v.members?.isSome) (segment : String) :
    v.child? segment = v.get? segment := by
  cases v with
  | object ms => rfl
  | _ => cases h

def Trimmed (names : List String) (v w : Value) : Prop :=
  w = v ∨ ∃ container, w = v.without container names

namespace Trimmed

theorem get? (h : Trimmed names v w) {key : String} (hx : w.get? key = some x) :
    ∃ y, v.get? key = some y ∧ Trimmed names y x := by
  rcases h with rfl | ⟨container, rfl⟩
  · exact ⟨x, hx, .inl rfl⟩
  · cases container with
    | nil =>
      rw [get?_without_nil] at hx
      split at hx
      case isTrue => cases hx
      case isFalse => exact ⟨x, hx, .inl rfl⟩
    | cons k path =>
      rw [get?_without_cons] at hx
      split at hx
      case isTrue =>
        obtain ⟨y, hy, rfl⟩ := Option.map_eq_some_iff.1 hx
        exact ⟨y, hy, .inr ⟨path, rfl⟩⟩
      case isFalse => exact ⟨x, hx, .inl rfl⟩

theorem isSome_members? (h : Trimmed names v w) : w.members?.isSome = v.members?.isSome := by
  rcases h with rfl | ⟨container, rfl⟩
  · rfl
  · exact isSome_members?_modifyMembers _ _ _

theorem child? (h : Trimmed names v w) {segment : String} (hx : w.child? segment = some x) :
    ∃ y, v.child? segment = some y ∧ Trimmed names y x := by
  cases hm : v.members? with
  | none =>
    -- Only objects lose members, so the elements of an array are where they were.
    obtain rfl : w = v := by
      rcases h with rfl | ⟨container, rfl⟩
      · rfl
      · exact without_of_not_object hm
    exact ⟨x, hx, .inl rfl⟩
  | some ms =>
    have hv : v.members?.isSome := by rw [hm]; rfl
    rw [child?_eq_get? (h.isSome_members?.trans hv)] at hx
    rw [child?_eq_get? hv]
    exact h.get? hx

theorem descend? (h : Trimmed names v w) {path : List String} (hx : w.descend? path = some x) :
    ∃ y, v.descend? path = some y ∧ Trimmed names y x := by
  induction path generalizing v w with
  | nil => cases hx; exact ⟨v, rfl, h⟩
  | cons key path ih =>
    obtain ⟨u, hu, hx⟩ := Option.bind_eq_some_iff.1 hx
    obtain ⟨t, ht, htu⟩ := h.get? hu
    obtain ⟨y, hy, hyx⟩ := ih htu hx
    exact ⟨y, Option.bind_eq_some_iff.2 ⟨t, ht, hy⟩, hyx⟩

theorem at? (h : Trimmed names v w) {segments : List String} (hx : w.at? segments = some x) :
    ∃ y, v.at? segments = some y ∧ Trimmed names y x := by
  induction segments generalizing v w with
  | nil => cases hx; exact ⟨v, rfl, h⟩
  | cons segment segments ih =>
    obtain ⟨u, hu, hx⟩ := Option.bind_eq_some_iff.1 hx
    obtain ⟨t, ht, htu⟩ := h.child? hu
    obtain ⟨y, hy, hyx⟩ := ih htu hx
    exact ⟨y, Option.bind_eq_some_iff.2 ⟨t, ht, hy⟩, hyx⟩

end Trimmed

theorem trimmed_without (container names : List String) (v : Value) :
    Trimmed names v (v.without container names) :=
  .inr ⟨container, rfl⟩

end Json.Value

namespace Ignore

variable {d : Value} {container names : List String}

theorem hasAny_iff : hasAny d container names = true ↔
    ∃ name ∈ names, (d.descend? (container ++ [name])).isSome := by
  have hstep : ∀ name, d.descend? (container ++ [name]) =
      d.descend? container >>= (·.get? name) := by
    intro name
    rw [Value.descend?_append]
    simp only [Value.descend?_singleton]
  simp only [hstep, hasAny]
  cases d.descend? container with
  | none => simp
  | some v =>
    cases hm : v.members? with
    | none => simp [Value.get?, hm]
    | some ms => simp [Value.get?, hm, Members.contains]

theorem hasAny_of_trimmed {names' : List String} {d' : Value} (h : Value.Trimmed names' d d')
    (hany : hasAny d' container names = true) : hasAny d container names = true := by
  obtain ⟨name, hname, hsome⟩ := hasAny_iff.1 hany
  obtain ⟨x, hx⟩ := Option.isSome_iff_exists.1 hsome
  obtain ⟨y, hy, -⟩ := h.descend? hx
  exact hasAny_iff.2 ⟨name, hname, by rw [hy]; rfl⟩

theorem not_hasAny_without (container names : List String) (d : Value) :
    hasAny (d.without container names) container names = false := by
  rw [Bool.eq_false_iff, Ne, hasAny_iff]
  rintro ⟨name, hname, hsome⟩
  obtain ⟨x, hx⟩ := Option.isSome_iff_exists.1 hsome
  rw [Value.descend?_append] at hx
  obtain ⟨w, hw, hx⟩ := Option.bind_eq_some_iff.1 hx
  rw [Value.descend?_without_self] at hw
  obtain ⟨v, -, rfl⟩ := Option.map_eq_some_iff.1 hw
  rw [Value.descend?_singleton, Value.get?_without_nil,
    if_pos (List.contains_iff_mem.2 hname)] at hx
  cases hx

theorem without_of_not_hasAny (hd : d.Distinct) (h : hasAny d container names = false) :
    d.without container names = d := by
  induction container generalizing d with
  | nil =>
    cases d with
    | object ms =>
      have hkeep : removeNames names ms = ms := by
        refine List.filter_eq_self.2 fun m hm => ?_
        have hget := Members.get?_of_mem (hd.nodup_keys rfl) hm
        have hmem : m.1 ∉ names := by
          intro hname
          have hany : hasAny (.object ms) [] names = true := hasAny_iff.2 ⟨m.1, hname, by
            rw [List.nil_append, Value.descend?_singleton, Value.get?_object, hget]
            rfl⟩
          rw [h] at hany
          cases hany
        simpa using hmem
      exact congrArg Value.object hkeep
    | _ => rfl
  | cons key path ih =>
    cases d with
    | object ms =>
      have hkeep : ∀ m ∈ ms,
          (if m.1 = key then (m.1, m.2.modifyMembers (removeNames names) path) else m) = m := by
        intro m hm
        split
        case isFalse => rfl
        case isTrue hkey =>
          have hget := Members.get?_of_mem (hd.nodup_keys rfl) hm
          rw [hkey] at hget
          have hbelow : hasAny m.2 path names = false := by
            rw [hasAny, Value.descend?_cons, Value.get?_object, hget] at h
            exact h
          exact Prod.ext rfl (ih (hd.of_mem_members rfl hm) hbelow)
      exact congrArg Value.object ((List.map_congr_left hkeep).trans (List.map_id' ms))
    | _ => rfl

def withoutAll (ls : List (List String × List String)) (d : Value) : Value :=
  ls.foldl (fun d l => d.without l.1 l.2) d

theorem withoutAll_eq_self (hd : d.Distinct) {ls : List (List String × List String)}
    (h : ∀ l ∈ ls, hasAny d l.1 l.2 = false) : withoutAll ls d = d := by
  induction ls with
  | nil => rfl
  | cons l ls ih =>
    obtain ⟨hl, hls⟩ := List.forall_mem_cons.1 h
    rw [withoutAll, List.foldl_cons, without_of_not_hasAny hd hl]
    exact ih hls

theorem filter_eq (i : Ignore) (dialect : Dialect) (hd : d.Distinct) :
    i.filter dialect d = withoutAll (i.lists dialect) d := by
  unfold filter filter?
  split
  case isTrue => rfl
  case isFalse h =>
    have hnone : ∀ l ∈ i.lists dialect, hasAny d l.1 l.2 = false := by simpa using h
    exact (withoutAll_eq_self hd hnone).symm

theorem hasAny_of_withoutAll {ls : List (List String × List String)}
    (h : hasAny (withoutAll ls d) container names = true) : hasAny d container names = true := by
  induction ls generalizing d with
  | nil => exact h
  | cons l ls ih => exact hasAny_of_trimmed (Value.trimmed_without l.1 l.2 d) (ih h)

theorem not_hasAny_withoutAll {ls : List (List String × List String)} :
    ∀ l ∈ ls, hasAny (withoutAll ls d) l.1 l.2 = false := by
  induction ls generalizing d with
  | nil => exact List.forall_mem_nil _
  | cons l ls ih =>
    refine List.forall_mem_cons.2 ⟨?_, ih⟩
    rw [Bool.eq_false_iff]
    intro hany
    have hself := hasAny_of_withoutAll (d := d.without l.1 l.2) hany
    rw [not_hasAny_without] at hself
    cases hself

theorem filter_eq_self {i : Ignore} {dialect : Dialect}
    (h : ∀ l ∈ i.lists dialect, hasAny d l.1 l.2 = false) : i.filter dialect d = d := by
  have hnone : ((i.lists dialect).any fun l => hasAny d l.1 l.2) = false := by
    rw [List.any_eq_false]
    intro l hl
    rw [h l hl]
    exact Bool.false_ne_true
  rw [filter, filter?, hnone]
  rfl

theorem filter_eq_or (i : Ignore) (dialect : Dialect) (d : Value) :
    i.filter dialect d = withoutAll (i.lists dialect) d ∨ i.filter dialect d = d := by
  unfold filter filter?
  split
  case isTrue => exact .inl rfl
  case isFalse => exact .inr rfl

theorem filter_filter (i : Ignore) (dialect : Dialect) (d : Value) :
    i.filter dialect (i.filter dialect d) = i.filter dialect d := by
  rcases i.filter_eq_or dialect d with h | h
  · rw [h]
    exact filter_eq_self not_hasAny_withoutAll
  · rw [h, h]

theorem filter_empty (dialect : Dialect) (d : Value) : empty.filter dialect d = d := by
  have hnames : ∀ l ∈ empty.lists dialect, l.2 = [] := by
    cases dialect <;> simp [lists, empty]
  refine filter_eq_self fun l hl => ?_
  rw [Bool.eq_false_iff, Ne, hasAny_iff, hnames l hl]
  simp

theorem exists_at?_of_withoutAll {ls : List (List String × List String)} {segments : List String}
    {x : Value} (h : (withoutAll ls d).at? segments = some x) :
    ∃ y, d.at? segments = some y := by
  induction ls generalizing d x with
  | nil => exact ⟨x, h⟩
  | cons l ls ih =>
    obtain ⟨y, hy⟩ := ih (d := d.without l.1 l.2) h
    obtain ⟨z, hz, -⟩ := (Value.trimmed_without l.1 l.2 d).at? hy
    exact ⟨z, hz⟩

theorem exists_at?_of_filter {i : Ignore} {dialect : Dialect} {segments : List String} {x : Value}
    (h : (i.filter dialect d).at? segments = some x) : ∃ y, d.at? segments = some y := by
  rcases i.filter_eq_or dialect d with heq | heq
  · rw [heq] at h
    exact exists_at?_of_withoutAll h
  · rw [heq] at h
    exact ⟨x, h⟩

/-- The location is at or below a member of one of these names in a container. -/
def hides (container names : List String) (l : Location) : Bool :=
  names.any fun name => (container ++ [name]).isPrefixOf l.segments

theorem hides_iff {l : Location} : hides container names l = true ↔
    ∃ name ∈ names, container ++ [name] <+: l.segments := by
  simp only [hides, List.any_eq_true, List.isPrefixOf_iff_prefix]

theorem hides_child (container names : List String) (name : String) :
    hides container names ⟨container ++ [name]⟩ = names.contains name := by
  rw [Bool.eq_iff_iff, hides_iff, List.contains_iff_mem]
  simp

theorem hides_of_within {l m : Location} (h : hides container names l = true)
    (hm : l.segments <+: m.segments) : hides container names m = true := by
  obtain ⟨name, hname, hl⟩ := hides_iff.1 h
  exact hides_iff.2 ⟨name, hname, hl.trans hm⟩

theorem hides_above {l : Location} (h : l.segments <+: container) :
    hides container names l = false := by
  rw [Bool.eq_false_iff, Ne, hides_iff]
  rintro ⟨name, -, hname⟩
  have hle := (hname.trans h).length_le
  simp only [List.length_append, List.length_singleton] at hle
  omega

theorem hides_apart {place : List String} (hp : ¬ place <+: container) (hc : ¬ container <+: place)
    {l : Location} (h : place <+: l.segments) : hides container names l = false := by
  rw [Bool.eq_false_iff, Ne, hides_iff]
  rintro ⟨name, -, hname⟩
  have hbelow : container <+: l.segments := (List.prefix_append _ _).trans hname
  exact (List.prefix_or_prefix_of_prefix h hbelow).elim hp hc

def places (i : Ignore) : Dialect → List (List String)
  | .swagger => i.paths.map (fun p => ["paths", p]) ++ i.definitions.map fun n => ["definitions", n]
  | .openApi => i.paths.map (fun p => ["paths", p]) ++
      OpenApi.Section.all.flatMap fun s => (i.components s).map fun n => ["components", s.key, n]

/-- The location is at or below an ignored member. -/
def covers (i : Ignore) (dialect : Dialect) (l : Location) : Bool :=
  (i.places dialect).any fun place => place.isPrefixOf l.segments

theorem covers_eq (i : Ignore) (dialect : Dialect) (l : Location) :
    i.covers dialect l = (i.lists dialect).any fun e => hides e.1 e.2 l := by
  cases dialect with
  | swagger =>
    simp only [covers, places, lists, List.any_append, List.any_map, List.any_cons, List.any_nil,
      Bool.or_false]
    rfl
  | openApi =>
    simp only [covers, places, lists, List.any_append, List.any_map, List.any_cons,
      List.any_flatMap]
    rfl

end Ignore

end ApiLint
