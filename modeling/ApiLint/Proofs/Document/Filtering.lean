import ApiLint.Proofs.Config.Merging
import ApiLint.Proofs.Dialects.Ignored
import ApiLint.Proofs.Document.Pruning

/-!
# Filtered documents

Filtering goes through the containers one after the other, once to see whether a member is ignored
and once to take such members out. What remains can be said in one pass over the document: in each
container the members of these names are gone, and nothing else is another. Filters compose as their
lists of names do, so neither their order nor their number matters.
-/

namespace ApiLint

open Json

namespace Json.Value

def overMembers (f : Members → Members) : Value → Value
  | .object ms => .object (f ms)
  | v => v

def dropNames (names : List String) : Value → Value :=
  overMembers fun ms => ms.filter fun m => m.1 ∉ names

def mapMembers (f : String → Value → Value) : Value → Value :=
  overMembers fun ms => ms.map fun m => (m.1, f m.1 m.2)

theorem prune_among_nil (names : List String) (v : Value) :
    v.prune (among [] names) = v.dropNames names := by
  rw [← without_eq_prune]
  cases v with
  | object ms => simp [without, modifyMembers, Ignore.removeNames, dropNames, overMembers]
  | _ => rfl

theorem prune_eq_mapMembers {gone : List String → Bool} (h : ∀ key, gone [key] = false)
    (v : Value) :
    v.prune gone = v.mapMembers fun key w => w.prune fun path => gone (key :: path) := by
  cases v with
  | object ms => simp [prune_object, h, mapMembers, overMembers]
  | _ => exact prune_of_not_object rfl

end Json.Value

namespace OpenApi.Section

theorem any_key (key : String) (holds : Section → Bool) :
    (all.any fun s => key == s.key && holds s) = (ofKey? key).any holds := by
  cases h : ofKey? key with
  | none =>
    rw [Option.any_none, List.any_eq_false]
    intro s hs
    have hne : s.key ≠ key := by simpa using List.find?_eq_none.1 h s hs
    simp [Ne.symm hne]
  | some s =>
    obtain rfl : s.key = key := by simpa using List.find?_some h
    rw [Option.any_some, Bool.eq_iff_iff, List.any_eq_true]
    constructor
    · rintro ⟨t, -, ht⟩
      obtain ⟨hkey, ht⟩ := Bool.and_eq_true_iff.1 ht
      obtain rfl : s = t := Option.some.inj (by
        rw [← ofKey?_key s, eq_of_beq hkey, ofKey?_key])
      exact ht
    · intro hs
      exact ⟨s, mem_all s, by simp [hs]⟩

end OpenApi.Section

namespace Ignore

variable {i j : Ignore} {dialect : Dialect} {d : Value}

/-- The document in which the containers have lost the members that are ignored in them. -/
def remainder (i : Ignore) : Dialect → Value → Value
  | .swagger => Value.mapMembers fun key v =>
    if key = "paths" then v.dropNames i.paths
    else if key = "definitions" then v.dropNames i.definitions
    else v
  | .openApi => Value.mapMembers fun key v =>
    if key = "paths" then v.dropNames i.paths
    else if key = "components" then v.mapMembers fun key w => w.dropNames (i.section? key)
    else v

theorem among_section (i : Ignore) (key : String) (path : List String) :
    (OpenApi.Section.all.any fun s => Value.among [s.key] (i.components s) (key :: path)) =
      Value.among [] (i.section? key) path := by
  simp only [Value.among_cons]
  rw [OpenApi.Section.any_key key fun s => Value.among [] (i.components s) path, section?]
  cases OpenApi.Section.ofKey? key <;> rfl

theorem prune_components (i : Ignore) (v : Value) :
    (v.prune fun path => OpenApi.Section.all.any fun s =>
      Value.among [s.key] (i.components s) path) =
    v.mapMembers fun key w => w.dropNames (i.section? key) := by
  have hself : ∀ key, (OpenApi.Section.all.any fun s =>
      Value.among [s.key] (i.components s) [key]) = false := by
    intro key
    rw [List.any_eq_false]
    intro s _
    simp [Value.among]
  rw [Value.prune_eq_mapMembers hself]
  congr 1
  funext key w
  simp only [among_section, Value.prune_among_nil]

theorem prune_eq_remainder (i : Ignore) (dialect : Dialect) (d : Value) :
    i.prune dialect d = i.remainder dialect d := by
  rw [prune, Value.prune_eq_mapMembers (contains_places_singleton i dialect)]
  simp only [contains_places]
  cases dialect with
  | swagger =>
    unfold remainder
    congr 1
    funext key v
    simp only [lists, List.any_cons, List.any_nil, Value.among_cons, Bool.or_false]
    by_cases hpaths : key = "paths"
    · simp [hpaths, Value.prune_among_nil]
    · by_cases hdefinitions : key = "definitions"
      · simp [hdefinitions, Value.prune_among_nil]
      · simp [hpaths, hdefinitions, Value.prune_eq_self]
  | openApi =>
    unfold remainder
    congr 1
    funext key v
    simp only [lists, List.any_cons, List.any_map, Function.comp_def, OpenApi.Section.container,
      Value.among_cons, ← List.and_any_distrib_left]
    by_cases hpaths : key = "paths"
    · simp [hpaths, Value.prune_among_nil]
    · by_cases hcomponents : key = "components"
      · simp [hcomponents, prune_components]
      · simp [hpaths, hcomponents, Value.prune_eq_self]

theorem mem_places_iff {place : List String} : place ∈ i.places dialect ↔
    ∃ l ∈ i.lists dialect, ∃ name ∈ l.2, place = l.1 ++ [name] := by
  rw [← List.contains_iff_mem, contains_places]
  simp only [Value.among, List.any_eq_true, beq_iff_eq]

theorem isSome_filter?_eq (i : Ignore) (dialect : Dialect) (d : Value) :
    (i.filter? dialect d).isSome = (i.lists dialect).any fun l => hasAny d l.1 l.2 := by
  rw [filter?]
  split
  case isTrue h => rw [h]; rfl
  case isFalse h => rw [Bool.eq_false_iff.2 h]; rfl

theorem isSome_filter?_iff : (i.filter? dialect d).isSome ↔
    ∃ place ∈ i.places dialect, ∃ v, d.descend? place = some v := by
  simp only [isSome_filter?_eq, List.any_eq_true, hasAny_iff, mem_places_iff,
    Option.isSome_iff_exists]
  constructor
  · rintro ⟨l, hl, name, hname, hv⟩
    exact ⟨_, ⟨l, hl, name, hname, rfl⟩, hv⟩
  · rintro ⟨_, ⟨l, hl, name, hname, rfl⟩, hv⟩
    exact ⟨l, hl, name, hname, hv⟩

theorem isSome_filter?_iff_ne : (i.filter? dialect d).isSome ↔ i.filter dialect d ≠ d := by
  constructor
  · intro h heq
    -- What was returned has no ignored member, so it is not the document that had one.
    obtain ⟨filtered, hfiltered⟩ := Option.isSome_iff_exists.1 h
    rw [isSome_filter?_eq, List.any_eq_true] at h
    obtain ⟨l, hl, hany⟩ := h
    have hall : filtered = withoutAll (i.lists dialect) d := by
      rw [filter?] at hfiltered
      split at hfiltered
      · exact (Option.some.inj hfiltered).symm
      · cases hfiltered
    rw [filter, hfiltered, Option.getD_some, hall] at heq
    have hnone := not_hasAny_withoutAll (d := d) l hl
    rw [heq, hany] at hnone
    cases hnone
  · intro h
    by_contra hnone
    rw [Option.not_isSome_iff_eq_none] at hnone
    exact h (by rw [filter, hnone]; rfl)

theorem mem_places_merge {path : List String} :
    path ∈ (i.merge j).places dialect ↔ path ∈ i.places dialect ∨ path ∈ j.places dialect := by
  cases dialect with
  | swagger =>
    simp only [places, merge, List.mem_append, List.mem_map, mem_union, or_and_right, exists_or]
    exact or_or_or_comm
  | openApi =>
    simp only [places, merge, List.mem_append, List.mem_map, List.mem_flatMap, mem_union,
      or_and_right, exists_or, and_or_left]
    exact or_or_or_comm

theorem prune_merge (i j : Ignore) (dialect : Dialect) (d : Value) :
    j.prune dialect (i.prune dialect d) = (i.merge j).prune dialect d := by
  have hgone : ∀ path, ((i.merge j).places dialect).contains path =
      ((i.places dialect).contains path || (j.places dialect).contains path) := by
    intro path
    rw [Bool.eq_iff_iff, Bool.or_eq_true]
    simp only [List.contains_iff_mem]
    exact mem_places_merge
  simp only [prune, Value.prune_prune, hgone]

theorem prune_comm (i j : Ignore) (dialect : Dialect) (d : Value) :
    j.prune dialect (i.prune dialect d) = i.prune dialect (j.prune dialect d) := by
  simp only [prune, Value.prune_prune, Bool.or_comm]

theorem filter_filter_eq_prune (hd : d.Distinct) (i j : Ignore) (dialect : Dialect) :
    j.filter dialect (i.filter dialect d) = j.prune dialect (i.prune dialect d) := by
  rw [filter_eq_prune j dialect (i.distinct_filter dialect hd), filter_eq_prune i dialect hd]

/-- What a filter makes of a document, and whether it returns another one. -/
structure Filters (i : Ignore) (dialect : Dialect) (d : Value) : Prop where
  remains : i.filter dialect d = i.remainder dialect d
  present : (i.filter? dialect d).isSome ↔
    ∃ place ∈ i.places dialect, ∃ v, d.descend? place = some v
  differs : (i.filter? dialect d).isSome ↔ i.filter dialect d ≠ d
  detected : Dialect.detect? (i.filter dialect d) = Dialect.detect? d

theorem filters (hd : d.Distinct) (i : Ignore) (dialect : Dialect) : i.Filters dialect d where
  remains := (filter_eq_prune i dialect hd).trans (prune_eq_remainder i dialect d)
  present := isSome_filter?_iff
  differs := isSome_filter?_iff_ne
  detected := by rw [filter_eq_prune i dialect hd, Dialect.detect?_prune]

theorem filters_compose (hd : d.Distinct) (i j : Ignore) (dialect : Dialect) :
    i.Filters dialect d ∧
    j.filter dialect (i.filter dialect d) = (i.merge j).filter dialect d ∧
    i.filter dialect (i.filter dialect d) = i.filter dialect d ∧
    j.filter dialect (i.filter dialect d) = i.filter dialect (j.filter dialect d) := by
  refine ⟨filters hd i dialect, ?_, filter_filter i dialect d, ?_⟩
  · rw [filter_filter_eq_prune hd, prune_merge, filter_eq_prune (i.merge j) dialect hd]
  · rw [filter_filter_eq_prune hd, filter_filter_eq_prune hd, prune_comm]

def noPets : Ignore where
  definitions := ["Pet", "Owner"]
  paths := ["/pets/", "/dogs/"]
  components s := if s = .schemas then ["Pet"] else []

theorem filters_compose_petStore : petStore.Distinct ∧ noOwners.Filters .openApi petStore ∧
    (noOwners.filter? .openApi petStore).isSome ∧
    noPets.filter .openApi (noOwners.filter .openApi petStore) =
      (noOwners.merge noPets).filter .openApi petStore ∧
    noOwners.filter .openApi (noOwners.filter .openApi petStore) =
      noOwners.filter .openApi petStore ∧
    noPets.filter .openApi (noOwners.filter .openApi petStore) =
      noOwners.filter .openApi (noPets.filter .openApi petStore) := by
  obtain ⟨hfilters, hcompose⟩ := filters_compose distinct_petStore noOwners noPets .openApi
  exact ⟨distinct_petStore, hfilters, by cbv, hcompose⟩

end Ignore

end ApiLint
