import ApiLint.Proofs.Json.Distinct
import ApiLint.Walk.Expansion
import Mathlib.Data.List.Nodup

/-!
# Members of sections

The members that a document has in its sections, each at its own place, in the order of the sections
and of the document. What a reference leads to is one of them, and in a distinct document the
section and the name of a member tell which it is.
-/

namespace ApiLint.Walk

open Json

variable {K S P : Type}

def Member.key (m : Member S) : S × String := (m.group, m.name)

namespace Grammar

variable {g : Grammar K S P} {root : Value} {s : S} {m : Member S}

def membersOf (g : Grammar K S P) (root : Value) (s : S) : List (Member S) :=
  match root.descend? (g.container s) >>= Value.members? with
  | some ms => ms.map fun m => ⟨s, m.1, ⟨g.container s ++ [m.1]⟩, m.2⟩
  | none => []

def members (g : Grammar K S P) (root : Value) : List (Member S) :=
  g.sections.flatMap (g.membersOf root)

def SectionsFit (g : Grammar K S P) (root : Value) : Prop :=
  ∀ holder, root.descend? g.holder = some holder → Shape.object.fits holder ∧
    ∀ s v, holder.get? (g.key s) = some v → Shape.object.fits v

theorem mem_membersOf_iff : m ∈ g.membersOf root s ↔ m.group = s ∧
    m.location = ⟨g.container s ++ [m.name]⟩ ∧
    ∃ ms, (root.descend? (g.container s) >>= Value.members?) = some ms ∧ (m.name, m.node) ∈ ms := by
  unfold membersOf
  cases root.descend? (g.container s) >>= Value.members? with
  | none => simp
  | some ms =>
    simp only [List.mem_map, Option.some.injEq, exists_eq_left']
    constructor
    · rintro ⟨e, he, rfl⟩
      exact ⟨rfl, rfl, he⟩
    · rintro ⟨rfl, hl, he⟩
      exact ⟨(m.name, m.node), he, by rw [← hl]⟩

theorem mem_members_iff : m ∈ g.members root ↔ m ∈ g.membersOf root m.group := by
  constructor
  · intro h
    obtain ⟨s, -, hs⟩ := List.mem_flatMap.1 h
    obtain rfl := (mem_membersOf_iff.1 hs).1
    exact hs
  · exact fun h => List.mem_flatMap.2 ⟨m.group, g.mem_sections _, h⟩

theorem memberNames_eq (g : Grammar K S P) (root : Value) :
    g.memberNames root = (g.members root).map Member.key := by
  simp only [memberNames, members, List.map_flatMap]
  congr 1
  funext s
  unfold membersOf
  cases root.descend? (g.container s) >>= Value.members? with
  | none => rfl
  | some ms => simp [Member.key]

theorem mem_members_of_target? {reference : String}
    (h : g.target? root s reference = some m) : m.group = s ∧ m ∈ g.members root := by
  unfold target? at h
  split at h
  case h_2 => cases h
  case h_1 name location node hr =>
    cases h
    obtain ⟨rfl, holder, hh, hn⟩ := Reference.resolve_eq_internal hr
    obtain ⟨ms, hms, hn⟩ := Option.bind_eq_some_iff.1 hn
    refine ⟨rfl, mem_members_iff.2 (mem_membersOf_iff.2 ⟨rfl, rfl, ms, ?_, Members.mem_of_get? hn⟩)⟩
    exact Option.bind_eq_some_iff.2 ⟨holder, hh, hms⟩

theorem location_of_mem_members (h : m ∈ g.members root) :
    m.location = ⟨g.container m.group ++ [m.name]⟩ :=
  (mem_membersOf_iff.1 (mem_members_iff.1 h)).2.1

theorem distinct_of_mem_members (hd : root.Distinct) (h : m ∈ g.members root) :
    m.node.Distinct := by
  obtain ⟨-, -, ms, hms, hm⟩ := mem_membersOf_iff.1 (mem_members_iff.1 h)
  obtain ⟨holder, hs, hms⟩ := Option.bind_eq_some_iff.1 hms
  exact (hd.of_descend? hs).of_mem_members hms hm

theorem descend?_of_mem_members (hd : root.Distinct) (h : m ∈ g.members root) :
    root.descend? m.location.segments = some m.node := by
  obtain ⟨-, hl, ms, hms, hm⟩ := mem_membersOf_iff.1 (mem_members_iff.1 h)
  obtain ⟨holder, hs, hms⟩ := Option.bind_eq_some_iff.1 hms
  have hget : holder.get? m.name = some m.node := Option.bind_eq_some_iff.2
    ⟨ms, hms, Members.get?_of_mem ((hd.of_descend? hs).nodup_keys hms) hm⟩
  rw [hl]
  simp only [Value.descend?_append, Value.descend?_singleton, hs]
  exact hget

theorem at?_of_mem_members (hd : root.Distinct) (h : m ∈ g.members root) :
    root.at? m.location.segments = some m.node :=
  Value.at?_of_descend? (descend?_of_mem_members hd h)

theorem nodup_keys_members (hs : g.sections.Nodup) (hd : root.Distinct) :
    ((g.members root).map Member.key).Nodup := by
  rw [members, List.map_flatMap, List.nodup_flatMap]
  constructor
  · intro s _
    unfold membersOf
    cases hms : root.descend? (g.container s) >>= Value.members? with
    | none => exact List.nodup_nil
    | some ms =>
      obtain ⟨v, hv, hm⟩ := Option.bind_eq_some_iff.1 hms
      have hn := (hd.of_descend? hv).nodup_keys hm
      have hkeys := hn.map (f := fun name => (s, name)) fun _ _ h => (Prod.mk.inj h).2
      simpa [Member.key, Members.keys, Function.comp_def] using hkeys
  · refine hs.imp ?_
    intro s t hne x hx hy
    obtain ⟨m, hm, rfl⟩ := List.mem_map.1 hx
    obtain ⟨n, hn, hkey⟩ := List.mem_map.1 hy
    obtain rfl := (mem_membersOf_iff.1 hm).1
    obtain rfl := (mem_membersOf_iff.1 hn).1
    exact hne (congrArg Prod.fst hkey).symm

theorem descend?_container {holder : Value} (hh : root.descend? g.holder = some holder) (s : S) :
    root.descend? (g.container s) = holder.get? (g.key s) := by
  rw [Value.descend?] at hh ⊢
  rw [container, List.foldlM_append, hh]
  simp

theorem sectionMembers_eq_ok_iff {holder : Value} (hh : root.descend? g.holder = some holder)
    {ms : List (Member S)} : g.sectionMembers holder s = .ok ms ↔
      (∀ v, holder.get? (g.key s) = some v → Shape.object.fits v) ∧ ms = g.membersOf root s := by
  unfold sectionMembers membersOf
  rw [descend?_container hh]
  cases holder.get? (g.key s) with
  | none => exact ⟨fun h => ⟨by simp, (Except.ok.inj h).symm⟩, fun h => congrArg _ h.2.symm⟩
  | some v =>
    cases hv : v.members? with
    | none => simp [hv, Shape.fits]
    | some es =>
      simp only [hv, Option.bind_eq_bind, Option.bind_some, Except.ok.injEq, Option.some.injEq,
        forall_eq']
      exact ⟨fun h => ⟨by simp [Shape.fits, hv], h.symm⟩, fun h => h.2.symm⟩

theorem membersOf_of_no_holder (hh : root.descend? g.holder = none) (s : S) :
    g.membersOf root s = [] := by
  have hs : root.descend? (g.container s) = none := by
    rw [Value.descend?] at hh ⊢
    rw [container, List.foldlM_append, hh]
    rfl
  rw [membersOf, hs]
  rfl

end Grammar

end ApiLint.Walk
