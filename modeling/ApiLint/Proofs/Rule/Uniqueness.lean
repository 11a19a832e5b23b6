import ApiLint.Proofs.Rule.Places
import Mathlib.Data.List.DropRight

/-!
# Reports told apart

No two reports of a rule are about the same place. What a rule says of one node it says of different
things in it, and the location of a report leads back to the node that it is said of: a check goes
on from the node by a fixed number of segments, or by a segment that leads to no node of the kind
that it looks at.
-/

namespace ApiLint

open Json

variable {K : Type}

namespace Location

def up (l : Location) (n : Nat) : Location := ⟨l.segments.rdrop n⟩

theorem up_zero (l : Location) : l.up 0 = l := by
  rw [up, List.rdrop_zero]

theorem up_child (l : Location) (segment : String) (n : Nat) :
    (l.child segment).up (n + 1) = l.up n := by
  rw [up, segments_child, List.rdrop_concat_succ, up]

theorem child_injective (l : Location) : Function.Injective l.child := by
  intro a b h
  have hsegments : l.segments ++ [a] = l.segments ++ [b] := congrArg Location.segments h
  simpa using hsegments

end Location

theorem Json.Value.Distinct.nodup_keys_descend? {v : Value} (hv : v.Distinct)
    (path : List String) : ((v.descend? path >>= Value.members?).getD []).keys.Nodup := by
  cases hms : v.descend? path >>= Value.members? with
  | none => exact List.nodup_nil
  | some ms =>
    obtain ⟨w, hw, hms⟩ := Option.bind_eq_some_iff.1 hms
    exact (hv.of_descend? hw).nodup_keys hms

/-- The reports about one node are about different places, and `origin` leads back from them to the
node, if that stands where nodes of its kind do. -/
structure Subscription.Traces (s : Subscription K) (stands : K → Location → Prop)
    (origin : Location → Location) : Prop where
  kinds : s.kinds.Nodup
  nodup : ∀ kind ∈ s.kinds, ∀ setting l node, node.Distinct →
    ((s.check kind setting l node).map Report.location).Nodup
  origin_eq : ∀ kind ∈ s.kinds, ∀ setting l node, stands kind l →
    ∀ r ∈ s.check kind setting l node, origin r.location = l

namespace Rule

theorem nodup_of_one {rs : List Report} {p : Report → Prop} (h : rs = [] ∨ ∃ r, rs = [r] ∧ p r) :
    (rs.map Report.location).Nodup ∧ ∀ r ∈ rs, p r := by
  rcases h with rfl | ⟨r, rfl, hr⟩
  · exact ⟨List.nodup_nil, List.forall_mem_nil _⟩
  · exact ⟨List.nodup_singleton _, List.forall_mem_singleton.2 hr⟩

def OfNode (check : Setting → Location → Value → List Report) : Prop :=
  ∀ setting l node, check setting l node = [] ∨ ∃ r, check setting l node = [r] ∧ r.location = l

theorem OfNode.traces {check : Setting → Location → Value → List Report} (h : OfNode check)
    (kind : K) (stands : K → Location → Prop) :
    (Subscription.of [kind] check).Traces stands id where
  kinds := List.nodup_singleton kind
  nodup _ _ setting l node _ := (nodup_of_one (h setting l node)).1
  origin_eq _ _ setting l node _ r hr := (nodup_of_one (h setting l node)).2 r hr

theorem ofNode_checkReference : OfNode checkReference := by
  intro _ l node
  unfold checkReference
  split
  case h_1 reference _ =>
    by_cases hi : Reference.isInternal reference = true
    · exact .inl (if_pos hi)
    · exact .inr ⟨_, if_neg hi, rfl⟩
  case h_2 => exact .inl rfl

theorem ofNode_checkTags : OfNode checkTags := by
  intro _ l node
  by_cases ht : isTagged node = true
  · exact .inl (if_pos ht)
  · exact .inr ⟨_, if_neg ht, rfl⟩

theorem ofNode_checkDescription : OfNode checkDescription := by
  intro _ l node
  by_cases hd : isDescribed node = true
  · exact .inl (if_pos hd)
  · exact .inr ⟨_, if_neg hd, rfl⟩

theorem nodup_of_names {ms : Members} (hn : ms.keys.Nodup) (p : String → Bool) {l : Location}
    {f : String → Report} (hf : ∀ key, (f key).location = l.child key) :
    (((ms.keys.filter p).map f).map Report.location).Nodup := by
  have hmap : ((ms.keys.filter p).map f).map Report.location = (ms.keys.filter p).map l.child := by
    rw [List.map_map]
    exact List.map_congr_left fun key _ => hf key
  rw [hmap]
  exact (hn.filter p).map l.child_injective

theorem nodup_checkNames (setting : Setting) (l : Location) {ms : Members} (hn : ms.keys.Nodup) :
    ((checkNames setting l ms).map Report.location).Nodup :=
  nodup_of_names hn _ fun _ => rfl

theorem up_of_mem_checkNames {setting : Setting} {l : Location} {ms : Members} {r : Report}
    (hr : r ∈ checkNames setting l ms) (n : Nat) : r.location.up (n + 1) = l.up n := by
  obtain ⟨name, -, rfl⟩ := List.mem_map.1 hr
  exact l.up_child name n

theorem traces_latinDefinitionsOnly (stands : Swagger.Kind → Location → Prop)
    (stands' : OpenApi.Kind → Location → Prop) :
    latinDefinitionsOnly.swagger.Traces stands (·.up 1) ∧
    latinDefinitionsOnly.openApi.Traces stands' (·.up 2) := by
  constructor
  case left =>
    refine ⟨List.nodup_singleton _, fun _ _ setting l node hd => ?_,
      fun _ _ setting l node _ r hr => ?_⟩
    · exact nodup_checkNames setting l (hd.nodup_keys_descend? [])
    · exact (up_of_mem_checkNames hr 0).trans l.up_zero
  case right =>
    refine ⟨List.nodup_singleton _, fun _ _ setting l node hd => ?_,
      fun _ _ setting l node _ r hr => ?_⟩
    · have hkeys := hd.nodup_keys_descend? ["schemas"]
      rw [Value.descend?_singleton] at hkeys
      exact nodup_checkNames setting (l.child "schemas") hkeys
    · calc r.location.up 2 = (l.child "schemas").up 1 := up_of_mem_checkNames hr 1
        _ = l.up 0 := l.up_child "schemas" 0
        _ = l := l.up_zero

theorem traces_checkProperties (kind : K) (stands : K → Location → Prop) :
    (Subscription.of [kind] checkProperties).Traces stands (·.up 2) where
  kinds := List.nodup_singleton kind
  nodup _ _ setting l node hd := by
    have hkeys := hd.nodup_keys_descend? ["properties"]
    rw [Value.descend?_singleton] at hkeys
    exact nodup_of_names hkeys _ fun _ => rfl
  origin_eq _ _ setting l node _ r hr := by
    obtain ⟨key, -, rfl⟩ := List.mem_map.1 hr
    calc ((l.child "properties").child key).up 2 = (l.child "properties").up 1 :=
          (l.child "properties").up_child key 1
      _ = l.up 0 := l.up_child "properties" 0
      _ = l := l.up_zero

theorem nodup_checkUrl (key : String) (l : Location) (node : Value) :
    ((checkUrl key l node).map Report.location).Nodup := by
  unfold checkUrl
  split
  case h_1 url _ => by_cases hs : hasTrailingSlash url = true <;> simp [hs]
  case h_2 => exact List.nodup_nil

theorem up_of_mem_checkUrl {key : String} {l : Location} {node : Value} {r : Report}
    (hr : r ∈ checkUrl key l node) : r.location.up 1 = l := by
  rw [(exists_of_mem_checkUrl hr).1]
  exact (l.up_child key 0).trans l.up_zero

theorem nodup_checkPathNames (l : Location) {node : Value} (hd : node.Distinct) :
    ((checkPathNames l node).map Report.location).Nodup :=
  nodup_of_names (hd.nodup_keys_descend? []) _ fun _ => rfl

theorem up_of_mem_checkPathNames {l : Location} {node : Value} {r : Report}
    (hr : r ∈ checkPathNames l node) : r.location.up 1 = l := by
  obtain ⟨path, -, rfl⟩ := List.mem_map.1 hr
  exact (l.up_child path 0).trans l.up_zero

theorem traces_noTrailingSlash (stands : Swagger.Kind → Location → Prop)
    (stands' : OpenApi.Kind → Location → Prop) :
    noTrailingSlash.swagger.Traces stands (·.up 1) ∧
    noTrailingSlash.openApi.Traces stands' (·.up 1) := by
  constructor
  case left =>
    refine ⟨by decide, fun kind hkind setting l node hd => ?_,
      fun kind hkind setting l node _ r hr => ?_⟩
    · rcases List.mem_pair.1 hkind with rfl | rfl
      · change ((checkUrl "host" l node ++ checkUrl "basePath" l node).map Report.location).Nodup
        rw [List.map_append]
        refine (nodup_checkUrl _ l node).append (nodup_checkUrl _ l node) ?_
        intro m hhost hbase
        obtain ⟨r, hr, rfl⟩ := List.mem_map.1 hhost
        obtain ⟨r', hr', hl⟩ := List.mem_map.1 hbase
        rw [(exists_of_mem_checkUrl hr).1, (exists_of_mem_checkUrl hr').1] at hl
        exact absurd (l.child_injective hl) (by decide)
      · exact nodup_checkPathNames l hd
    · rcases List.mem_pair.1 hkind with rfl | rfl
      · exact (List.mem_append.1 hr).elim up_of_mem_checkUrl up_of_mem_checkUrl
      · exact up_of_mem_checkPathNames hr
  case right =>
    refine ⟨by decide, fun kind hkind setting l node hd => ?_,
      fun kind hkind setting l node _ r hr => ?_⟩
    · rcases List.mem_pair.1 hkind with rfl | rfl
      · exact nodup_checkPathNames l hd
      · exact nodup_checkUrl _ l node
    · rcases List.mem_pair.1 hkind with rfl | rfl
      · exact up_of_mem_checkPathNames hr
      · exact up_of_mem_checkUrl hr

def summaryOrigin (l : Location) : Location :=
  if l.last? = some "summary" then l.up 1 else l

theorem checkSummary_cases (setting : Setting) (l : Location) (node : Value) :
    checkSummary setting l node = [] ∨ ∃ r, checkSummary setting l node = [r] ∧
      (r.location = l ∨ r.location = l.child "summary") := by
  unfold checkSummary
  split
  case h_1 => exact .inr ⟨_, rfl, .inl rfl⟩
  case h_2 summary _ =>
    by_cases hw : (Text.words summary).length < 2
    · exact .inr ⟨_, if_pos hw, .inr rfl⟩
    · exact .inl (if_neg hw)

theorem traces_checkSummary (kind : K) {stands : K → Location → Prop}
    (hs : ∀ l, stands kind l → l.last? ≠ some "summary") :
    (Subscription.of [kind] checkSummary).Traces stands summaryOrigin where
  kinds := List.nodup_singleton kind
  nodup _ _ setting l node _ := (nodup_of_one (checkSummary_cases setting l node)).1
  origin_eq k hk setting l node hl r hr := by
    obtain rfl := List.mem_singleton.1 hk
    -- A location that ends in the name of a summary is that of a member, not of the node itself.
    have hlast := hs l hl
    rcases (nodup_of_one (checkSummary_cases setting l node)).2 r hr with hself | hmember
    · rw [hself, summaryOrigin, if_neg hlast]
    · have hsummary : (l.child "summary").last? = some "summary" := by simp [Location.last?]
      rw [hmember, summaryOrigin, if_pos hsummary, Location.up_child, Location.up_zero]

def Standing (operation : K) (kind : K) (l : Location) : Prop :=
  kind = operation → l.last? ≠ some "summary"

theorem traces_builtin : ∀ r ∈ Registry.builtin.rules,
    (∃ origin, r.swagger.Traces (Standing .operation) origin) ∧
    ∃ origin, r.openApi.Traces (Standing .operation) origin := by
  simp only [Registry.builtin, List.forall_mem_cons]
  obtain ⟨hlatin, hlatin'⟩ :=
    traces_latinDefinitionsOnly (Standing .operation) (Standing .operation)
  obtain ⟨hslash, hslash'⟩ := traces_noTrailingSlash (Standing .operation) (Standing .operation)
  refine ⟨?_, ⟨⟨_, hlatin⟩, _, hlatin'⟩, ?_, ⟨⟨_, hslash⟩, _, hslash'⟩, ?_, ?_, ?_,
    List.forall_mem_nil _⟩
  · exact ⟨⟨_, traces_checkSummary _ fun _ h => h rfl⟩, _, traces_checkSummary _ fun _ h => h rfl⟩
  · exact ⟨⟨_, ofNode_checkReference.traces _ _⟩, _, ofNode_checkReference.traces _ _⟩
  · exact ⟨⟨_, traces_checkProperties _ _⟩, _, traces_checkProperties _ _⟩
  · exact ⟨⟨_, ofNode_checkTags.traces _ _⟩, _, ofNode_checkTags.traces _ _⟩
  · exact ⟨⟨_, ofNode_checkDescription.traces _ _⟩, _, ofNode_checkDescription.traces _ _⟩

end Rule

end ApiLint
