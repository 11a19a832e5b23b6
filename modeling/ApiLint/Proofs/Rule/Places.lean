import ApiLint.Proofs.Json.Distinct
import ApiLint.Rule.Registry

/-!
# Places of reports

A rule looks at one node, and reports it or something in it: the location of a report goes on from
that of the node, by segments that lead to something there. What a rule says of a whole document it
says of a member of it.
-/

namespace ApiLint

open Json

def Report.location : Report → Location
  | .message l _ => l
  | .template l _ _ => l

def Report.Within (l : Location) (node : Value) (r : Report) : Prop :=
  ∃ path, r.location.segments = l.segments ++ path ∧ (node.at? path).isSome

def Reaches (check : Setting → Location → Value → List Report) : Prop :=
  ∀ setting l node, ∀ r ∈ check setting l node, r.Within l node

namespace Json

namespace Value

theorem isSome_at?_of_descend? {v w : Value} {path : List String} (h : v.descend? path = some w) :
    (v.at? path).isSome := by
  rw [at?_of_descend? h]
  rfl

theorem descend?_of_stringAt? {v : Value} {key text : String} (h : v.stringAt? key = some text) :
    ∃ w, v.descend? [key] = some w := by
  obtain ⟨w, hw, -⟩ := Option.bind_eq_some_iff.1 h
  exact ⟨w, (descend?_singleton v key).trans hw⟩

theorem descend?_of_mem_keys {v : Value} (path : List String) {key : String}
    (h : key ∈ Members.keys ((v.descend? path >>= members?).getD [])) :
    ∃ w, v.descend? (path ++ [key]) = some w := by
  cases hms : v.descend? path >>= members? with
  | none => simp [hms, Members.keys] at h
  | some ms =>
    rw [hms] at h
    obtain ⟨u, hu, hms⟩ := Option.bind_eq_some_iff.1 hms
    obtain ⟨w, hw⟩ := Members.exists_get?_of_mem_keys h
    refine ⟨w, ?_⟩
    rw [descend?_append, hu]
    exact (descend?_singleton u key).trans (Option.bind_eq_some_iff.2 ⟨ms, hms, hw⟩)

end Value

end Json

namespace Rule

theorem within_self {l : Location} (node : Value) {r : Report} (h : r.location = l) :
    r.Within l node :=
  ⟨[], by rw [h, List.append_nil], rfl⟩

theorem within_of_descend? {l : Location} {node w : Value} {r : Report} {path : List String}
    (h : r.location.segments = l.segments ++ path) (hw : node.descend? path = some w) :
    r.Within l node :=
  ⟨path, h, Value.isSome_at?_of_descend? hw⟩

theorem reaches_checkSummary : Reaches checkSummary := by
  intro _ l node r hr
  unfold checkSummary at hr
  split at hr
  case h_1 =>
    obtain rfl := List.mem_singleton.1 hr
    exact within_self node rfl
  case h_2 summary hs =>
    split at hr
    case isTrue =>
      obtain rfl := List.mem_singleton.1 hr
      obtain ⟨w, hw⟩ := Value.descend?_of_stringAt? hs
      exact within_of_descend? rfl hw
    case isFalse => cases hr

theorem reaches_checkReference : Reaches checkReference := by
  intro _ l node r hr
  unfold checkReference at hr
  split at hr
  case h_1 =>
    split at hr
    case isTrue => cases hr
    case isFalse =>
      obtain rfl := List.mem_singleton.1 hr
      exact within_self node rfl
  case h_2 => cases hr

theorem reaches_checkTags : Reaches checkTags := by
  intro _ l node r hr
  unfold checkTags at hr
  split at hr
  case isTrue => cases hr
  case isFalse =>
    obtain rfl := List.mem_singleton.1 hr
    exact within_self node rfl

theorem reaches_checkDescription : Reaches checkDescription := by
  intro _ l node r hr
  unfold checkDescription at hr
  split at hr
  case isTrue => cases hr
  case isFalse =>
    obtain rfl := List.mem_singleton.1 hr
    exact within_self node rfl

theorem reaches_checkProperties : Reaches checkProperties := by
  intro setting l node r hr
  obtain ⟨key, hkey, rfl⟩ := List.mem_map.1 hr
  have hmem := (List.mem_filter.1 hkey).1
  rw [← Value.descend?_singleton] at hmem
  obtain ⟨w, hw⟩ := Value.descend?_of_mem_keys _ hmem
  exact within_of_descend? (List.append_assoc ..) hw

theorem exists_of_mem_checkUrl {key : String} {l : Location} {node : Value} {r : Report}
    (hr : r ∈ checkUrl key l node) : r.location = l.child key ∧
      ∃ w, node.descend? [key] = some w := by
  unfold checkUrl at hr
  split at hr
  case h_1 url hu =>
    split at hr
    case isTrue =>
      obtain rfl := List.mem_singleton.1 hr
      exact ⟨rfl, Value.descend?_of_stringAt? hu⟩
    case isFalse => cases hr
  case h_2 => cases hr

theorem within_of_mem_checkUrl {key : String} {l : Location} {node : Value} {r : Report}
    (hr : r ∈ checkUrl key l node) : r.Within l node := by
  obtain ⟨hl, w, hw⟩ := exists_of_mem_checkUrl hr
  exact within_of_descend? (by rw [hl]; rfl) hw

theorem within_of_mem_checkPathNames {l : Location} {node : Value} {r : Report}
    (hr : r ∈ checkPathNames l node) : r.Within l node := by
  obtain ⟨path, hpath, rfl⟩ := List.mem_map.1 hr
  obtain ⟨w, hw⟩ := Value.descend?_of_mem_keys (v := node) []
    (List.mem_filter.1 hpath).1
  exact within_of_descend? rfl hw

theorem within_of_mem_checkNames {setting : Setting} {l : Location} {node : Value}
    (path : List String) {r : Report} (hr : r ∈ checkNames setting ⟨l.segments ++ path⟩
      ((node.descend? path >>= Value.members?).getD [])) : r.Within l node := by
  obtain ⟨name, hname, rfl⟩ := List.mem_map.1 hr
  obtain ⟨w, hw⟩ := Value.descend?_of_mem_keys _ (List.mem_filter.1 hname).1
  exact within_of_descend? (List.append_assoc ..) hw

end Rule

/-- The reports of a rule are about something in the nodes that it looks at, and about something
below the node when that is the whole document. -/
structure Subscription.Points {K : Type} (s : Subscription K) (top : K) : Prop where
  within : ∀ kind ∈ s.kinds, ∀ setting l node, ∀ r ∈ s.check kind setting l node, r.Within l node
  below : top ∈ s.kinds → ∀ setting l node, ∀ r ∈ s.check top setting l node, r.location ≠ l

theorem Reaches.points {K : Type} {kinds : List K}
    {check : Setting → Location → Value → List Report} (h : Reaches check) {top : K}
    (htop : top ∉ kinds) : (Subscription.of kinds check).Points top where
  within _ _ := h
  below hmem := absurd hmem htop

namespace Rule

theorem child_ne (l : Location) (segment : String) : l.child segment ≠ l := by
  intro h
  have hlength := congrArg (fun m => m.segments.length) h
  simp at hlength

theorem points_noTrailingSlash :
    noTrailingSlash.swagger.Points .swagger ∧ noTrailingSlash.openApi.Points .openApi := by
  constructor
  case left =>
    constructor
    case within =>
      intro kind hkind setting l node r hr
      rcases List.mem_pair.1 hkind with rfl | rfl
      · exact (List.mem_append.1 hr).elim within_of_mem_checkUrl within_of_mem_checkUrl
      · exact within_of_mem_checkPathNames hr
    case below =>
      intro _ setting l node r hr
      rcases List.mem_append.1 hr with hr | hr
      all_goals
        rw [(exists_of_mem_checkUrl hr).1]
        exact child_ne l _
  case right =>
    constructor
    case within =>
      intro kind hkind setting l node r hr
      rcases List.mem_pair.1 hkind with rfl | rfl
      · exact within_of_mem_checkPathNames hr
      · exact within_of_mem_checkUrl hr
    case below => exact fun hmem => absurd hmem (by decide)

theorem points_latinDefinitionsOnly : latinDefinitionsOnly.swagger.Points .swagger ∧
    latinDefinitionsOnly.openApi.Points .openApi := by
  constructor
  case left =>
    refine Reaches.points (fun setting l node r hr => ?_) (by decide)
    have hself : l = ⟨l.segments ++ []⟩ := by rw [List.append_nil]
    rw [hself] at hr
    exact within_of_mem_checkNames [] hr
  case right =>
    refine Reaches.points (fun setting l node r hr => ?_) (by decide)
    rw [← Value.descend?_singleton] at hr
    exact within_of_mem_checkNames _ hr

theorem points_builtin : ∀ r ∈ Registry.builtin.rules,
    r.swagger.Points .swagger ∧ r.openApi.Points .openApi := by
  simp only [Registry.builtin, List.forall_mem_cons]
  refine ⟨?_, points_latinDefinitionsOnly, ?_, points_noTrailingSlash, ?_, ?_, ?_,
    List.forall_mem_nil _⟩
  · exact ⟨reaches_checkSummary.points (by decide), reaches_checkSummary.points (by decide)⟩
  · exact ⟨reaches_checkReference.points (by decide), reaches_checkReference.points (by decide)⟩
  · exact ⟨reaches_checkProperties.points (by decide), reaches_checkProperties.points (by decide)⟩
  · exact ⟨reaches_checkTags.points (by decide), reaches_checkTags.points (by decide)⟩
  · exact ⟨reaches_checkDescription.points (by decide), reaches_checkDescription.points (by decide)⟩

end Rule

end ApiLint
