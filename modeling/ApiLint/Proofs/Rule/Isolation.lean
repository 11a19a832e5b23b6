import ApiLint.Proofs.Dialects.Ignored
import ApiLint.Proofs.Rule.Places

/-!
# Rules above containers

Two rules look at whole containers: one at the names of paths, one at the names of definitions. Of
what is left of a container they report what they reported of all of it, apart from what is hidden.
Nothing else that has a container in it is looked at but the addresses at the root, and these stay
as they are.
-/

namespace ApiLint

open Json Walk Grammar Ignore

variable {K S P : Type} {g : Grammar K S P} {container names : List String}

/-- Above a container, the rule reports of what is left of a node what it reports of the node, apart
from what is hidden. -/
def Subscription.Spares (s : Subscription K) (g : Grammar K S P) : Prop :=
  ∀ {root : Value} {container : List String} {kind : K} {l : Location}, g.Loses container →
    g.Above root l kind → l.segments <+: container → kind ∈ s.kinds →
    ∀ (names : List String) (setting : Setting) (node : Value),
      s.check kind setting l (node.without (container.drop l.segments.length) names) =
        (s.check kind setting l node).filter fun r => !hides container names r.location

theorem Subscription.spares_of_not_above {s : Subscription K}
    (h : ∀ root l, ∀ kind ∈ s.kinds, ¬ g.Above root l kind) : s.Spares g :=
  fun _ ha _ hkind => absurd ha (h _ _ _ hkind)

namespace Json

theorem Members.keys_removeNames (names : List String) (ms : Members) :
    (removeNames names ms).keys = ms.keys.filter fun key => !names.contains key := by
  rw [Members.keys, Members.keys, List.filter_map]
  rfl

theorem Value.getD_members?_without_nil (names : List String) (v : Value) :
    (v.without [] names).members?.getD [] = removeNames names (v.members?.getD []) := by
  rw [without, members?_modifyMembers_nil]
  cases v.members? <;> rfl

end Json

theorem reports_removeNames {report : String → Report}
    (h : ∀ key, (report key).location = ⟨container ++ [key]⟩) (keep : String → Bool)
    (ms : Members) : ((removeNames names ms).keys.filter keep).map report =
      ((ms.keys.filter keep).map report).filter fun r => !hides container names r.location := by
  have hhides : ∀ key, hides container names (report key).location = names.contains key := by
    intro key
    rw [h, hides_child]
  rw [Members.keys_removeNames, List.filter_filter, List.filter_map, List.filter_filter]
  refine congrArg (List.map report) (List.filter_congr fun key _ => ?_)
  simp only [Function.comp_apply, hhides, Bool.and_comm]

theorem filter_reports_apart (place : List String) (hp : ¬ place <+: container)
    (hc : ¬ container <+: place) {rs : List Report}
    (h : ∀ r ∈ rs, place <+: r.location.segments) :
    (rs.filter fun r => !hides container names r.location) = rs :=
  List.filter_eq_self.2 fun r hr => by rw [hides_apart hp hc (h r hr)]; rfl

namespace Rule

theorem checkUrl_without {start : String} {rest : List String} {key : String} (hne : key ≠ start)
    (node : Value) : checkUrl key .root (node.without (start :: rest) names) =
      (checkUrl key .root node).filter fun r => !hides (start :: rest) names r.location := by
  have hsame : checkUrl key .root (node.without (start :: rest) names) =
      checkUrl key .root node := by
    rw [checkUrl, checkUrl, Value.stringAt?, Value.get?_without_cons, if_neg hne]
    rfl
  rw [hsame]
  refine (filter_reports_apart [key] ?_ ?_ fun r hr => ?_).symm
  · simp [hne]
  · simp [Ne.symm hne]
  · rw [(exists_of_mem_checkUrl hr).1]
    exact List.prefix_rfl

theorem checkPathNames_without {l : Location} (hl : l.segments = container) (node : Value) :
    checkPathNames l (node.without [] names) =
      (checkPathNames l node).filter fun r => !hides container names r.location := by
  rw [checkPathNames, checkPathNames, Value.getD_members?_without_nil]
  exact reports_removeNames (fun key => by subst hl; rfl) hasTrailingSlash _

theorem checkNames_removeNames {l : Location} (hl : l.segments = container) (setting : Setting)
    (ms : Members) : checkNames setting l (removeNames names ms) =
      (checkNames setting l ms).filter fun r => !hides container names r.location :=
  reports_removeNames (fun key => by subst hl; rfl) _ ms

theorem checkNames_without {l : Location} (hl : l.segments = ["components"]) (s : OpenApi.Section)
    (setting : Setting) (node : Value) : checkNames setting (l.child "schemas")
      (((node.without [s.key] names).get? "schemas" >>= Value.members?).getD []) =
        (checkNames setting (l.child "schemas")
          ((node.get? "schemas" >>= Value.members?).getD [])).filter fun r =>
            !hides s.container names r.location := by
  have hschemas : (l.child "schemas").segments = ["components", "schemas"] := by
    rw [Location.segments_child, hl]
    rfl
  rw [Value.get?_without_cons]
  by_cases hs : "schemas" = s.key
  case pos =>
    have hcontainer : (l.child "schemas").segments = s.container := by
      rw [hschemas, hs]
      rfl
    rw [if_pos hs]
    cases node.get? "schemas" with
    | none => rfl
    | some v =>
      change checkNames setting (l.child "schemas") ((v.without [] names).members?.getD []) = _
      rw [Value.getD_members?_without_nil]
      exact checkNames_removeNames hcontainer setting _
  case neg =>
    rw [if_neg hs]
    refine (filter_reports_apart ["components", "schemas"] ?_ ?_ fun r hr => ?_).symm
    · simp [OpenApi.Section.container, hs]
    · simp [OpenApi.Section.container, Ne.symm hs]
    · obtain ⟨name, -, rfl⟩ := List.mem_map.1 hr
      rw [← hschemas]
      exact List.prefix_append _ [name]

theorem checkPathNames_above (hg : g.Separated) (hc : g.Loses container) {l : Location}
    (hl : l.segments = ["paths"]) (hpre : l.segments <+: container) (node : Value) :
    checkPathNames l (node.without (container.drop l.segments.length) names) =
      (checkPathNames l node).filter fun r => !hides container names r.location := by
  rw [hl] at hpre ⊢
  obtain rfl := hc.eq_paths hg hpre
  exact checkPathNames_without hl node

theorem spares_noTrailingSlash : noTrailingSlash.swagger.Spares Swagger.grammar ∧
    noTrailingSlash.openApi.Spares OpenApi.grammar := by
  constructor
  case left =>
    intro root container kind l hc ha hpre hkind names setting node
    rcases List.mem_pair.1 hkind with rfl | rfl
    · have hl : l.segments = [] := by simpa [Swagger.tops] using Swagger.mem_tops_of_above ha
      obtain rfl : l = .root := congrArg Location.mk hl
      obtain ⟨start, rest, rfl, hstart⟩ := hc.exists_cons
      have hhost : "host" ≠ start := by
        rintro rfl
        exact absurd hstart (by decide)
      have hbase : "basePath" ≠ start := by
        rintro rfl
        exact absurd hstart (by decide)
      change checkUrl "host" .root (node.without (start :: rest) names) ++
        checkUrl "basePath" .root (node.without (start :: rest) names) =
          (checkUrl "host" .root node ++ checkUrl "basePath" .root node).filter _
      rw [List.filter_append, checkUrl_without hhost, checkUrl_without hbase]
    · have hl : l.segments = ["paths"] := by simpa [Swagger.tops] using Swagger.mem_tops_of_above ha
      exact checkPathNames_above Swagger.separated hc hl hpre node
  case right =>
    intro root container kind l hc ha hpre hkind names setting node
    rcases List.mem_pair.1 hkind with rfl | rfl
    · have hl : l.segments = ["paths"] := by simpa [OpenApi.tops] using OpenApi.mem_tops_of_above ha
      exact checkPathNames_above OpenApi.separated hc hl hpre node
    · exact absurd ha (OpenApi.not_above_of_kind (by decide) root l)

theorem spares_latinDefinitionsOnly : latinDefinitionsOnly.swagger.Spares Swagger.grammar ∧
    latinDefinitionsOnly.openApi.Spares OpenApi.grammar := by
  constructor
  case left =>
    intro root container kind l hc ha hpre hkind names setting node
    obtain rfl := List.mem_singleton.1 hkind
    have hl : l.segments = ["definitions"] := by
      simpa [Swagger.tops] using Swagger.mem_tops_of_above ha
    have hcontainer : container = ["definitions"] := by
      rw [hl] at hpre
      rcases hc with rfl | ⟨s, rfl⟩
      · simp at hpre
      · exact (hpre.eq_of_length rfl).symm
    subst hcontainer
    rw [hl]
    change checkNames setting l ((node.without [] names).members?.getD []) = _
    rw [Value.getD_members?_without_nil]
    exact checkNames_removeNames hl setting _
  case right =>
    intro root container kind l hc ha hpre hkind names setting node
    obtain rfl := List.mem_singleton.1 hkind
    have hl : l.segments = ["components"] := by
      simpa [OpenApi.tops] using OpenApi.mem_tops_of_above ha
    rw [hl] at hpre ⊢
    rcases hc with rfl | ⟨s, rfl⟩
    · simp at hpre
    · exact checkNames_without hl s setting node

theorem spares_builtin : ∀ r ∈ Registry.builtin.rules,
    r.swagger.Spares Swagger.grammar ∧ r.openApi.Spares OpenApi.grammar := by
  simp only [Registry.builtin, List.forall_mem_cons]
  refine ⟨?_, spares_latinDefinitionsOnly, ?_, spares_noTrailingSlash, ?_, ?_, ?_,
    List.forall_mem_nil _⟩
  all_goals
    constructor
    · exact Subscription.spares_of_not_above fun root l kind hkind =>
        Swagger.not_above_of_kind (by revert kind; decide) root l
    · exact Subscription.spares_of_not_above fun root l kind hkind =>
        OpenApi.not_above_of_kind (by revert kind; decide) root l

end Rule

end ApiLint
