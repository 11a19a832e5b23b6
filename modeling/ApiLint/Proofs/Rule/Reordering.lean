import ApiLint.Proofs.Json.Reordering
import ApiLint.Rule.Registry

/-!
# Rules on reordered nodes

A rule says of a reordered node what it says of the node. What it looks up by name it finds in both,
and where it goes through the members of an object it says the same in another order.
-/

namespace ApiLint

open Json

/-- The reports about a node do not depend on the order of members in it, but for their own. -/
def Subscription.OrderFree {K : Type} (s : Subscription K) : Prop :=
  ∀ kind ∈ s.kinds, ∀ setting l v w, v.Reordered w →
    (s.check kind setting l v).Perm (s.check kind setting l w)

namespace Rule

variable {v w : Value}

theorem orderFree_of_eq {K : Type} {kinds : List K}
    {check : Setting → Location → Value → List Report}
    (h : ∀ setting l v w, v.Reordered w → check setting l v = check setting l w) :
    (Subscription.of kinds check).OrderFree := by
  intro _ _ setting l v w hvw
  exact .of_eq (h setting l v w hvw)

theorem checkSummary_eq (setting : Setting) (l : Location) (h : v.Reordered w) :
    checkSummary setting l v = checkSummary setting l w := by
  unfold checkSummary
  rw [h.stringAt?_eq]

theorem checkReference_eq (setting : Setting) (l : Location) (h : v.Reordered w) :
    checkReference setting l v = checkReference setting l w := by
  unfold checkReference Reference.ofNode?
  rw [h.stringAt?_eq]

theorem isTagged_eq (h : v.Reordered w) : isTagged v = isTagged w := by
  unfold isTagged
  cases hx : v.get? "tags" with
  | none => rw [h.get?_eq_none hx]
  | some x =>
    obtain ⟨y, hy, hxy⟩ := h.get? hx
    rw [hy]
    cases hxy with
    | @array xs ys length _ =>
      have hempty : xs.isEmpty = ys.isEmpty := by
        rw [Bool.eq_iff_iff, List.isEmpty_iff_length_eq_zero, List.isEmpty_iff_length_eq_zero,
          length]
      exact congrArg not hempty
    | _ => rfl

theorem checkTags_eq (setting : Setting) (l : Location) (h : v.Reordered w) :
    checkTags setting l v = checkTags setting l w := by
  unfold checkTags
  rw [isTagged_eq h]

theorem checkDescription_eq (setting : Setting) (l : Location) (h : v.Reordered w) :
    checkDescription setting l v = checkDescription setting l w := by
  unfold checkDescription isDescribed
  simp only [h.stringAt?_eq]

theorem checkUrl_eq (key : String) (l : Location) (h : v.Reordered w) :
    checkUrl key l v = checkUrl key l w := by
  unfold checkUrl
  rw [h.stringAt?_eq]

theorem checkPathNames_perm (l : Location) (h : v.Reordered w) :
    (checkPathNames l v).Perm (checkPathNames l w) :=
  (h.keys_members?_perm.filter _).map _

theorem checkNames_perm (setting : Setting) (l : Location) {ms ns : Members}
    (h : ms.keys.Perm ns.keys) : (checkNames setting l ms).Perm (checkNames setting l ns) :=
  (h.filter _).map _

theorem orderFree_checkProperties {K : Type} (kinds : List K) :
    (Subscription.of kinds checkProperties).OrderFree := by
  intro _ _ setting l v w h
  exact ((h.keys_get?_perm "properties").filter _).map _

theorem orderFree_latinDefinitionsOnly :
    latinDefinitionsOnly.swagger.OrderFree ∧ latinDefinitionsOnly.openApi.OrderFree := by
  constructor
  case left =>
    intro _ _ setting l v w h
    exact checkNames_perm setting l h.keys_members?_perm
  case right =>
    intro _ _ setting l v w h
    exact checkNames_perm setting (l.child "schemas") (h.keys_get?_perm "schemas")

theorem orderFree_noTrailingSlash :
    noTrailingSlash.swagger.OrderFree ∧ noTrailingSlash.openApi.OrderFree := by
  constructor
  case left =>
    intro kind hkind setting l v w h
    rcases List.mem_pair.1 hkind with rfl | rfl
    · change (checkUrl "host" l v ++ checkUrl "basePath" l v).Perm
        (checkUrl "host" l w ++ checkUrl "basePath" l w)
      rw [checkUrl_eq _ l h, checkUrl_eq _ l h]
    · exact checkPathNames_perm l h
  case right =>
    intro kind hkind setting l v w h
    rcases List.mem_pair.1 hkind with rfl | rfl
    · exact checkPathNames_perm l h
    · exact .of_eq (checkUrl_eq "url" l h)

theorem orderFree_builtin : ∀ r ∈ Registry.builtin.rules,
    r.swagger.OrderFree ∧ r.openApi.OrderFree := by
  have hsummary := fun setting l v w h => checkSummary_eq (v := v) (w := w) setting l h
  have hreference := fun setting l v w h => checkReference_eq (v := v) (w := w) setting l h
  have htags := fun setting l v w h => checkTags_eq (v := v) (w := w) setting l h
  have hdescription := fun setting l v w h => checkDescription_eq (v := v) (w := w) setting l h
  simp only [Registry.builtin, List.forall_mem_cons]
  exact ⟨⟨orderFree_of_eq hsummary, orderFree_of_eq hsummary⟩, orderFree_latinDefinitionsOnly,
    ⟨orderFree_of_eq hreference, orderFree_of_eq hreference⟩, orderFree_noTrailingSlash,
    ⟨orderFree_checkProperties _, orderFree_checkProperties _⟩,
    ⟨orderFree_of_eq htags, orderFree_of_eq htags⟩,
    ⟨orderFree_of_eq hdescription, orderFree_of_eq hdescription⟩, List.forall_mem_nil _⟩

end Rule

end ApiLint
