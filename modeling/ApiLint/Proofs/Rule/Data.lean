import ApiLint.Proofs.Finding.Encoding
import ApiLint.Proofs.Lint.Places

/-!
# Data of reports

The data of a report are texts, so that they can be read again once they are written. Only one of
the built-in rules reports by a template, the others report messages.
-/

namespace ApiLint

open Json

def Report.Legible : Report → Prop
  | .message _ _ => True
  | .template _ _ data => ∀ depth, (Value.object data).Legible (depth + 1)

def Subscription.Legible {K : Type} (s : Subscription K) : Prop :=
  ∀ kind setting l node, ∀ r ∈ s.check kind setting l node, r.Legible

namespace Rule

theorem legible_of_data_finding {rule : Rule} {r : Report} (h : r.Legible) {data : Members}
    (hdata : (rule.finding r).data = some data) (depth : Nat) :
    (Value.object data).Legible (depth + 1) := by
  cases r with
  | message l text => cases hdata
  | template l id given =>
    obtain rfl := Option.some.inj hdata
    exact h depth

variable (setting : Setting) (l : Location) (node : Value)

theorem legible_checkSummary : ∀ r ∈ checkSummary setting l node, r.Legible := by
  unfold checkSummary
  split
  · simp [Report.Legible]
  · split <;> simp [Report.Legible]

theorem legible_checkReference : ∀ r ∈ checkReference setting l node, r.Legible := by
  unfold checkReference
  split
  · split <;> simp [Report.Legible]
  · simp

theorem legible_checkTags : ∀ r ∈ checkTags setting l node, r.Legible := by
  unfold checkTags
  split <;> simp [Report.Legible]

theorem legible_checkDescription : ∀ r ∈ checkDescription setting l node, r.Legible := by
  unfold checkDescription
  split <;> simp [Report.Legible]

theorem legible_checkUrl (key : String) : ∀ r ∈ checkUrl key l node, r.Legible := by
  unfold checkUrl
  split
  · split <;> simp [Report.Legible, trailingSlash]
  · simp

theorem legible_checkPathNames : ∀ r ∈ checkPathNames l node, r.Legible :=
  List.forall_mem_map.2 fun _ _ => trivial

theorem legible_checkNames (definitions : Members) :
    ∀ r ∈ checkNames setting l definitions, r.Legible :=
  List.forall_mem_map.2 fun _ _ => trivial

theorem legible_casingData (key : String) (casing : Casing) (depth : Nat) :
    (Value.object (casingData key casing)).Legible (depth + 1) := by
  have hnames : (casingData key casing).keys.Nodup := (by decide : ["key", "casing"].Nodup)
  refine .object hnames ?_
  simp only [casingData, List.forall_mem_cons]
  exact ⟨.string depth key, .string depth casing.name, List.forall_mem_nil _⟩

theorem legible_checkProperties : ∀ r ∈ checkProperties setting l node, r.Legible :=
  List.forall_mem_map.2 fun key _ => legible_casingData key _

theorem legible_noTrailingSlash : noTrailingSlash.swagger.Legible ∧
    noTrailingSlash.openApi.Legible := by
  constructor
  · intro kind setting l node
    cases kind with
    | swagger =>
      exact List.forall_mem_append.2 ⟨legible_checkUrl l node _, legible_checkUrl l node _⟩
    | paths => exact legible_checkPathNames l node
    | _ => exact List.forall_mem_nil _
  · intro kind setting l node
    cases kind with
    | paths => exact legible_checkPathNames l node
    | server => exact legible_checkUrl l node _
    | _ => exact List.forall_mem_nil _

theorem legible_builtin : ∀ r ∈ Registry.builtin.rules, r.swagger.Legible ∧ r.openApi.Legible := by
  simp only [Registry.builtin, List.forall_mem_cons]
  refine ⟨?_, ?_, ?_, legible_noTrailingSlash, ?_, ?_, ?_, List.forall_mem_nil _⟩
  · exact ⟨fun _ => legible_checkSummary, fun _ => legible_checkSummary⟩
  · exact ⟨fun _ s _ _ => legible_checkNames s _ _, fun _ s _ _ => legible_checkNames s _ _⟩
  · exact ⟨fun _ => legible_checkReference, fun _ => legible_checkReference⟩
  · exact ⟨fun _ => legible_checkProperties, fun _ => legible_checkProperties⟩
  · exact ⟨fun _ => legible_checkTags, fun _ => legible_checkTags⟩
  · exact ⟨fun _ => legible_checkDescription, fun _ => legible_checkDescription⟩

theorem legible_reports {r : Rule} (hr : r ∈ Registry.builtin.rules) (setting : Setting)
    (walked : Walked) : ∀ report ∈ r.reports setting walked, report.Legible := by
  intro report hreport
  obtain ⟨hswagger, hopenApi⟩ := legible_builtin r hr
  cases walked with
  | swagger visits =>
    obtain ⟨v, -, -, hreport⟩ := Subscription.mem_reports_iff.1 hreport
    exact hswagger v.kind setting v.location v.node report hreport
  | openApi visits =>
    obtain ⟨v, -, -, hreport⟩ := Subscription.mem_reports_iff.1 hreport
    exact hopenApi v.kind setting v.location v.node report hreport

end Rule

end ApiLint
