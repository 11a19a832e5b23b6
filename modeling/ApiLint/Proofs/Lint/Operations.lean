import ApiLint.Proofs.Dialects.Ignored
import ApiLint.Proofs.Dialects.Operations
import ApiLint.Proofs.Lint.Uniqueness

/-!
# Findings about operations

A rule that looks at operations only finds what a double loop over the document finds, in the order
of that loop: over the paths as they are written, and at each path over the names of methods. Two of
the built-in rules are such rules, one about summaries and one about tags.
-/

namespace ApiLint

open Json Walk Grammar Walked

variable {document : Value} {dialect : Dialect} {walked : Walked} {name : String} {r : Rule}
  {s : Setting} {l : Linter}

def Dialect.methods : Dialect → List String
  | .swagger => Swagger.methods
  | .openApi => OpenApi.methods

theorem Subscription.reports_operations {K S P : Type} [DecidableEq K] [DecidableEq S]
    {g : Grammar K S P} {k : K} {methods : List String} {item operation : P} {lacking : P → Prop}
    (hg : g.Operates k methods item operation lacking) {vs : List (Visit K)}
    (hw : g.walk document = .ok vs) (check : Location → Value → List Report) (setting : Setting) :
    (Subscription.of [k] fun _ => check).reports setting vs =
      (operations methods document).flatMap fun o => check o.1 o.2 := by
  simp only [reports, of, List.flatMap_cons, List.flatMap_nil, List.append_nil, hg.ofKind_walk hw,
    List.flatMap_map]

namespace Rule

/-- In both dialects the rule makes one check of each operation, whatever its setting. -/
structure OfOperations (r : Rule) (check : Location → Value → List Report) : Prop where
  accepts : ∀ setting, r.accepts setting = true
  swagger : r.swagger = .of [.operation] fun _ => check
  openApi : r.openApi = .of [.operation] fun _ => check

theorem OfOperations.reports_eq {check : Location → Value → List Report} (h : r.OfOperations check)
    (hw : Walked.ofDocument? dialect document = .ok walked) (setting : Setting) :
    r.reports setting walked =
      (operations dialect.methods document).flatMap fun o => check o.1 o.2 := by
  cases dialect with
  | swagger =>
    obtain ⟨vs, hvs, rfl⟩ := Outcome.map_eq_ok_iff.1 hw
    rw [reports, h.swagger]
    exact Subscription.reports_operations Swagger.operates hvs check setting
  | openApi =>
    obtain ⟨vs, hvs, rfl⟩ := Outcome.map_eq_ok_iff.1 hw
    rw [reports, h.openApi]
    exact Subscription.reports_operations OpenApi.operates hvs check setting

theorem ofOperations_expressivePathSummary :
    expressivePathSummary.OfOperations (checkSummary .enabled) :=
  ⟨fun _ => rfl, rfl, rfl⟩

theorem ofOperations_requiredOperationTags :
    requiredOperationTags.OfOperations (checkTags .enabled) :=
  ⟨fun _ => rfl, rfl, rfl⟩

end Rule

namespace Linter

def Enables (l : Linter) (r : Rule) : Prop :=
  l.registry.get? r.name = some r ∧ ∃ s, (r.name, s) ∈ l.config.rules.entries ∧ s.isEnabled

def findingsOf (l : Linter) (r : Rule) (document : Value) : List Finding :=
  (l.lint document).filter fun f => f.name = r.name

theorem filter_block (hr : l.registry.get? name = some r) :
    (block l.registry l.defaults walked (name, s)).filter (fun f => f.name = name) =
      block l.registry l.defaults walked (name, s) := by
  rw [List.filter_eq_self]
  intro f hf
  rw [decide_eq_true_eq]
  cases hs : setting? l.defaults r s with
  | none =>
    simp only [block, hr, hs] at hf
    cases hf
  | some setting =>
    rw [block_of_setting hr hs] at hf
    split at hf
    case isTrue => exact name_of_mem_reports hr hf
    case isFalse =>
      obtain rfl := List.mem_singleton.1 hf
      rfl

theorem filter_blocks {entries : List (String × Setting)} (hcore : name ≠ Finding.coreName)
    (h : name ∉ entries.map (·.1)) :
    (entries.flatMap (block l.registry l.defaults walked)).filter (fun f => f.name = name) =
      [] := by
  rw [List.filter_eq_nil_iff]
  intro f hf hname
  obtain rfl := of_decide_eq_true hname
  obtain ⟨entry, hentry, hf⟩ := List.mem_flatMap.1 hf
  rcases name_of_mem_block hf with rfl | ⟨heq, -⟩
  · exact hcore rfl
  · rw [heq] at h
    exact h (List.mem_map_of_mem hentry)

theorem filter_ending (hcore : name ≠ Finding.coreName) (entries : List (String × Setting)) :
    (ending l.registry entries).filter (fun f => f.name = name) = [] := by
  unfold ending
  split
  · rfl
  · exact List.filter_cons_of_neg fun h => hcore (of_decide_eq_true h).symm

theorem filter_lint (hw : l.Walks document walked) (hn : l.config.rules.names.Nodup)
    (hcore : name ≠ Finding.coreName) (hr : l.registry.get? name = some r)
    (he : (name, s) ∈ l.config.rules.entries) :
    (l.lint document).filter (fun f => f.name = name) =
      block l.registry l.defaults walked (name, s) := by
  obtain ⟨pre, post, hsplit⟩ := List.append_of_mem he
  have hnames : name ∉ pre.map (·.1) ∧ name ∉ post.map (·.1) := by
    rw [RuleSet.names, hsplit, List.map_append, List.map_cons, List.nodup_middle,
      List.nodup_cons, List.mem_append] at hn
    exact not_or.1 hn.1
  rw [lint_of_walks hw, List.filter_append, filter_ending hcore, List.append_nil, hsplit,
    List.flatMap_append, List.flatMap_cons, List.filter_append, List.filter_append,
    filter_blocks hcore hnames.1, filter_block hr, filter_blocks hcore hnames.2, List.append_nil,
    List.nil_append]

theorem findings_of_operations {check : Location → Value → List Report} (h : r.OfOperations check)
    (hd : Dialect.detect? document = some dialect)
    (hw : Walked.ofDocument? dialect (l.config.ignore.filter dialect document) = .ok walked)
    (hn : l.config.rules.names.Nodup) (hcore : r.name ≠ Finding.coreName) (hr : l.Enables r) :
    l.findingsOf r document =
      (operations dialect.methods (l.config.ignore.filter dialect document)).flatMap
        fun o => (check o.1 o.2).map r.finding := by
  obtain ⟨hget, s, he, hs⟩ := hr
  obtain ⟨setting, hsetting⟩ : ∃ setting, setting? l.defaults r s = some setting := by
    rw [← Option.isSome_iff_exists, isSome_setting?, hs]
  rw [findingsOf, filter_lint ⟨dialect, hd, hw⟩ hn hcore hget he, block_of_setting hget hsetting,
    if_pos (h.accepts setting), h.reports_eq hw, List.map_flatMap]

def summaryFinding? (location : Location) (operation : Value) : Option Finding :=
  match operation.get? "summary" with
  | some (.string summary) =>
    if (Text.words summary).length < 2 then
      some (.plain "expressive-path-summary"
        ("Every path summary should contain at least 2 words. This has \"" ++ summary ++ "\"")
        (location.child "summary"))
    else none
  | _ => some (.plain "expressive-path-summary" "Every path has to have a summary." location)

def tagFinding? (location : Location) (operation : Value) : Option Finding :=
  match operation.get? "tags" with
  | some (.array (_ :: _)) => none
  | _ => some (.plain "required-operation-tags" "Operation should have at least one tag." location)

theorem finding_checkSummary (location : Location) (operation : Value) :
    (Rule.checkSummary .enabled location operation).map Rule.expressivePathSummary.finding =
      (summaryFinding? location operation).toList := by
  unfold Rule.checkSummary summaryFinding? Value.stringAt?
  cases operation.get? "summary" with
  | none => rfl
  | some v =>
    cases v with
    | string summary =>
      simp only [Option.bind_eq_bind, Option.bind_some, Value.string?]
      split <;> rfl
    | _ => rfl

theorem finding_checkTags (location : Location) (operation : Value) :
    (Rule.checkTags .enabled location operation).map Rule.requiredOperationTags.finding =
      (tagFinding? location operation).toList := by
  unfold Rule.checkTags Rule.isTagged tagFinding?
  cases operation.get? "tags" with
  | none => rfl
  | some v =>
    cases v with
    | array items => cases items <;> rfl
    | _ => rfl

theorem findings_operations (hd : Dialect.detect? document = some dialect)
    (hw : Walked.ofDocument? dialect (l.config.ignore.filter dialect document) = .ok walked)
    (hn : l.config.rules.names.Nodup) :
    (l.Enables Rule.expressivePathSummary → l.findingsOf Rule.expressivePathSummary document =
      (operations dialect.methods (l.config.ignore.filter dialect document)).filterMap
        fun o => summaryFinding? o.1 o.2) ∧
    (l.Enables Rule.requiredOperationTags → l.findingsOf Rule.requiredOperationTags document =
      (operations dialect.methods (l.config.ignore.filter dialect document)).filterMap
        fun o => tagFinding? o.1 o.2) := by
  constructor
  case left =>
    intro hr
    rw [findings_of_operations Rule.ofOperations_expressivePathSummary hd hw hn (by decide) hr,
      List.filterMap_eq_flatMap_toList]
    exact List.flatMap_congr fun o _ => finding_checkSummary o.1 o.2
  case right =>
    intro hr
    rw [findings_of_operations Rule.ofOperations_requiredOperationTags hd hw hn (by decide) hr,
      List.filterMap_eq_flatMap_toList]
    exact List.flatMap_congr fun o _ => finding_checkTags o.1 o.2

end Linter

def petService : Value :=
  .object [("swagger", .string "2.0"), ("info", .object []),
    ("paths", .object [
      ("/pets/", .object [
        ("post", .object [("summary", .string "Add"), ("tags", .array [])]),
        ("get", .object [("summary", .string "List pets")])]),
      ("/owners/", .object [("get", .object [])]),
      ("x-draft", .object [("get", .object [])]),
      ("/shared/", .object [("$ref", .string "shared.json"), ("get", .object [])]),
      ("/toys/", .object [("delete", .object [("tags", .array [.string "toys"])])])])]

def operationLinter : Linter :=
  ⟨⟨[], ⟨[("required-operation-tags", .enabled), ("no-trailing-slash", .disabled),
    ("expressive-path-summary", .enabled)]⟩, noOwners⟩, .empty, .builtin⟩

theorem distinct_petService : petService.Distinct := by
  simp [petService, Members.keys]

theorem exists_walk_petService : ∃ vs, Swagger.grammar.walk (noOwners.filter .swagger petService) =
    .ok vs := by
  refine exists_walk_of_isOk Swagger.separated.sections
    (noOwners.distinct_filter .swagger distinct_petService) ?_
  cbv

theorem operations_petService :
    operations Swagger.methods (noOwners.filter .swagger petService) =
      [(⟨["paths", "/pets/", "get"]⟩, .object [("summary", .string "List pets")]),
        (⟨["paths", "/pets/", "post"]⟩,
          .object [("summary", .string "Add"), ("tags", .array [])]),
        (⟨["paths", "/toys/", "delete"]⟩, .object [("tags", .array [.string "toys"])])] := by
  cbv

theorem findings_operations_petService :
    Dialect.detect? petService = some .swagger ∧
    (∃ walked, Walked.ofDocument? .swagger (noOwners.filter .swagger petService) = .ok walked) ∧
    operationLinter.config.rules.names.Nodup ∧
    operationLinter.Enables Rule.expressivePathSummary ∧
    operationLinter.Enables Rule.requiredOperationTags ∧
    operationLinter.findingsOf Rule.expressivePathSummary petService =
      [.plain "expressive-path-summary"
          "Every path summary should contain at least 2 words. This has \"Add\""
          ⟨["paths", "/pets/", "post", "summary"]⟩,
        .plain "expressive-path-summary" "Every path has to have a summary."
          ⟨["paths", "/toys/", "delete"]⟩] ∧
    operationLinter.findingsOf Rule.requiredOperationTags petService =
      [.plain "required-operation-tags" "Operation should have at least one tag."
          ⟨["paths", "/pets/", "get"]⟩,
        .plain "required-operation-tags" "Operation should have at least one tag."
          ⟨["paths", "/pets/", "post"]⟩] := by
  have hd : Dialect.detect? petService = some .swagger := by cbv
  obtain ⟨vs, hvs⟩ := exists_walk_petService
  have hw : Walked.ofDocument? .swagger (noOwners.filter .swagger petService) =
      .ok (.swagger vs) := by
    rw [Walked.ofDocument?, hvs]
    rfl
  have hn : operationLinter.config.rules.names.Nodup := by decide
  have hsummary : operationLinter.Enables Rule.expressivePathSummary :=
    ⟨rfl, .enabled, by simp [operationLinter, Rule.expressivePathSummary], rfl⟩
  have htags : operationLinter.Enables Rule.requiredOperationTags :=
    ⟨rfl, .enabled, by simp [operationLinter, Rule.requiredOperationTags], rfl⟩
  obtain ⟨hs, ht⟩ := Linter.findings_operations (l := operationLinter) hd hw hn
  refine ⟨hd, ⟨_, hw⟩, hn, hsummary, htags, (hs hsummary).trans ?_, (ht htags).trans ?_⟩
  · change List.filterMap _ (operations Swagger.methods (noOwners.filter .swagger petService)) = _
    rw [operations_petService]
    cbv
  · change List.filterMap _ (operations Swagger.methods (noOwners.filter .swagger petService)) = _
    rw [operations_petService]
    cbv

end ApiLint
