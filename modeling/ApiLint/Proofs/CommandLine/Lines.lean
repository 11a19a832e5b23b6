import ApiLint.CommandLine.Run
import ApiLint.Proofs.Rule.Data

/-!
# Lines of a report

A report in JSON is a line for each finding, in their order, and nothing else. A line is read back
as its finding, whatever characters the names and texts of the document have: nothing in a value is
written as a line break, and a value is read from its own text.
-/

namespace ApiLint

open Json CommandLine

/-- The line is read back as the finding. It has an identifier and data exactly if the finding has
them. -/
structure Finding.WrittenAs (f : Finding) (line : List Char) : Prop where
  unbroken : '\n' ∉ line
  restored : ∃ v, Value.ofText? (String.ofList line) = some v ∧ Finding.ofValue? v = .ok f ∧
    v.get? "messageId" = f.messageId.map .string ∧ v.get? "data" = f.data.map .object

theorem Finding.writtenAs_chars {f : Finding} (h : f.toValue.Legible Tree.depthLimit) :
    f.WrittenAs f.toValue.chars where
  unbroken := h.line_not_mem_chars
  restored := ⟨f.toValue, h.ofText?_text, f.ofValue?_toValue, f.get?_toValue_messageId,
    f.get?_toValue_data⟩

theorem Linter.legible_of_mem_lint {config : Config} {defaults : RuleSet} {document : Value}
    {f : Finding} (hf : f ∈ Linter.lint ⟨config, defaults, .builtin⟩ document) :
    f.toValue.Legible Tree.depthLimit := by
  refine Finding.legible_toValue fun data hdata => ?_
  rcases general_or_report_of_mem_lint hf with hgeneral | ⟨walked, -, r, setting, ⟨hr, -⟩, report,
    hreport, rfl⟩
  · cases hgeneral <;> cases hdata
  · have hlegible := Rule.legible_reports (List.mem_of_find?_eq_some hr) setting walked report
    exact Rule.legible_of_data_finding (hlegible hreport) hdata _

namespace CommandLine

theorem Report.toList_json (fs : List Finding) :
    (Report.json fs).toList = (fs.map (·.toValue.chars)).flatMap (· ++ ['\n']) := by
  rw [Report.json, String.toList_join, List.flatMap_map, List.flatMap_map]
  refine List.flatMap_congr fun f _ => ?_
  rw [Report.line, String.toList_append, Value.text, String.toList_ofList]
  rfl

/-- What is printed is a line for each finding, in their order. -/
theorem output_writesLines (env : Environment) (config : Config) (defaults : RuleSet)
    (document : Value) :
    ∃ lines, (Outcome.ofFindings env .json
        (Linter.lint ⟨config, defaults, .builtin⟩ document)).output.toList =
      lines.flatMap (· ++ ['\n']) ∧
    List.Forall₂ Finding.WrittenAs (Linter.lint ⟨config, defaults, .builtin⟩ document) lines := by
  refine ⟨_, Report.toList_json _, List.forall₂_map_right_iff.2 (List.forall₂_same.2 ?_)⟩
  exact fun f hf => Finding.writtenAs_chars (Linter.legible_of_mem_lint hf)

example : Report.json [.plain "a" "\"\n" ⟨["é", "\\"]⟩] =
    "\x7b\"name\":\"a\",\"msg\":\"\\\"\\n\",\"location\":[\"é\",\"\\\\\"]\x7d\n" := by
  decide

end CommandLine

end ApiLint
