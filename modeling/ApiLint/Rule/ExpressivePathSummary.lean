import ApiLint.Rule.Basic
import ApiLint.Text.Pieces

/-!
# Expressive path summary

Every operation has a summary, of at least two words.
-/

namespace ApiLint.Rule

open Json

def checkSummary (_ : Setting) (location : Location) (node : Value) : List Report :=
  match node.stringAt? "summary" with
  | none => [.message location "Every path has to have a summary."]
  | some summary =>
    if (Text.words summary).length < 2 then
      [.message (location.child "summary")
        ("Every path summary should contain at least 2 words. This has \"" ++ summary ++ "\"")]
    else []

def expressivePathSummary : Rule where
  name := "expressive-path-summary"
  description := "Enforces an intentional path summary"
  swagger := .of [.operation] checkSummary
  openApi := .of [.operation] checkSummary

end ApiLint.Rule
