import ApiLint.Document.Reference
import ApiLint.Rule.Basic

/-!
# No external references

Every reference stays in its document.
-/

namespace ApiLint.Rule

open Json

def checkReference (_ : Setting) (location : Location) (node : Value) : List Report :=
  match Reference.ofNode? node with
  | some reference =>
    if Reference.isInternal reference then []
    else [.message location "External references are banned."]
  | none => []

def noExternalRefs : Rule where
  name := "no-external-refs"
  description := "Bans external references"
  swagger := .of [.reference] checkReference
  openApi := .of [.reference] checkReference

end ApiLint.Rule
