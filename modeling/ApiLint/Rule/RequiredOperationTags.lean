import ApiLint.Rule.Basic

/-!
# Required operation tags

Every operation has a tag.
-/

namespace ApiLint.Rule

open Json

def isTagged (operation : Value) : Bool :=
  match operation.get? "tags" >>= Value.items? with
  | some tags => !tags.isEmpty
  | none => false

def checkTags (_ : Setting) (location : Location) (node : Value) : List Report :=
  if isTagged node then [] else [.message location "Operation should have at least one tag."]

def requiredOperationTags : Rule where
  name := "required-operation-tags"
  description := "All operations should be tagged"
  swagger := .of [.operation] checkTags
  openApi := .of [.operation] checkTags

end ApiLint.Rule
