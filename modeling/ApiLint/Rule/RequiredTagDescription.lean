import ApiLint.Rule.Basic
import ApiLint.Text.Pieces

/-!
# Required tag description

Every tag has a description that is not blank.
-/

namespace ApiLint.Rule

open Json

def isDescribed (tag : Value) : Bool :=
  match tag.stringAt? "description" with
  | some description => !Text.isBlankText description
  | none => false

def checkDescription (_ : Setting) (location : Location) (node : Value) : List Report :=
  if isDescribed node then []
  else [.message location
    ("Tag \"" ++ (node.stringAt? "name").getD "" ++ "\" is missing a description.")]

def requiredTagDescription : Rule where
  name := "required-tag-description"
  description := "All tags should have a description"
  swagger := .of [.tag] checkDescription
  openApi := .of [.tag] checkDescription

end ApiLint.Rule
