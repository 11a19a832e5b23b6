import ApiLint.Rule.Basic

/-!
# Latin definitions only

The names of definitions consist of ASCII letters, digits and the characters of the option `ignore`.
-/

namespace ApiLint.Rule

open Json

def isLatin (ignored : List String) (c : Char) : Bool :=
  c.isAlphanum || ignored.any fun text => text.toList.head? == some c

def checkNames (setting : Setting) (location : Location) (definitions : Members) : List Report :=
  let ignored := setting.textsOption "ignore"
  (definitions.keys.filter fun name => !name.toList.all (isLatin ignored)).map fun name =>
    .message (location.child name)
      ("Definition name \"" ++ name ++ "\" contains non latin characters.")

def ignoresCharacters (setting : Setting) : Bool :=
  match setting.option? "ignore" with
  | none => true
  | some (.array items) => items.all fun item =>
    match item.string? with
    | some text => text.length == 1
    | none => false
  | some _ => false

def latinDefinitionsOnly : Rule where
  name := "latin-definitions-only"
  description := "Bans non Latin characters usage in definition names"
  default := some (.custom "" (some [("ignore", .array [])]))
  accepts := ignoresCharacters
  swagger := .of [.definitions] fun setting location node =>
    checkNames setting location (node.members?.getD [])
  openApi := .of [.components] fun setting location node =>
    checkNames setting (location.child "schemas")
      ((node.get? "schemas" >>= Value.members?).getD [])

end ApiLint.Rule
