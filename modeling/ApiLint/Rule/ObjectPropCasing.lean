import ApiLint.Rule.Basic

/-!
# Object property casing

The names of schema properties have one of five casings, which are conventions for names of ASCII
letters and digits, apart from the names in the option `ignore`.
-/

namespace ApiLint

inductive Casing where
  | camel
  | snake
  | pascal
  | constant
  | kebab
  deriving DecidableEq, Repr

namespace Casing

def all : List Casing := [camel, snake, pascal, constant, kebab]

def name : Casing → String
  | camel => "camel"
  | snake => "snake"
  | pascal => "pascal"
  | constant => "constant"
  | kebab => "kebab"

def ofName? (s : String) : Option Casing := all.find? fun c => c.name == s

def unknownMessage (s : String) : String :=
  "unknown variant `" ++ s ++ "`, expected one of " ++
    ", ".intercalate (all.map fun c => "`" ++ c.name ++ "`")

def isLower (c : Char) : Bool := 'a' ≤ c && c ≤ 'z'

def isUpper (c : Char) : Bool := 'A' ≤ c && c ≤ 'Z'

def isDigit (c : Char) : Bool := '0' ≤ c && c ≤ '9'

def segments (sep : Char) (inner : Char → Bool) (opened : Bool) : List Char → Bool
  | [] => !opened
  | c :: r =>
    if c = sep then !opened && segments sep inner true r else inner c && segments sep inner false r

/-- A name starts with a letter, whose case the casing fixes; three casings have segments after
it. -/
def matchesChars : Casing → List Char → Bool
  | _, [] => false
  | camel, c :: r => isLower c && r.all fun d => isLower d || isUpper d || isDigit d
  | pascal, c :: r => isUpper c && r.all fun d => isLower d || isUpper d || isDigit d
  | snake, c :: r => isLower c && segments '_' (fun d => isLower d || isDigit d) false r
  | kebab, c :: r => isLower c && segments '-' (fun d => isLower d || isDigit d) false r
  | constant, c :: r => isUpper c && segments '_' (fun d => isUpper d || isDigit d) false r

def admits (c : Casing) (s : String) : Bool := c.matchesChars s.toList

theorem ofName?_name (c : Casing) : ofName? c.name = some c := by cases c <;> decide

end Casing

namespace Rule

open Json

def casingOf? (setting : Setting) : Option Casing := setting.primary? >>= Casing.ofName?

def casingData (key : String) (casing : Casing) : Members :=
  [("key", .string key), ("casing", .string casing.name)]

def checkProperties (setting : Setting) (location : Location) (node : Value) : List Report :=
  let casing := (casingOf? setting).getD .camel
  let ignored := setting.textsOption "ignore"
  let properties := (node.get? "properties" >>= Value.members?).getD []
  (properties.keys.filter fun key => !(casing.admits key || ignored.contains key)).map fun key =>
    .template ((location.child "properties").child key) "casing" (casingData key casing)

def namesCasing (setting : Setting) : Bool :=
  (casingOf? setting).isSome &&
    match setting.option? "ignore" with
    | none => true
    | some (.array items) => items.all fun item => item.string?.isSome
    | some _ => false

def objectPropCasing : Rule where
  name := "object-prop-casing"
  description := "Casing for your object property names"
  default := some (.custom Casing.camel.name none)
  accepts := namesCasing
  messages :=
    [("casing",
      "Property \"\x7b\x7bkey\x7d\x7d\" has wrong casing. Expected \x7b\x7bcasing\x7d\x7d.")]
  swagger := .of [.schema] checkProperties
  openApi := .of [.schema] checkProperties

end Rule

end ApiLint
