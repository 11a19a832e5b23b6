import ApiLint.Json.Quoted
import ApiLint.Json.Value
import ApiLint.Yaml.Properties

/-!
# Meanings of scalars

A plain scalar may mean nothing, a truth value or a number, by the core schema of YAML 1.2; what
means none of them is text. An integer beyond 64 bits has no value, and one beyond 128 bits is read
as a floating-point number.
-/

namespace ApiLint.Yaml.Scalar

open Json

def isNull (s : String) : Bool := ["null", "Null", "NULL", "~"].contains s

def bool? (s : String) : Option Bool :=
  if ["true", "True", "TRUE"].contains s then some true
  else if ["false", "False", "FALSE"].contains s then some false
  else none

def natOfDigits? (base : Nat) (ds : List Char) : Option Nat :=
  if ds.isEmpty then none
  else ds.foldlM (fun n d => do
    let v ← Quoted.hexValue? d
    if v < base then some (n * base + v) else none) 0

def unsigned : List Char → List Char
  | '-' :: r => r
  | '+' :: r => r
  | s => s

def isZeroPadded (s : List Char) : Bool :=
  match unsigned s with
  | '0' :: d :: r => (d :: r).all Char.isDigit
  | _ => false

def magnitude? : List Char → Option Nat
  | '0' :: 'x' :: ds => natOfDigits? 16 ds
  | '0' :: 'o' :: ds => natOfDigits? 8 ds
  | '0' :: 'b' :: ds => natOfDigits? 2 ds
  | ds => natOfDigits? 10 ds

def fitsBits (bits : Nat) (n : Int) : Bool :=
  -(Nat.pow 2 (bits - 1) : Int) ≤ n && n < (Nat.pow 2 bits : Int)

def int? (s : List Char) : Option Int :=
  if isZeroPadded s then none
  else match magnitude? (unsigned s) with
    | some m =>
      let n : Int := if s.head? = some '-' then -m else m
      if fitsBits 128 n then some n else none
    | none => none

def exponent? : List Char → Option Int
  | [] => some 0
  | c :: r =>
    if c = 'e' ∨ c = 'E' then
      (natOfDigits? 10 (unsigned r)).map fun n => if r.head? = some '-' then -(n : Int) else n
    else none

def decimal? (s : List Char) : Option Binary64 := do
  let r := unsigned s
  let whole := r.takeWhile Char.isDigit
  let r := r.dropWhile Char.isDigit
  let (fraction, r) := match r with
    | '.' :: r => (r.takeWhile Char.isDigit, r.dropWhile Char.isDigit)
    | r => ([], r)
  let digits ← natOfDigits? 10 (whole ++ fraction)
  Binary64.ofDecimal? (s.head? = some '-') digits ((← exponent? r) - fraction.length)

def isSpecial (s : String) : Bool :=
  [".inf", ".Inf", ".INF", "+.inf", "+.Inf", "+.INF", "-.inf", "-.Inf", "-.INF", ".nan", ".NaN",
    ".NAN"].contains s

def float? (s : String) : Option Value :=
  if isSpecial s then some .null else (decimal? s.toList).map fun x => .number (.float x)

def intValue? (n : Int) : Option Value := if fitsBits 64 n then some (.number (.int n)) else none

def plainValue? (s : String) : Option Value :=
  if s.isEmpty || isNull s then some .null
  else match bool? s with
    | some b => some (.bool b)
    | none =>
      match int? s.toList with
      | some n => intValue? n
      | none =>
        if isZeroPadded s.toList then some (.string s) else some ((float? s).getD (.string s))

def untaggedValue? (s : String) (plain : Bool) : Option Value :=
  if plain then plainValue? s else some (.string s)

/-- The value of a scalar. One with a tag of the application has none; an exclamation mark in front
of what is no text says nothing, and any other tag without a meaning says that it is text. -/
def value? (tag : Option Tag) (s : String) (plain : Bool) : Option Value :=
  match tag with
  | none => untaggedValue? s plain
  | some t =>
    if t.isOwn then none
    else if t = .core "bool" then (bool? s).map .bool
    else if t = .core "int" then int? s.toList >>= intValue?
    else if t = .core "float" then float? s
    else if t = .core "null" then (if isNull s then some .null else none)
    else if t.afterMark?.isSome then untaggedValue? s plain
    else some (.string s)

end ApiLint.Yaml.Scalar
