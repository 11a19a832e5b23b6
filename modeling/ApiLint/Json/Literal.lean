import ApiLint.Json.Value

/-!
# JSON number literals

JSON number literals and the numbers they stand for. A literal without fraction and exponent is an
integer if it fits 64 bits. Any other is read as a significand of at most 64 bits, the digits beyond
it being counted and not kept, which is then multiplied or divided by a power of ten; both steps
round.
-/

namespace ApiLint.Json

structure Literal where
  negative : Bool
  whole : List Char
  fraction : List Char
  exponentNegative : Bool
  exponent : List Char
  deriving DecidableEq, Repr

namespace Literal

def digitValue (c : Char) : Nat := c.toNat - 48

def natOfDigits (ds : List Char) : Nat := ds.foldl (fun n c => n * 10 + digitValue c) 0

def exponentOf? : List Char → Option (Bool × List Char)
  | [] => some (false, [])
  | c :: r =>
    if c = 'e' ∨ c = 'E' then
      let (negative, ds) := match r with
        | '-' :: ds => (true, ds)
        | '+' :: ds => (false, ds)
        | ds => (false, ds)
      if ds.isEmpty || !ds.all Char.isDigit then none else some (negative, ds)
    else none

def ofChars? (cs : List Char) : Option Literal :=
  let (negative, r) := match cs with
    | '-' :: r => (true, r)
    | r => (false, r)
  let whole := r.takeWhile Char.isDigit
  let r := r.dropWhile Char.isDigit
  if whole.isEmpty || (whole.head? == some '0' && whole.length != 1) then none
  else match r with
    | '.' :: r =>
      let fraction := r.takeWhile Char.isDigit
      if fraction.isEmpty then none
      else (exponentOf? (r.dropWhile Char.isDigit)).map fun (sign, ds) =>
        ⟨negative, whole, fraction, sign, ds⟩
    | r => (exponentOf? r).map fun (sign, ds) => ⟨negative, whole, [], sign, ds⟩

def significandLimit : Nat := Nat.pow 2 64

def takeWhole (value : Nat) : List Char → Nat × Nat
  | [] => (value, 0)
  | d :: ds =>
    let next := value * 10 + digitValue d
    if next < significandLimit then takeWhole next ds else (value, ds.length + 1)

def takeFraction (value taken : Nat) : List Char → Nat × Nat
  | [] => (value, taken)
  | d :: ds =>
    let next := value * 10 + digitValue d
    if next < significandLimit then takeFraction next (taken + 1) ds else (value, taken)

def stepLimit : Nat := 308

def powerOfTen (k : Nat) : Binary64 := (Binary64.ofRatio? false (Nat.pow 10 k) 1).getD .zero

/-- Divides by a power of ten, `10 ^ 308` at a time. -/
def shrink (x : Binary64) (k : Nat) : Option Binary64 :=
  if k ≤ stepLimit then x.div? (powerOfTen k)
  else if x.rank = 0 then some x
  else (x.div? (powerOfTen stepLimit)).bind fun y => shrink y (k - stepLimit)
termination_by k
decreasing_by simp_wf; simp [stepLimit] at *; omega

def scaleBy (x : Binary64) (scale : Int) : Option Binary64 :=
  match scale with
  | .ofNat k =>
    if k ≤ stepLimit then x.mul? (powerOfTen k) else if x.rank = 0 then some x else none
  | .negSucc k => shrink x (k + 1)

def number? (l : Literal) : Option Number :=
  let (whole, dropped) := takeWhole 0 l.whole
  if l.fraction.isEmpty && l.exponent.isEmpty && dropped == 0 then
    if !l.negative then some (.int whole)
    else if whole != 0 && whole ≤ Nat.pow 2 63 then some (.int (-whole))
    else (Binary64.ofRatio? true whole 1).map .float
  else
    let (significand, taken) := takeFraction whole 0 l.fraction
    let exponent : Int := natOfDigits l.exponent
    let scale := (dropped : Int) - taken + (if l.exponentNegative then -exponent else exponent)
    (Binary64.ofRatio? l.negative significand 1).bind fun x => (scaleBy x scale).map .float

end Literal

end ApiLint.Json
