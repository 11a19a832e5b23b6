/-!
# Binary64 numbers

Finite binary64 numbers as exact naturals. The non-negative finite values are numbered from zero
upwards, and `rank` is that number; `units` is the value itself, counted in the smallest positive
one, which is two to the power -1074. Rounding a quotient goes to the nearest value, and to the even
rank where two are equally near.

The decimal text of a number has the fewest digits that round back to it, and of these the nearest.
It is written in place from five zeros after the point up to sixteen digits before it, and with an
exponent outside that span.
-/

namespace ApiLint

structure Binary64 where
  negative : Bool
  rank : Nat
  deriving DecidableEq, Repr

namespace Binary64

def zero : Binary64 := ⟨false, 0⟩

def binade : Nat := Nat.pow 2 52

def rankLimit : Nat := 2047 * binade

def unitsPerOne : Nat := Nat.pow 2 1074

def exponent (x : Binary64) : Nat := x.rank / binade - 1

def significand (x : Binary64) : Nat :=
  if x.rank < binade then x.rank else binade + x.rank % binade

def units (x : Binary64) : Nat := x.significand * Nat.pow 2 x.exponent

def neg (x : Binary64) : Binary64 := ⟨!x.negative, x.rank⟩

def divNearest (n d : Nat) : Nat :=
  let q := n / d
  let r := n % d
  if 2 * r < d then q
  else if d < 2 * r then q + 1
  else if q % 2 = 0 then q else q + 1

/-- The rank of the value nearest to `n / d`; it may reach `rankLimit`. -/
def rankNearest (n d : Nat) : Nat :=
  let scaled := n * unitsPerOne
  let e := Nat.log2 (scaled / d) - 52
  e * binade + divNearest scaled (d * Nat.pow 2 e)

def ofRatio? (negative : Bool) (n d : Nat) : Option Binary64 :=
  let rank := rankNearest n d
  if rank < rankLimit then some ⟨negative, rank⟩ else none

def mul? (x y : Binary64) : Option Binary64 :=
  ofRatio? (x.negative != y.negative) (x.units * y.units) (unitsPerOne * unitsPerOne)

def div? (x y : Binary64) : Option Binary64 :=
  ofRatio? (x.negative != y.negative) x.units y.units

/-- The value nearest to `digits * 10 ^ scale`. Scales so far out that the answer is settled are
answered without raising ten to them. -/
def ofDecimal? (negative : Bool) (digits : Nat) (scale : Int) : Option Binary64 :=
  if digits = 0 then some ⟨negative, 0⟩
  else
    let bits : Int := Nat.log2 digits
    if 400 < scale + bits / 4 then none
    else if scale + bits / 3 + 1 < -400 then some ⟨negative, 0⟩
    else match scale with
      | .ofNat s => ofRatio? negative (digits * Nat.pow 10 s) 1
      | .negSucc s => ofRatio? negative digits (Nat.pow 10 (s + 1))

theorem neg_neg (x : Binary64) : x.neg.neg = x := by
  simp [neg]

theorem units_zero : zero.units = 0 := rfl

structure Decimal where
  digits : Nat
  scale : Int
  deriving DecidableEq, Repr

/-- A value with the ends of the interval that rounds to it, all counted in one unit. Both ends
belong to the interval when `closed` holds. -/
structure Span where
  low : Nat
  value : Nat
  high : Nat
  closed : Bool

/-- The interval of a positive value, in quarters of a unit. Below a power of two the neighbour is
twice as near as above. -/
def span (x : Binary64) : Span :=
  let value := 4 * x.units
  let gap := Nat.pow 2 x.exponent
  let below := if x.significand = binade ∧ 0 < x.exponent then gap else 2 * gap
  ⟨value - below, value, value + 2 * gap, x.significand % 2 = 0⟩

def quartersPerOne : Nat := 4 * unitsPerOne

def Span.contains (s : Span) (n : Nat) : Bool :=
  if s.closed then s.low ≤ n && n ≤ s.high else s.low < n && n < s.high

def Span.scale (s : Span) (k : Nat) : Span := ⟨k * s.low, k * s.value, k * s.high, s.closed⟩

def Span.onGrid? (s : Span) (step : Nat) : Option Nat :=
  let below := s.value / step
  let rest := s.value % step
  match s.contains (below * step), s.contains ((below + 1) * step) with
  | true, true =>
    if 2 * rest < step then some below
    else if step < 2 * rest then some (below + 1)
    else some (if below % 2 = 0 then below else below + 1)
  | true, false => some below
  | false, true => some (below + 1)
  | false, false => none

def onDecimalGrid? (x : Binary64) (scale : Int) : Option Nat :=
  match scale with
  | .ofNat k => x.span.onGrid? (quartersPerOne * Nat.pow 10 k)
  | .negSucc k => (x.span.scale (Nat.pow 10 (k + 1))).onGrid? quartersPerOne

def digitCount (n : Nat) : Nat := (Nat.toDigits 10 n).length

def decimalExponent (x : Binary64) : Int :=
  if unitsPerOne ≤ x.units then digitCount (x.units / unitsPerOne)
  else 1 - (digitCount ((unitsPerOne - 1) / x.units) : Int)

def mostDigits : Nat := 17

def shortest (x : Binary64) : Decimal :=
  let top := x.decimalExponent
  let found := (List.range mostDigits).findSome? fun n =>
    let scale := top - (n + 1 : Nat)
    (x.onDecimalGrid? scale).map fun digits => Decimal.mk digits scale
  found.getD ⟨0, 0⟩

def Decimal.placed (d : Decimal) : List Char × Int :=
  let all := Nat.toDigits 10 d.digits
  ((all.reverse.dropWhile (· = '0')).reverse, all.length + d.scale)

def zeros (n : Nat) : List Char := List.replicate n '0'

def positional (ds : List Char) (point : Int) : List Char :=
  match point with
  | .negSucc k => '0' :: '.' :: (zeros (k + 1) ++ ds)
  | .ofNat 0 => '0' :: '.' :: ds
  | .ofNat k =>
    if ds.length ≤ k then ds ++ zeros (k - ds.length) ++ ['.', '0']
    else ds.take k ++ '.' :: ds.drop k

def scientific (ds : List Char) (exponent : Int) : List Char :=
  let mantissa := match ds with
    | d :: e :: r => d :: '.' :: e :: r
    | ds => ds
  let sign := if exponent < 0 then '-' else '+'
  mantissa ++ 'e' :: sign :: Nat.toDigits 10 exponent.natAbs

def magnitudeText (x : Binary64) : List Char :=
  if x.rank = 0 then ['0', '.', '0']
  else
    let (ds, point) := x.shortest.placed
    let exponent := point - 1
    if exponent < -5 ∨ 16 ≤ exponent then scientific ds exponent else positional ds point

def signed (x : Binary64) (magnitude : List Char) : List Char :=
  if x.negative then '-' :: magnitude else magnitude

def text (x : Binary64) : List Char := x.signed x.magnitudeText

end Binary64

end ApiLint
