/-!
# JSON strings

JSON strings between their quotes. Writing escapes the quote, the backslash and the control
characters, and nothing else. Reading knows every escape of the format; two escaped halves of a
surrogate pair make one character, and half a pair alone makes none.
-/

namespace ApiLint.Json.Quoted

def hexDigit (n : Nat) : Char := Char.ofNat (if n < 10 then 48 + n else 87 + n)

def hexValue? (c : Char) : Option Nat :=
  if '0' ≤ c ∧ c ≤ '9' then some (c.toNat - 48)
  else if 'a' ≤ c ∧ c ≤ 'f' then some (c.toNat - 87)
  else if 'A' ≤ c ∧ c ≤ 'F' then some (c.toNat - 55)
  else none

def escape (c : Char) : List Char :=
  if c = '"' then ['\\', '"']
  else if c = '\\' then ['\\', '\\']
  else if c = '\x08' then ['\\', 'b']
  else if c = '\x0c' then ['\\', 'f']
  else if c = '\n' then ['\\', 'n']
  else if c = '\r' then ['\\', 'r']
  else if c = '\t' then ['\\', 't']
  else if c.toNat < 32 then ['\\', 'u', '0', '0', hexDigit (c.toNat / 16), hexDigit (c.toNat % 16)]
  else [c]

def encode (s : List Char) : List Char := s.flatMap escape

inductive Piece where
  | char (c : Char)
  | half (code : Nat)
  deriving DecidableEq, Repr

def hexFour? (a b c d : Char) : Option Nat := do
  return ((← hexValue? a) * 16 + (← hexValue? b)) * 256 + (← hexValue? c) * 16 + (← hexValue? d)

def Piece.ofCode (code : Nat) : Piece :=
  if 0xd800 ≤ code ∧ code < 0xe000 then .half code else .char (Char.ofNat code)

def simpleEscape? (c : Char) : Option Char :=
  match c with
  | '"' => some '"'
  | '\\' => some '\\'
  | '/' => some '/'
  | 'b' => some '\x08'
  | 'f' => some '\x0c'
  | 'n' => some '\n'
  | 'r' => some '\r'
  | 't' => some '\t'
  | _ => none

def pieces? : List Char → Option (List Piece)
  | [] => some []
  | '\\' :: 'u' :: a :: b :: c :: d :: r => do
    return Piece.ofCode (← hexFour? a b c d) :: (← pieces? r)
  | '\\' :: c :: r => do return .char (← simpleEscape? c) :: (← pieces? r)
  | c :: r => if c.toNat < 32 ∨ c = '\\' then none else do return .char c :: (← pieces? r)

/-- The text that the pieces spell, unless half a surrogate pair stands alone. -/
def spell? : List Piece → Option (List Char)
  | [] => some []
  | .char c :: r => do return c :: (← spell? r)
  | .half hi :: .half lo :: r =>
    if hi < 0xdc00 ∧ 0xdc00 ≤ lo then do
      return Char.ofNat (0x10000 + (hi - 0xd800) * 1024 + (lo - 0xdc00)) :: (← spell? r)
    else none
  | .half _ :: _ => none

end ApiLint.Json.Quoted
