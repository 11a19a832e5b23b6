/-!
# Places in YAML text

What is left of a text, with the line and the column that it starts at, and the number of bytes
before it. Five characters break a line; a carriage return and a line feed together are one break.
-/

namespace ApiLint.Yaml

def isBreak (c : Char) : Bool :=
  c = '\n' || c = '\r' || c = '\u0085' || c = '\u2028' || c = '\u2029'

def isBlank (c : Char) : Bool := c = ' ' || c = '\t'

def isGap : Option Char → Bool
  | some c => isBlank c || isBreak c
  | none => true

def byteLength (s : List Char) : Nat := s.foldl (fun n c => n + c.utf8Size) 0

structure Cursor where
  rest : List Char
  index : Nat
  line : Nat
  column : Nat

namespace Cursor

def ofChars (s : List Char) : Cursor := ⟨s, 0, 0, 0⟩

def peek? (c : Cursor) : Option Char := c.rest.head?

def isAt (c : Cursor) (x : Char) : Bool := c.rest.head? == some x

def advance (c : Cursor) (n : Nat) : Cursor :=
  ⟨c.rest.drop n, c.index + byteLength (c.rest.take n), c.line, c.column + n⟩

def moveTo (c : Cursor) (rest : List Char) : Cursor :=
  let n := c.rest.length - rest.length
  ⟨rest, c.index + byteLength (c.rest.take n), c.line, c.column + n⟩

def skipWhile (c : Cursor) (p : Char → Bool) : Cursor := c.advance (c.rest.takeWhile p).length

def skipBlanks (c : Cursor) : Cursor := c.skipWhile isBlank

def skipLine (c : Cursor) : Cursor := c.skipWhile fun x => !isBreak x

def takeWhile (c : Cursor) (p : Char → Bool) : List Char × Cursor :=
  (c.rest.takeWhile p, c.skipWhile p)

/-- Passes over a line break, if one is here. It counts as a line feed, unless it is one of the two
separators. -/
def newline (c : Cursor) : List Char × Cursor :=
  match c.rest with
  | '\r' :: '\n' :: r => (['\n'], ⟨r, c.index + 2, c.line + 1, 0⟩)
  | x :: r =>
    if isBreak x then
      let text := if x = '\u2028' || x = '\u2029' then [x] else ['\n']
      (text, ⟨r, c.index + x.utf8Size, c.line + 1, 0⟩)
    else ([], c)
  | [] => ([], c)

def isAtMarker (c : Cursor) (x : Char) : Bool :=
  c.column == 0 && c.rest.take 3 == [x, x, x] && isGap (c.rest.drop 3).head?

def isAtDocumentMarker (c : Cursor) : Bool := c.isAtMarker '-' || c.isAtMarker '.'

end Cursor

def isAllowed (c : Char) : Bool :=
  let n := c.toNat
  n == 0x9 || n == 0xa || n == 0xd || (0x20 ≤ n && n ≤ 0x7e) || n == 0x85 ||
    (0xa0 ≤ n && n ≤ 0xd7ff) || (0xe000 ≤ n && n ≤ 0xfffd) || 0x10000 ≤ n

def byteOrderMark : Char := '\ufeff'

end ApiLint.Yaml
