import ApiLint.Yaml.Cursor

/-!
# Block scalars

Indented lines after a bar, which are kept, or after a greater-than sign, which are folded: a single
break between two lines that do not start with a blank becomes a space. The breaks at the end are
kept, all but the first dropped, or all dropped.
-/

namespace ApiLint.Yaml.Block

inductive Chomping where
  | strip
  | clip
  | keep
  deriving DecidableEq

def chomping? : Char → Option Chomping
  | '+' => some .keep
  | '-' => some .strip
  | _ => none

def increment? (c : Cursor) : Option (Nat × Cursor) :=
  match c.peek? with
  | some x =>
    if x.isDigit then (if x = '0' then none else some (x.toNat - 48, c.advance 1)) else some (0, c)
  | none => some (0, c)

def chompingHere (c : Cursor) : Option (Chomping × Cursor) :=
  (c.peek? >>= chomping?).map fun x => (x, c.advance 1)

def header? (c : Cursor) : Option (Chomping × Nat × Cursor) :=
  match chompingHere c with
  | some (chomping, c) => (increment? c).map fun (n, c) => (chomping, n, c)
  | none =>
    match increment? c with
    | some (n, d) =>
      if n = 0 then some (.clip, 0, d)
      else match chompingHere d with
        | some (chomping, e) => some (chomping, n, e)
        | none => some (.clip, n, d)
    | none => none

/-- The empty lines from here on, the widest indentation among them, and the place after the
indentation of the next line. As long as `indent` is zero, any indentation is passed over. -/
def emptyLines? (indent widest : Nat) (breaks : List Char) (c : Cursor) :
    Option (List Char × Nat × Cursor) :=
  let spaces := (c.rest.takeWhile (· = ' ')).length
  let c' := c.advance (if indent = 0 then spaces else min spaces (indent - c.column))
  let widest := max widest c'.column
  if (indent = 0 || c'.column < indent) && c'.isAt '\t' then none
  else match c'.peek? with
    | none => some (breaks, widest, c')
    | some x =>
      if isBreak x then
        let (text, next) := c'.newline
        if next.rest.length < c.rest.length then
          emptyLines? indent widest (breaks ++ text) next
        else none
      else some (breaks, widest, c')
termination_by c.rest.length

/-- The text so far: the last line break, the breaks of empty lines after it, and whether the last
line starts with a blank. -/
structure Lines where
  text : List Char
  last : List Char
  empty : List Char
  blank : Bool

def lines? (literal : Bool) (indent : Nat) (s : Lines) (c : Cursor) : Option (Lines × Cursor) := do
  if c.column != indent || c.rest.isEmpty then return (s, c)
  let blank := c.peek?.any isBlank
  let joint :=
    if !literal && s.last = ['\n'] && !s.blank && !blank then
      if s.empty.isEmpty then [' '] else []
    else s.last
  let (line, c') := c.takeWhile fun x => !isBreak x
  let (last, c') := c'.newline
  let (empty, _, next) ← emptyLines? indent 0 [] c'
  if next.rest.length < c.rest.length then
    lines? literal indent ⟨s.text ++ joint ++ s.empty ++ line, last, empty, blank⟩ next
  else none
termination_by c.rest.length

def scan? (literal : Bool) (parent : Int) (c : Cursor) : Option (List Char × Cursor) := do
  let (chomping, increment, c) ← header? (c.advance 1)
  let c := c.skipBlanks
  let c := if c.isAt '#' then c.skipLine else c
  if !(c.peek?.all isBreak) then none
  let (_, c) := c.newline
  let given := if increment = 0 then 0 else (max parent 0).toNat + increment
  let (empty, widest, c) ← emptyLines? given 0 [] c
  let indent := if given = 0 then max (max widest (parent + 1).toNat) 1 else given
  let (s, c) ← lines? literal indent ⟨[], [], empty, false⟩ c
  let text := if chomping = .strip then s.text else s.text ++ s.last
  return (if chomping = .keep then text ++ s.empty else text, c)

end ApiLint.Yaml.Block
