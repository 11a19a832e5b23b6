import ApiLint.Json.Quoted
import ApiLint.Yaml.Cursor

/-!
# Plain and quoted scalars

Between the words of a scalar, blanks in a line are kept. Over a line break they are dropped, one
break alone becomes a space, and further breaks are kept instead of it. Text without quotes ends at
a comment, at a colon before a blank, left of its indentation, and inside brackets also at the marks
of a collection. Between single quotes only the quote is escaped, by another one; between double
quotes a backslash escapes characters, codes and line breaks.
-/

namespace ApiLint.Yaml

structure Gap where
  broken : Bool
  blanks : List Char
  first : List Char
  /-- The line breaks after it. -/
  others : List Char

namespace Gap

def empty : Gap := ⟨false, [], [], []⟩

def escaped : Gap := ⟨true, [], [], []⟩

def fold (g : Gap) : List Char :=
  if g.broken then
    if g.first = ['\n'] then (if g.others.isEmpty then [' '] else g.others)
    else g.first ++ g.others
  else g.blanks

def addBlank (g : Gap) (c : Char) : Gap :=
  if g.broken then g else { g with blanks := g.blanks ++ [c] }

def addBreak (g : Gap) (text : List Char) : Gap :=
  if g.broken then { g with others := g.others ++ text } else ⟨true, [], text, []⟩

/-- Passes over blanks and line breaks. After a break no tab may stand left of column `margin`. -/
def scan? (margin : Nat) (g : Gap) (c : Cursor) : Option (Gap × Cursor) :=
  match c.peek? with
  | none => some (g, c)
  | some x =>
    if isBlank x then
      if g.broken && c.column < margin && x = '\t' then none
      else
        let next := c.advance 1
        if next.rest.length < c.rest.length then scan? margin (g.addBlank x) next else none
    else if isBreak x then
      let (text, next) := c.newline
      if next.rest.length < c.rest.length then scan? margin (g.addBreak text) next else none
    else some (g, c)
termination_by c.rest.length

end Gap

namespace Plain

def isFlowMark (c : Char) : Bool := c = ',' || c = '[' || c = ']' || c = '\x7b' || c = '\x7d'

def word? (flow : Bool) : List Char → Option (List Char)
  | [] => some []
  | c :: r =>
    if isBlank c || isBreak c then some []
    else if flow && c = ':' && r.head?.any (fun d => isFlowMark d || d = '?') then none
    else if c = ':' && isGap r.head? then some []
    else if flow && isFlowMark c then some []
    else (word? flow r).map (c :: ·)

def scanFrom? (flow : Bool) (margin : Nat) (text : List Char) (gap : Gap) (c : Cursor) :
    Option (List Char × Bool × Cursor) := do
  if c.isAtDocumentMarker || c.isAt '#' then return (text, gap.broken, c)
  let word ← word? flow c.rest
  let text := if word.isEmpty then text else text ++ gap.fold ++ word
  let gap := if word.isEmpty then gap else .empty
  let next := c.advance word.length
  match next.peek? with
  | none => return (text, gap.broken, next)
  | some x =>
    if !(isBlank x || isBreak x) then return (text, gap.broken, next)
    let (gap, after) ← gap.scan? margin next
    if !flow && after.column < margin then return (text, gap.broken, after)
    if after.rest.length < c.rest.length then scanFrom? flow margin text gap after else none
termination_by c.rest.length

def scan? (flow : Bool) (margin : Nat) (c : Cursor) : Option (List Char × Bool × Cursor) :=
  scanFrom? flow margin [] .empty c

end Plain

namespace Quoted

def simpleEscape? : Char → Option Char
  | '0' => some '\x00'
  | 'a' => some '\x07'
  | 'b' => some '\x08'
  | 't' => some '\t'
  | '\t' => some '\t'
  | 'n' => some '\n'
  | 'v' => some '\x0b'
  | 'f' => some '\x0c'
  | 'r' => some '\r'
  | 'e' => some '\x1b'
  | ' ' => some ' '
  | '"' => some '"'
  | '/' => some '/'
  | '\\' => some '\\'
  | 'N' => some '\u0085'
  | '_' => some '\u00a0'
  | 'L' => some '\u2028'
  | 'P' => some '\u2029'
  | _ => none

def codeLength? : Char → Option Nat
  | 'x' => some 2
  | 'u' => some 4
  | 'U' => some 8
  | _ => none

def charOfCode? (n : Nat) : Option Char :=
  if (0xd800 ≤ n ∧ n ≤ 0xdfff) ∨ 0x10ffff < n then none else some (Char.ofNat n)

/-- The characters up to the next gap, the closing quote or an escaped line break; what is left
after them; and whether an escaped break comes next. `left` digits of a code with the value `code`
so far are still to come. -/
def word? (double : Bool) (left code : Nat) : List Char → Option (List Char × List Char × Bool)
  | [] => if left = 0 then some ([], [], false) else none
  | c :: r =>
    match left with
    | left + 1 => do
      let code := code * 16 + (← Json.Quoted.hexValue? c)
      if left = 0 then
        let (word, rest, broken) ← word? double 0 0 r
        return ((← charOfCode? code) :: word, rest, broken)
      else word? double left code r
    | 0 =>
      if isBlank c || isBreak c then some ([], c :: r, false)
      else if double then
        if c = '"' then some ([], c :: r, false)
        else if c = '\\' then
          match r with
          | [] => none
          | d :: s =>
            if isBreak d then some ([], d :: s, true)
            else match codeLength? d with
              | some n => word? double n 0 s
              | none => do
                let e ← simpleEscape? d
                let (word, rest, broken) ← word? double 0 0 s
                return (e :: word, rest, broken)
        else (word? double 0 0 r).map fun (word, rest) => (c :: word, rest)
      else if c = '\'' then
        match r with
        | '\'' :: s => (word? double 0 0 s).map fun (word, rest) => ('\'' :: word, rest)
        | _ => some ([], c :: r, false)
      else (word? double 0 0 r).map fun (word, rest) => (c :: word, rest)

def scanFrom? (double : Bool) (text : List Char) (c : Cursor) : Option (List Char × Cursor) := do
  if c.isAtDocumentMarker || c.rest.isEmpty then none
  let (word, rest, broken) ← word? double 0 0 c.rest
  let text := text ++ word
  let next := c.moveTo rest
  let next := if broken then next.newline.2 else next
  if next.isAt (if double then '"' else '\'') then return (text, next.advance 1)
  let (gap, after) ← (if broken then Gap.escaped else .empty).scan? 0 next
  if after.rest.length < c.rest.length then scanFrom? double (text ++ gap.fold) after else none
termination_by c.rest.length

def scan? (double : Bool) (c : Cursor) : Option (List Char × Cursor) :=
  scanFrom? double [] (c.advance 1)

end Quoted

end ApiLint.Yaml
