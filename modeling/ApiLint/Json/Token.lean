import ApiLint.Json.Literal
import ApiLint.Json.Quoted

/-!
# JSON tokens

The tokens of JSON text. What cannot be part of any text is refused here; a string with half a
surrogate pair and a number beyond the range are tokens without a value, because text that is only
skipped may hold them.
-/

namespace ApiLint.Json

inductive Token where
  | openArray
  | closeArray
  | openObject
  | closeObject
  | comma
  | colon
  | null
  | bool (value : Bool)
  | number (value : Option Number)
  | string (value : Option String)
  deriving DecidableEq, Repr

namespace Token

def isSpace (c : Char) : Bool := c = ' ' || c = '\n' || c = '\t' || c = '\r'

def ofMark? : Char → Option Token
  | '[' => some openArray
  | ']' => some closeArray
  | '\x7b' => some openObject
  | '\x7d' => some closeObject
  | ',' => some comma
  | ':' => some colon
  | _ => none

def ofWord? (word : List Char) : Option Token :=
  if word = ['n', 'u', 'l', 'l'] then some null
  else if word = ['t', 'r', 'u', 'e'] then some (bool true)
  else if word = ['f', 'a', 'l', 's', 'e'] then some (bool false)
  else (Literal.ofChars? word).map fun l => number l.number?

def ofQuoted? (raw : List Char) : Option Token :=
  (Quoted.pieces? raw).map fun ps => string ((Quoted.spell? ps).map String.ofList)

/-- Where a scan stands: between tokens, in a string, or in a word. What has been read of a token is
kept last character first. -/
inductive Mode where
  | between
  | quoted (read : List Char)
  | escaped (read : List Char)
  | word (read : List Char)

def step? (m : Mode) (c : Char) : Option (List Token × Mode) :=
  match m with
  | .between =>
    if isSpace c then some ([], .between)
    else if c = '"' then some ([], .quoted [])
    else match ofMark? c with
      | some t => some ([t], .between)
      | none => some ([], .word [c])
  | .quoted read =>
    if c = '"' then (ofQuoted? read.reverse).map fun t => ([t], .between)
    else if c = '\\' then some ([], .escaped (c :: read))
    else some ([], .quoted (c :: read))
  | .escaped read => some ([], .quoted (c :: read))
  | .word read =>
    if isSpace c then (ofWord? read.reverse).map fun t => ([t], .between)
    else if c = '"' then (ofWord? read.reverse).map fun t => ([t], .quoted [])
    else match ofMark? c with
      | some t => (ofWord? read.reverse).map fun w => ([w, t], .between)
      | none => some ([], .word (c :: read))

def finish? : Mode → Option (List Token)
  | .between => some []
  | .word read => (ofWord? read.reverse).map fun t => [t]
  | _ => none

def scanFrom? (m : Mode) (found : List Token) : List Char → Option (List Token)
  | [] => (finish? m).map fun ts => found.reverse ++ ts
  | c :: r =>
    match step? m c with
    | some (ts, m) => scanFrom? m (ts.reverse ++ found) r
    | none => none

def scan? (s : List Char) : Option (List Token) := scanFrom? .between [] s

end Token

end ApiLint.Json
