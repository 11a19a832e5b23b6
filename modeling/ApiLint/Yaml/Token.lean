import ApiLint.Yaml.Block
import ApiLint.Yaml.FlowScalar
import ApiLint.Yaml.Properties

/-!
# Tokens of YAML text

A scan turns text into tokens, among them those that indentation opens and closes. What comes before
a colon may turn out to be a key after it was read; the place for a key is therefore kept until a
colon is met or the key is impossible, and the tokens are then put in there.
-/

namespace ApiLint.Yaml

inductive Token where
  | directive (value : Properties.Directive)
  | documentStart
  | documentEnd
  | blockSequenceStart
  | blockMappingStart
  | blockEnd
  | flowSequenceStart
  | flowSequenceEnd
  | flowMappingStart
  | flowMappingEnd
  | blockEntry
  | flowEntry
  | key
  | value
  | aliasOf (name : String)
  | anchor (name : String)
  | tag (value : Properties.WrittenTag)
  | scalar (text : String) (plain : Bool)
  deriving DecidableEq, Repr

namespace Token

/-- A place where a key may start: before which token, where in the text, and whether there is an
error if none does. -/
structure KeyPlace where
  token : Nat
  index : Nat
  line : Nat
  column : Nat
  required : Bool

structure Scan where
  cursor : Cursor
  tokens : List Token
  indent : Int
  indents : List Int
  keyAllowed : Bool
  keyPlace : Option KeyPlace
  outerKeys : List (Option KeyPlace)

namespace Scan

def start (s : List Char) : Scan := ⟨.ofChars s, [], -1, [], true, none, []⟩

def inFlow (s : Scan) : Bool := !s.outerKeys.isEmpty

def push (s : Scan) (t : Token) : Scan := { s with tokens := t :: s.tokens }

def insert (s : Scan) (n : Nat) (t : Token) : Scan :=
  let after := s.tokens.length - n
  { s with tokens := s.tokens.take after ++ t :: s.tokens.drop after }

def maxKeyLength : Nat := 1024

def keepKey? (c : Cursor) : Option KeyPlace → Option (Option KeyPlace)
  | none => some none
  | some k =>
    if k.line < c.line || k.index + maxKeyLength < c.index then
      if k.required then none else some none
    else some (some k)

def dropStaleKeys? (s : Scan) : Option Scan := do
  let keyPlace ← keepKey? s.cursor s.keyPlace
  let outerKeys ← s.outerKeys.mapM (keepKey? s.cursor)
  return { s with keyPlace, outerKeys }

def dropKey? (s : Scan) : Option Scan :=
  match s.keyPlace with
  | some k => if k.required then none else some { s with keyPlace := none }
  | none => some s

def saveKey? (s : Scan) : Option Scan :=
  if s.keyAllowed then do
    let required := !s.inFlow && s.indent == s.cursor.column
    let s ← s.dropKey?
    let c := s.cursor
    return { s with keyPlace := some ⟨s.tokens.length, c.index, c.line, c.column, required⟩ }
  else some s

def roll (s : Scan) (column : Nat) (n : Option Nat) (t : Token) : Scan :=
  if !s.inFlow && s.indent < column then
    let s := { s with indents := s.indent :: s.indents, indent := column }
    match n with
    | some n => s.insert n t
    | none => s.push t
  else s

def unrollFrom (column : Int) (s : Scan) : List Int → Scan
  | [] => s
  | outer :: indents =>
    if column < s.indent then
      unrollFrom column { s with tokens := .blockEnd :: s.tokens, indent := outer, indents } indents
    else s

def unroll (s : Scan) (column : Int) : Scan :=
  if s.inFlow then s else unrollFrom column s s.indents

/-- Passes over blanks, comments and line breaks; a line break outside brackets allows a key. A byte
order mark in front of a line is passed over and takes a column. -/
def skipGap (flow keyAllowed : Bool) (c : Cursor) : Bool × Cursor :=
  let c' := if c.column = 0 && c.isAt byteOrderMark then c.advance 1 else c
  let c' := c'.skipWhile fun x => x = ' ' || ((flow || !keyAllowed) && x = '\t')
  let c' := if c'.isAt '#' then c'.skipLine else c'
  let next := c'.newline.2
  if c'.peek?.any isBreak ∧ next.rest.length < c.rest.length then
    skipGap flow (keyAllowed || !flow) next
  else (keyAllowed, c')
termination_by c.rest.length
decreasing_by rename_i h; exact h.2

def one (s : Scan) (t : Token) : Scan := { s with cursor := s.cursor.advance 1 }.push t

def allowKey (s : Scan) (allowed : Bool) : Scan := { s with keyAllowed := allowed }

def directive? (s : Scan) : Option Scan := do
  let s ← (s.unroll (-1)).dropKey?
  let (d, c) ← Properties.directive? s.cursor
  return ({ s with cursor := c, keyAllowed := false }.push (.directive d))

def marker? (s : Scan) (t : Token) : Option Scan := do
  let s ← (s.unroll (-1)).dropKey?
  return ({ s with cursor := s.cursor.advance 3, keyAllowed := false }.push t)

def openFlow? (s : Scan) (t : Token) : Option Scan := do
  let s ← s.saveKey?
  return ({ s with keyPlace := none, outerKeys := s.keyPlace :: s.outerKeys,
                   keyAllowed := true }.one t)

def closeFlow? (s : Scan) (t : Token) : Option Scan := do
  let s ← s.dropKey?
  let s := match s.outerKeys with
    | k :: ks => { s with keyPlace := k, outerKeys := ks }
    | [] => s
  return (s.allowKey false).one t

def flowEntry? (s : Scan) : Option Scan := do
  return ((← s.dropKey?).allowKey true).one .flowEntry

def blockEntry? (s : Scan) : Option Scan := do
  if !s.inFlow && !s.keyAllowed then none
  let s := s.roll s.cursor.column none .blockSequenceStart
  return ((← s.dropKey?).allowKey true).one .blockEntry

def key? (s : Scan) : Option Scan := do
  if !s.inFlow && !s.keyAllowed then none
  let s := s.roll s.cursor.column none .blockMappingStart
  return ((← s.dropKey?).allowKey (!s.inFlow)).one .key

def value? (s : Scan) : Option Scan := do
  match s.keyPlace with
  | some k =>
    let s := s.insert k.token .key
    let s := s.roll k.column (some k.token) .blockMappingStart
    return ({ s with keyPlace := none, keyAllowed := false }.one .value)
  | none =>
    if !s.inFlow && !s.keyAllowed then none
    let s := s.roll s.cursor.column none .blockMappingStart
    return ((s.allowKey (!s.inFlow)).one .value)

def anchor? (s : Scan) (token : String → Token) : Option Scan := do
  let s ← s.saveKey?
  let (name, c) ← Properties.name? s.cursor
  return ({ s with cursor := c, keyAllowed := false }.push (token name))

def tag? (s : Scan) : Option Scan := do
  let s ← s.saveKey?
  let (t, c) ← Properties.tag? s.inFlow s.cursor
  return ({ s with cursor := c, keyAllowed := false }.push (.tag t))

def block? (s : Scan) (literal : Bool) : Option Scan := do
  let s ← s.dropKey?
  let (text, c) ← Block.scan? literal s.indent s.cursor
  return ({ s with cursor := c, keyAllowed := true }.push (.scalar (String.ofList text) false))

def quoted? (s : Scan) (double : Bool) : Option Scan := do
  let s ← s.saveKey?
  let (text, c) ← Quoted.scan? double s.cursor
  return ({ s with cursor := c, keyAllowed := false }.push (.scalar (String.ofList text) false))

def plain? (s : Scan) : Option Scan := do
  let s ← s.saveKey?
  let (text, broken, c) ← Plain.scan? s.inFlow (s.indent + 1).toNat s.cursor
  return ({ s with cursor := c, keyAllowed := broken }.push (.scalar (String.ofList text) true))

def startsPlain (flow : Bool) (x : Char) (next : Option Char) : Bool :=
  !(isBlank x || isBreak x || "-?:,[]\x7b\x7d#&*!|>'\"%@`".toList.contains x) ||
    (x = '-' && !next.any isBlank) || (!flow && (x = '?' || x = ':') && !isGap next)

def token? (s : Scan) (x : Char) : Option Scan :=
  let c := s.cursor
  let next := (c.advance 1).peek?
  if c.column = 0 && x = '%' then s.directive?
  else if c.isAtMarker '-' then s.marker? .documentStart
  else if c.isAtMarker '.' then s.marker? .documentEnd
  else if x = '[' then s.openFlow? .flowSequenceStart
  else if x = '\x7b' then s.openFlow? .flowMappingStart
  else if x = ']' then s.closeFlow? .flowSequenceEnd
  else if x = '\x7d' then s.closeFlow? .flowMappingEnd
  else if x = ',' then s.flowEntry?
  else if x = '-' && isGap next then s.blockEntry?
  else if x = '?' && (s.inFlow || isGap next) then s.key?
  else if x = ':' && (s.inFlow || isGap next) then s.value?
  else if x = '*' then s.anchor? .aliasOf
  else if x = '&' then s.anchor? .anchor
  else if x = '!' then s.tag?
  else if x = '|' && !s.inFlow then s.block? true
  else if x = '>' && !s.inFlow then s.block? false
  else if x = '\'' then s.quoted? false
  else if x = '"' then s.quoted? true
  else if startsPlain s.inFlow x next then s.plain?
  else none

def advance? (s : Scan) : Option Scan := do
  let (keyAllowed, c) := skipGap s.inFlow s.keyAllowed s.cursor
  let s ← { s with keyAllowed, cursor := c }.dropStaleKeys?
  return s.unroll c.column

def run? (s : Scan) : Option (List Token) := do
  let t ← s.advance?
  match t.cursor.peek? with
  | none => return (← (t.unroll (-1)).dropKey?).tokens.reverse
  | some x =>
    let u ← t.token? x
    if u.cursor.rest.length < s.cursor.rest.length then u.run? else none
termination_by s.cursor.rest.length

end Scan

def scan? (s : List Char) : Option (List Token) :=
  if s.all isAllowed then (Scan.start s).run? else none

end Token

end ApiLint.Yaml
