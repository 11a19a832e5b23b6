import ApiLint.Json.Quoted
import ApiLint.Yaml.Cursor

/-!
# Anchors, tags and directives

The small pieces of YAML text that name things: anchors and aliases, tags with a handle or without,
and the directives before a document. A tag says of which kind a node is. It is made of bytes, which
need not spell a text, and it ends before its first zero byte.
-/

namespace ApiLint.Yaml

structure Tag where
  bytes : List UInt8
  deriving DecidableEq, Repr

namespace Tag

def asciiBytes (s : List Char) : List UInt8 := s.map fun c => c.toNat.toUInt8

def ended (bytes : List UInt8) : List UInt8 := bytes.takeWhile (· ≠ 0)

def coreStart : List UInt8 := asciiBytes "tag:yaml.org,2002:".toList

def core (name : String) : Tag := ⟨coreStart ++ asciiBytes name.toList⟩

def afterMark? (t : Tag) : Option (List UInt8) :=
  match t.bytes with
  | b :: name => if b = 0x21 then some name else none
  | [] => none

def isOwn (t : Tag) : Bool :=
  t.afterMark?.any fun name => (String.fromUTF8? ⟨name.toArray⟩).isSome

end Tag

namespace Properties

def isWordChar (c : Char) : Bool := c.isAlphanum || c = '_' || c = '-'

def name? (c : Cursor) : Option (String × Cursor) :=
  let (name, next) := (c.advance 1).takeWhile isWordChar
  let ends := match next.peek? with
    | none => true
    | some x => isBlank x || isBreak x || "?:,]\x7d%@`".toList.contains x
  if name.isEmpty || !ends then none else some (String.ofList name, next)

def isUriChar (verbatim : Bool) (c : Char) : Bool :=
  isWordChar c || ";/?:@&=+$.%!~*'()".toList.contains c || (verbatim && ",[]".toList.contains c)

def byteCount? (n : Nat) : Option Nat :=
  if n < 0x80 then some 1
  else if 0xc0 ≤ n ∧ n < 0xe0 then some 2
  else if 0xe0 ≤ n ∧ n < 0xf0 then some 3
  else if 0xf0 ≤ n ∧ n < 0xf8 then some 4
  else none

/-- The bytes of a URI, where a percent sign escapes two digits; `pending` bytes of a character are
still to come, and must be escaped too. -/
def uriBytes? (pending : Nat) : List Char → Option (List UInt8)
  | [] => if pending = 0 then some [] else none
  | '%' :: a :: b :: r => do
    let n := (← Json.Quoted.hexValue? a) * 16 + (← Json.Quoted.hexValue? b)
    if pending = 0 then
      return n.toUInt8 :: (← uriBytes? ((← byteCount? n) - 1) r)
    else if 0x80 ≤ n ∧ n < 0xc0 then return n.toUInt8 :: (← uriBytes? (pending - 1) r)
    else none
  | c :: r => if pending = 0 ∧ c ≠ '%' then do return c.toNat.toUInt8 :: (← uriBytes? 0 r) else none

def uri? (verbatim : Bool) (head : List Char) (c : Cursor) : Option (List UInt8 × Cursor) := do
  let (raw, next) := c.takeWhile (isUriChar verbatim)
  if raw.isEmpty && head.isEmpty then none
  return (Tag.ended (← uriBytes? 0 (head.drop 1 ++ raw)), next)

def handle? (directive : Bool) (c : Cursor) : Option (List Char × Cursor) :=
  if c.isAt '!' then
    let (word, next) := (c.advance 1).takeWhile isWordChar
    if next.isAt '!' then some ('!' :: (word ++ ['!']), next.advance 1)
    else if directive && !word.isEmpty then none
    else some ('!' :: word, next)
  else none

structure WrittenTag where
  handle : String
  suffix : List UInt8
  deriving DecidableEq, Repr

def tagParts? (c : Cursor) : Option (List Char × List UInt8 × Cursor) :=
  if (c.advance 1).isAt '<' then do
    let (suffix, next) ← uri? true [] (c.advance 2)
    if next.isAt '>' then return ([], suffix, next.advance 1) else none
  else do
    let (handle, next) ← handle? false c
    if 2 ≤ handle.length ∧ handle.getLast? = some '!' then
      let (suffix, next) ← uri? false [] next
      return (handle, suffix, next)
    else
      let (suffix, next) ← uri? false handle next
      return if suffix.isEmpty then ([], Tag.asciiBytes ['!'], next) else (['!'], suffix, next)

def tag? (flow : Bool) (c : Cursor) : Option (WrittenTag × Cursor) := do
  let (handle, suffix, next) ← tagParts? c
  if isGap next.peek? || (flow && next.isAt ',') then
    return (⟨String.ofList handle, suffix⟩, next)
  else none

inductive Directive where
  | version (major minor : Nat)
  | tag (handle : String) (start : List UInt8)
  deriving DecidableEq, Repr

def versionNumber? (c : Cursor) : Option (Nat × Cursor) :=
  let (ds, next) := c.takeWhile Char.isDigit
  if ds.isEmpty || 9 < ds.length then none
  else some (ds.foldl (fun n d => n * 10 + (d.toNat - 48)) 0, next)

def directiveValue? (name : String) (c : Cursor) : Option (Directive × Cursor) :=
  match name with
  | "YAML" => do
    let (major, c) ← versionNumber? c.skipBlanks
    if !c.isAt '.' then none
    let (minor, c) ← versionNumber? (c.advance 1)
    return (.version major minor, c)
  | "TAG" => do
    let (handle, c) ← handle? true c.skipBlanks
    if !c.peek?.any isBlank then none
    let (start, c) ← uri? true [] c.skipBlanks
    if !isGap c.peek? then none
    return (.tag (String.ofList handle) start, c)
  | _ => none

def directive? (c : Cursor) : Option (Directive × Cursor) := do
  let (name, c) := (c.advance 1).takeWhile isWordChar
  if !isGap c.peek? then none
  let (directive, c) ← directiveValue? (String.ofList name) c
  let c := c.skipBlanks
  let c := if c.isAt '#' then c.skipLine else c
  if !c.peek?.all isBreak then none
  return (directive, c.newline.2)

end Properties

end ApiLint.Yaml
