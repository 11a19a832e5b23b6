import ApiLint.Yaml.Token

/-!
# Nodes of YAML text

The tree that the tokens of a text spell. An anchor is numbered by the different names that were
anchored before it, and an alias has the number that its name had last. A text is one document; one
without a document is an empty node.
-/

namespace ApiLint.Yaml

inductive Node where
  | scalar (anchor : Option Nat) (tag : Option Tag) (text : String) (plain : Bool)
  | sequence (anchor : Option Nat) (tag : Option Tag) (items : List Node)
  | mapping (anchor : Option Nat) (tag : Option Tag) (entries : List (Node × Node))
  | aliasOf (anchor : Nat)
  deriving Repr

namespace Node

def empty : Node := scalar none none "" true

structure Input where
  tokens : List Token
  anchors : List (String × Nat)
  handles : List (String × List UInt8)

abbrev Reader (A : Type) := StateT Input Option A

def peek : Reader (Option Token) := do return (← get).tokens.head?

def skip : Reader Unit := modify fun i => { i with tokens := i.tokens.drop 1 }

def accept (t : Token) : Reader Bool := do
  if (← peek) = some t then
    skip
    return true
  else return false

def expect (t : Token) : Reader Unit := do
  if !(← accept t) then failure

def register : Option String → Reader (Option Nat)
  | none => return none
  | some name => do
    let known := (← get).anchors
    let n := known.length
    let others := known.filter fun a => a.1 ≠ name
    let anchors := if others.length < n then others ++ [(name, n)] else known ++ [(name, n)]
    modify fun i => { i with anchors }
    return some n

def resolveTag (t : Properties.WrittenTag) : Reader Tag := do
  if t.handle.isEmpty then return ⟨t.suffix⟩
  match (← get).handles.lookup t.handle with
  | some start => return ⟨start ++ t.suffix⟩
  | none => failure

def properties : Reader (Option String × Option Tag) := do
  match ← peek with
  | some (.anchor name) =>
    skip
    match ← peek with
    | some (.tag t) =>
      skip
      return (some name, some (← resolveTag t))
    | _ => return (some name, none)
  | some (.tag t) =>
    skip
    match ← peek with
    | some (.anchor name) =>
      skip
      return (some name, some (← resolveTag t))
    | _ => return (none, some (← resolveTag t))
  | _ => return (none, none)

def ends (marks : List Token) : Reader Bool := do
  match ← peek with
  | some t => return marks.contains t
  | none => return true

mutual

/-- Reads a node; `depth` bounds how deep the reading goes. Block collections may stand where
`block` holds, and a sequence without an indentation of its own where `indentless` holds. -/
def read (depth : Nat) (block indentless : Bool) : Reader Node := do
  match depth with
  | 0 => failure
  | depth + 1 =>
    match ← peek with
    | some (.aliasOf name) =>
      skip
      match (← get).anchors.lookup name with
      | some n => return aliasOf n
      | none => failure
    | _ =>
      let (name, tag) ← properties
      match ← peek with
      | some .blockEntry =>
        if indentless then
          let anchor ← register name
          return sequence anchor tag (← readIndentless depth [])
        else readEmpty name tag
      | some (.scalar text plain) =>
        skip
        let anchor ← register name
        return scalar anchor tag text plain
      | some .flowSequenceStart =>
        skip
        let anchor ← register name
        return sequence anchor tag (← readFlowItems depth [])
      | some .flowMappingStart =>
        skip
        let anchor ← register name
        return mapping anchor tag (← readFlowEntries depth [])
      | some .blockSequenceStart =>
        if block then
          skip
          let anchor ← register name
          return sequence anchor tag (← readBlockItems depth [])
        else readEmpty name tag
      | some .blockMappingStart =>
        if block then
          skip
          let anchor ← register name
          return mapping anchor tag (← readBlockEntries depth [])
        else readEmpty name tag
      | _ => readEmpty name tag

def readEmpty (name : Option String) (tag : Option Tag) : Reader Node := do
  if name.isNone && tag.isNone then failure
  else return scalar (← register name) tag "" true

def readIndentless (depth : Nat) (items : List Node) : Reader (List Node) := do
  match depth with
  | 0 => failure
  | depth + 1 =>
    if ← accept .blockEntry then
      let item ←
        if ← ends [.blockEntry, .key, .value, .blockEnd] then pure empty
        else read depth true false
      readIndentless depth (item :: items)
    else return items.reverse

def readBlockItems (depth : Nat) (items : List Node) : Reader (List Node) := do
  match depth with
  | 0 => failure
  | depth + 1 =>
    if ← accept .blockEntry then
      let item ← if ← ends [.blockEntry, .blockEnd] then pure empty else read depth true false
      readBlockItems depth (item :: items)
    else
      expect .blockEnd
      return items.reverse

def readBlockEntries (depth : Nat) (entries : List (Node × Node)) :
    Reader (List (Node × Node)) := do
  match depth with
  | 0 => failure
  | depth + 1 =>
    if ← accept .key then
      let key ← if ← ends [.key, .value, .blockEnd] then pure empty else read depth true true
      let value ←
        if ← accept .value then
          if ← ends [.key, .value, .blockEnd] then pure empty else read depth true true
        else pure empty
      readBlockEntries depth ((key, value) :: entries)
    else
      expect .blockEnd
      return entries.reverse

def readFlowItems (depth : Nat) (items : List Node) : Reader (List Node) := do
  match depth with
  | 0 => failure
  | depth + 1 =>
    if ← accept .flowSequenceEnd then return items.reverse
    if !items.isEmpty then expect .flowEntry
    if ← accept .flowSequenceEnd then return items.reverse
    if ← accept .key then
      let key ←
        if ← ends [.value, .flowEntry, .flowSequenceEnd] then do
          skip
          pure empty
        else read depth false false
      let value ←
        if ← accept .value then
          if ← ends [.flowEntry, .flowSequenceEnd] then pure empty else read depth false false
        else pure empty
      readFlowItems depth (mapping none none [(key, value)] :: items)
    else
      let item ← read depth false false
      readFlowItems depth (item :: items)

def readFlowEntries (depth : Nat) (entries : List (Node × Node)) :
    Reader (List (Node × Node)) := do
  match depth with
  | 0 => failure
  | depth + 1 =>
    if ← accept .flowMappingEnd then return entries.reverse
    if !entries.isEmpty then expect .flowEntry
    if ← accept .flowMappingEnd then return entries.reverse
    if ← accept .key then
      let key ←
        if ← ends [.value, .flowEntry, .flowMappingEnd] then pure empty else read depth false false
      let value ←
        if ← accept .value then
          if ← ends [.flowEntry, .flowMappingEnd] then pure empty else read depth false false
        else pure empty
      readFlowEntries depth ((key, value) :: entries)
    else
      let key ← read depth false false
      readFlowEntries depth ((key, empty) :: entries)

end

def isDocumentMark : Option Token → Bool
  | none | some .documentStart | some .documentEnd | some (.directive _) => true
  | _ => false

def directives (fuel : Nat) (version : Bool) : Reader Unit := do
  match fuel with
  | 0 => failure
  | fuel + 1 =>
    match ← peek with
    | some (.directive (.version major minor)) =>
      if version || major ≠ 1 || (minor ≠ 1 && minor ≠ 2) then failure
      skip
      directives fuel true
    | some (.directive (.tag handle start)) =>
      if ((← get).handles.lookup handle).isSome then failure
      skip
      modify fun i => { i with handles := i.handles ++ [(handle, start)] }
      directives fuel version
    | _ => return ()

def commonHandles : List (String × List UInt8) :=
  [("!", Tag.asciiBytes ['!']), ("!!", Tag.coreStart)]

def addCommonHandles : Reader Unit :=
  modify fun i => { i with handles := i.handles ++ commonHandles }

def root (depth : Nat) : Reader Node := do
  match ← peek with
  | none => return empty
  | some (.directive _) | some .documentStart =>
    directives depth false
    addCommonHandles
    expect .documentStart
    if isDocumentMark (← peek) then return empty
    read depth true false
  | _ =>
    addCommonHandles
    read depth true false

def ofTokens? (ts : List Token) : Option Node := do
  let (node, i) ← (root (2 * ts.length + 2)).run ⟨ts, [], []⟩
  if i.tokens.all (· = .documentEnd) then return node else none

def ofText? (s : String) : Option Node := Token.scan? s.toList >>= ofTokens?

mutual

def size : Node → Nat
  | scalar _ _ _ _ => 1
  | aliasOf _ => 1
  | sequence _ _ items => sizes items + 2
  | mapping _ _ entries => entrySizes entries + 2

def sizes : List Node → Nat
  | [] => 0
  | x :: xs => size x + sizes xs

def entrySizes : List (Node × Node) → Nat
  | [] => 0
  | (k, x) :: es => size k + size x + entrySizes es

end

def anchor? : Node → Option Nat
  | scalar a _ _ _ => a
  | sequence a _ _ => a
  | mapping a _ _ => a
  | aliasOf _ => none

def numbered (node : Node) (others : List (Nat × Node)) : List (Nat × Node) :=
  match node.anchor? with
  | some n => (n, node) :: others
  | none => others

mutual

def anchored : Node → List (Nat × Node)
  | sequence a t items => (sequence a t items).numbered (anchoredItems items)
  | mapping a t entries => (mapping a t entries).numbered (anchoredEntries entries)
  | node => node.numbered []

def anchoredItems : List Node → List (Nat × Node)
  | [] => []
  | x :: xs => anchored x ++ anchoredItems xs

def anchoredEntries : List (Node × Node) → List (Nat × Node)
  | [] => []
  | (k, x) :: es => anchored k ++ (anchored x ++ anchoredEntries es)

end

end Node

end ApiLint.Yaml
