import ApiLint.Json.Syntax
import ApiLint.Yaml.Node
import ApiLint.Yaml.Scalar

/-!
# Values of YAML text

The value that a node stands for, or stands for where a layout is expected. Keys are text, in their
own spelling. Collections may be nested to a limit, and aliases may be followed as often as a
hundred times the size of the text.
-/

namespace ApiLint.Yaml

open Json

namespace Node

/-- The nodes that aliases stand for; of those with one number, the last comes first. -/
abbrev Targets := List (Nat × Node)

abbrev Follow (A : Type) := StateT Nat Option A

def target (targets : Targets) : Node → Follow Node
  | aliasOf n => do
    match ← get, targets.lookup n with
    | left + 1, some node =>
      set left
      return node
    | _, _ => failure
  | node => return node

def depthLimit : Nat := 128

def followsPerPart : Nat := 100

def keyText (targets : Targets) (node : Node) : Follow String := do
  match ← target targets node with
  | scalar _ _ text _ => return text
  | _ => failure

def value (targets : Targets) (depth : Nat) (node : Node) : Follow Value := do
  match depth, ← target targets node with
  | _, scalar _ tag text plain => (Scalar.value? tag text plain : Option Value)
  | depth + 1, sequence _ tag items =>
    if tag.any Tag.isOwn then failure
    return .array (← items.mapM (value targets depth))
  | depth + 1, mapping _ tag entries =>
    if tag.any Tag.isOwn then failure
    let members ← entries.mapM fun e => do
      let key ← keyText targets e.1
      return (key, ← value targets depth e.2)
    return .object (Members.ofList members)
  | _, _ => failure

def isEmptyScalar : Node → Bool
  | scalar _ _ text plain => plain && text.isEmpty
  | _ => false

def valueAs (targets : Targets) (depth : Nat) (layout : Layout) (node : Node) : Follow Value := do
  match layout with
  | .any => value targets depth node
  | .text => return .string (← keyText targets node)
  | .texts =>
    let node ← target targets node
    if node.isEmptyScalar then return .array []
    match depth, node with
    | _ + 1, sequence _ _ items =>
      return .array (← items.mapM fun item => do return .string (← keyText targets item))
    | _, _ => failure
  | .map =>
    let node ← target targets node
    if node.isEmptyScalar then return .object []
    match depth, node with
    | depth + 1, mapping _ _ entries =>
      let members ← entries.mapM fun e => do
        let key ← keyText targets e.1
        return (key, ← value targets depth e.2)
      return .object (Members.ofList members)
    | _, _ => failure
  | .record fields closed =>
    let node ← target targets node
    if node.isEmptyScalar then return .object []
    match depth, node with
    | depth + 1, mapping _ _ entries =>
      let members ← entries.foldlM (fun (members : Members) e => do
        let key ← keyText targets e.1
        match Layout.field? fields key with
        | some layout =>
          if members.contains key then failure
          return members ++ [(key, ← valueAs targets depth layout e.2)]
        | none => if closed then failure else return members) []
      return .object members
    | _, _ => failure
termination_by depth

def follow? {A : Type} (node : Node) (read : Targets → Follow A) : Option A :=
  ((read node.anchored.reverse).run (followsPerPart * node.size)).map Prod.fst

end Node

def valueOfText? (s : String) : Option Value := do
  let node ← Node.ofText? s
  node.follow? fun targets => node.value targets Node.depthLimit

def valueOfTextAs? (layout : Layout) (s : String) : Option Value := do
  let node ← Node.ofText? s
  node.follow? fun targets => node.valueAs targets Node.depthLimit layout

end ApiLint.Yaml
