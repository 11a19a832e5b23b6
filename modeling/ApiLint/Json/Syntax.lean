import ApiLint.Json.Token

/-!
# JSON syntax trees

JSON text as a tree, before it is a value: members keep repeated names, and a string or a number may
be without a value. A tree becomes a value when all its strings and numbers have one and it is not
nested too deeply; of members with one name the last gives the value and the first the place.

A layout says what is expected at each part of a text, for readers whose text does not say by itself
what it means: any value, text, a list of texts, a map, or a record with known fields. A record that
is not closed passes over other fields, and none has a field twice.
-/

namespace ApiLint.Json

inductive Tree where
  | null
  | bool (value : Bool)
  | number (value : Option Number)
  | string (value : Option String)
  | array (items : List Tree)
  | object (members : List (Option String × Tree))
  deriving Repr

namespace Tree

/-- A container that is still open, with what it holds so far, last first. An object also has the
name of the member whose value comes next. -/
inductive Open where
  | array (items : List Tree)
  | object (members : List (Option String × Tree)) (name : Option String)

inductive State where
  | value (stack : List Open)
  | firstItem (stack : List Open)
  | firstName (stack : List Open)
  | name (members : List (Option String × Tree)) (stack : List Open)
  | colon (members : List (Option String × Tree)) (name : Option String) (stack : List Open)
  | done (tree : Tree) (stack : List Open)

def start? (t : Token) (stack : List Open) : Option State :=
  match t with
  | .openArray => some (.firstItem stack)
  | .openObject => some (.firstName stack)
  | .null => some (.done null stack)
  | .bool b => some (.done (bool b) stack)
  | .number n => some (.done (number n) stack)
  | .string s => some (.done (string s) stack)
  | _ => none

def step? : State → Token → Option State
  | .value stack, t => start? t stack
  | .firstItem stack, .closeArray => some (.done (array []) stack)
  | .firstItem stack, t => start? t (.array [] :: stack)
  | .firstName stack, .closeObject => some (.done (object []) stack)
  | .firstName stack, .string s => some (.colon [] s stack)
  | .name ms stack, .string s => some (.colon ms s stack)
  | .colon ms name stack, .colon => some (.value (.object ms name :: stack))
  | .done v (.array xs :: stack), .comma => some (.value (.array (v :: xs) :: stack))
  | .done v (.array xs :: stack), .closeArray => some (.done (array (v :: xs).reverse) stack)
  | .done v (.object ms name :: stack), .comma => some (.name ((name, v) :: ms) stack)
  | .done v (.object ms name :: stack), .closeObject =>
    some (.done (object ((name, v) :: ms).reverse) stack)
  | _, _ => none

def ofTokens? (ts : List Token) : Option Tree :=
  match ts.foldlM step? (.value []) with
  | some (.done v []) => some v
  | _ => none

def ofChars? (s : List Char) : Option Tree := Token.scan? s >>= ofTokens?

def depthLimit : Nat := 127

mutual

def value? (depth : Nat) : Tree → Option Value
  | null => some .null
  | bool b => some (.bool b)
  | number n => n.map .number
  | string s => s.map .string
  | array xs =>
    match depth with
    | 0 => none
    | depth + 1 => (values? depth xs).map .array
  | object ms =>
    match depth with
    | 0 => none
    | depth + 1 => (entries? depth ms).map fun es => .object (Members.ofList es)

def values? (depth : Nat) : List Tree → Option (List Value)
  | [] => some []
  | x :: xs => do return (← value? depth x) :: (← values? depth xs)

def entries? (depth : Nat) : List (Option String × Tree) → Option (List (String × Value))
  | [] => some []
  | (name, x) :: ms => do return ((← name), (← value? depth x)) :: (← entries? depth ms)

end

end Tree

def Value.ofText? (s : String) : Option Value :=
  Tree.ofChars? s.toList >>= Tree.value? Tree.depthLimit

inductive Layout where
  | any
  | text
  | texts
  | map
  | record (fields : List (String × Layout)) (closed : Bool)

namespace Layout

def field? : List (String × Layout) → String → Option Layout
  | [], _ => none
  | (name, layout) :: fields, key => if name = key then some layout else field? fields key

end Layout

namespace Tree

mutual

/-- The value of a tree with at most `depth` nested containers where a layout is expected. A record
may also be an array of its fields. -/
def valueAs? (depth : Nat) (layout : Layout) : Tree → Option Value
  | object ms =>
    match layout, depth with
    | .record fields closed, depth + 1 => (fieldsAs? depth fields closed [] ms).map .object
    | .record _ _, 0 => none
    | _, depth => value? depth (object ms)
  | array xs =>
    match layout, depth with
    | .record fields _, depth + 1 => (itemsAs? depth fields xs).map .array
    | .record _ _, 0 => none
    | _, depth => value? depth (array xs)
  | t => value? depth t

def fieldsAs? (depth : Nat) (fields : List (String × Layout)) (closed : Bool) (seen : List String) :
    List (Option String × Tree) → Option Members
  | [] => some []
  | (name, x) :: ms => do
    let key ← name
    match Layout.field? fields key with
    | some layout =>
      if seen.contains key then none
      else
        let v ← valueAs? depth layout x
        return (key, v) :: (← fieldsAs? depth fields closed (key :: seen) ms)
    | none => if closed then none else fieldsAs? depth fields closed seen ms

def itemsAs? (depth : Nat) : List (String × Layout) → List Tree → Option (List Value)
  | _, [] => some []
  | (_, layout) :: fields, x :: xs => do
    return (← valueAs? depth layout x) :: (← itemsAs? depth fields xs)
  | [], _ :: _ => none

end

end Tree

def Value.ofTextAs? (layout : Layout) (s : String) : Option Value :=
  Tree.ofChars? s.toList >>= Tree.valueAs? Tree.depthLimit layout

end ApiLint.Json
