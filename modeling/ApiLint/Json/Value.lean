import ApiLint.Json.Quoted
import ApiLint.Number.Binary64

/-!
# JSON values

JSON values and their compact text: no blanks, members in order, and only what must be escaped is.
An object keeps its members in the order they were written; that they have distinct names is a
property of the objects that readers build, not of the type.
-/

namespace ApiLint.Json

inductive Number where
  | int (value : Int)
  | float (value : Binary64)
  deriving DecidableEq, Repr

inductive Value where
  | null
  | bool (value : Bool)
  | number (value : Number)
  | string (value : String)
  | array (items : List Value)
  | object (members : List (String × Value))
  deriving Repr, Inhabited

abbrev Members := List (String × Value)

namespace Members

def get? (ms : Members) (key : String) : Option Value := List.lookup key ms

def contains (ms : Members) (key : String) : Bool := (ms.get? key).isSome

def keys (ms : Members) : List String := ms.map (·.1)

/-- Gives `key` a value where it stands, or at the end if it is new. -/
def insert : Members → String → Value → Members
  | [], key, v => [(key, v)]
  | (k, w) :: ms, key, v => if k = key then (k, v) :: ms else (k, w) :: insert ms key v

def ofList (entries : List (String × Value)) : Members :=
  entries.foldl (fun ms (key, v) => ms.insert key v) []

@[simp] theorem get?_nil (key : String) : get? [] key = none := rfl

theorem get?_cons (k key : String) (v : Value) (ms : Members) :
    get? ((k, v) :: ms) key = if key == k then some v else get? ms key := by
  unfold get?; rw [List.lookup_cons]; cases key == k <;> rfl

theorem mem_of_get? {ms : Members} {key : String} {v : Value} (h : ms.get? key = some v) :
    (key, v) ∈ ms := by
  induction ms with
  | nil => simp at h
  | cons m ms ih =>
    obtain ⟨k, w⟩ := m
    rw [get?_cons] at h
    split at h
    case isTrue hk =>
      obtain rfl := eq_of_beq hk
      obtain rfl := Option.some.inj h
      exact List.mem_cons_self
    case isFalse => exact List.mem_cons_of_mem _ (ih h)

theorem get?_insert (ms : Members) (key : String) (v : Value) (other : String) :
    (ms.insert key v).get? other = if other = key then some v else ms.get? other := by
  induction ms with
  | nil => simp [insert, get?_cons]
  | cons m ms ih =>
    obtain ⟨k, w⟩ := m
    simp only [insert]
    split
    case isTrue hk =>
      subst hk
      rw [get?_cons, get?_cons]
      by_cases ho : other = k <;> simp [ho]
    case isFalse hk =>
      rw [get?_cons, get?_cons, ih]
      by_cases ho : other = key
      · subst ho; simp [Ne.symm hk]
      · simp [ho]

end Members

namespace Value

def members? : Value → Option Members
  | .object ms => some ms
  | _ => none

def items? : Value → Option (List Value)
  | .array xs => some xs
  | _ => none

def string? : Value → Option String
  | .string s => some s
  | _ => none

def isBool : Value → Bool
  | .bool _ => true
  | _ => false

def get? (v : Value) (key : String) : Option Value := v.members? >>= (·.get? key)

def stringAt? (v : Value) (key : String) : Option String := v.get? key >>= string?

def descend? (v : Value) (keys : List String) : Option Value := keys.foldlM get? v

def child? (v : Value) (segment : String) : Option Value :=
  match v with
  | .object ms => Members.get? ms segment
  | .array xs => xs.zipIdx.findSome? fun (x, i) => if Nat.repr i = segment then some x else none
  | _ => none

def at? (v : Value) (segments : List String) : Option Value := segments.foldlM child? v

@[simp] theorem get?_object (ms : Members) (key : String) :
    (Value.object ms).get? key = Members.get? ms key := rfl

@[simp] theorem at?_nil (v : Value) : v.at? [] = some v := rfl

theorem at?_append (v : Value) (s t : List String) : v.at? (s ++ t) = v.at? s >>= (·.at? t) := by
  simp only [at?, List.foldlM_append]

theorem sizeOf_lt_of_mem_members {v : Value} {ms : Members} (hv : v.members? = some ms)
    {key : String} {w : Value} (h : (key, w) ∈ ms) : sizeOf w < sizeOf v := by
  cases v with
  | object ns =>
    obtain rfl := Option.some.inj hv
    have := List.sizeOf_lt_of_mem h
    simp only [Prod.mk.sizeOf_spec] at this
    simp only [object.sizeOf_spec]
    omega
  | _ => simp [members?] at hv

theorem sizeOf_lt_of_mem_items {v : Value} {xs : List Value} (hv : v.items? = some xs)
    {w : Value} (h : w ∈ xs) : sizeOf w < sizeOf v := by
  cases v with
  | array ys =>
    obtain rfl := Option.some.inj hv
    have := List.sizeOf_lt_of_mem h
    simp only [array.sizeOf_spec]
    omega
  | _ => simp [items?] at hv

end Value

def Number.chars : Number → List Char
  | .int n => (toString n).toList
  | .float x => x.text

def quotedChars (s : String) : List Char := '"' :: (Quoted.encode s.toList ++ ['"'])

namespace Value

mutual

def chars : Value → List Char
  | .null => ['n', 'u', 'l', 'l']
  | .bool true => ['t', 'r', 'u', 'e']
  | .bool false => ['f', 'a', 'l', 's', 'e']
  | .number n => n.chars
  | .string s => quotedChars s
  | .array [] => ['[', ']']
  | .array (x :: xs) => '[' :: (x.chars ++ itemChars xs)
  | .object [] => ['\x7b', '\x7d']
  | .object ((k, x) :: ms) => '\x7b' :: (quotedChars k ++ ':' :: (x.chars ++ memberChars ms))

def itemChars : List Value → List Char
  | [] => [']']
  | x :: xs => ',' :: (x.chars ++ itemChars xs)

def memberChars : List (String × Value) → List Char
  | [] => ['\x7d']
  | (k, x) :: ms => ',' :: (quotedChars k ++ ':' :: (x.chars ++ memberChars ms))

end

def text (v : Value) : String := String.ofList v.chars

end Value

end ApiLint.Json
