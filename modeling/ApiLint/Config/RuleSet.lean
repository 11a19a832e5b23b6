import ApiLint.Json.Value

/-!
# Rule sets

What a configuration says about rules: `false`, `true`, or a primary value, with options or without.
The settings stand in the order in which the rules run, and setting a rule again keeps its place.
-/

namespace ApiLint

open Json

inductive Setting where
  | disabled
  | enabled
  | custom (primary : String) (options : Option Members)

inductive SettingError where
  | notBoolOrArray (found : Value)
  | emptyArray
  | primaryNotText (found : Value)
  | optionsNotObject (found : Value)
  | tooManyItems

def SettingError.message : SettingError → String
  | notBoolOrArray v => "a rule setting must be a boolean or an array, got " ++ v.text
  | emptyArray => "a rule setting array cannot be empty"
  | primaryNotText v => "the first element of a rule setting must be a string, got " ++ v.text
  | optionsNotObject v => "the second element of a rule setting must be an object, got " ++ v.text
  | tooManyItems => "a rule setting array has at most two elements"

namespace Setting

def isEnabled : Setting → Bool
  | disabled => false
  | _ => true

def isCustom : Setting → Bool
  | custom _ _ => true
  | _ => false

def primary? : Setting → Option String
  | custom primary _ => some primary
  | _ => none

def options? : Setting → Option Members
  | custom _ options => options
  | _ => none

def option? (s : Setting) (key : String) : Option Value := s.options? >>= (·.get? key)

def textsOption (s : Setting) (key : String) : List String :=
  match s.option? key >>= Value.items? with
  | some items => items.filterMap Value.string?
  | none => []

def withOptions (options : Members) : Setting → Setting
  | custom primary _ => custom primary (some options)
  | s => s

def toValue : Setting → Value
  | disabled => .bool false
  | enabled => .bool true
  | custom primary none => .array [.string primary]
  | custom primary (some options) => .array [.string primary, .object options]

def ofValue? : Value → Except SettingError Setting
  | .bool true => .ok enabled
  | .bool false => .ok disabled
  | .array [] => .error .emptyArray
  | .array [.string primary] => .ok (custom primary none)
  | .array [.string primary, .object options] => .ok (custom primary (some options))
  | .array (.string _ :: .object _ :: _ :: _) => .error .tooManyItems
  | .array (.string _ :: v :: _) => .error (.optionsNotObject v)
  | .array (v :: _) => .error (.primaryNotText v)
  | v => .error (.notBoolOrArray v)

theorem ofValue?_toValue (s : Setting) : ofValue? s.toValue = .ok s := by
  rcases s with _ | _ | ⟨primary, _ | options⟩ <;> rfl

end Setting

structure RuleSet where
  entries : List (String × Setting)

structure RuleSetError where
  rule : String
  reason : SettingError

def RuleSetError.message (e : RuleSetError) : String :=
  "rule '" ++ e.rule ++ "': " ++ e.reason.message

namespace RuleSet

def empty : RuleSet := ⟨[]⟩

def setEntry (name : String) (s : Setting) : List (String × Setting) → List (String × Setting)
  | [] => [(name, s)]
  | (n, t) :: es => if n = name then (n, s) :: es else (n, t) :: setEntry name s es

def set (rs : RuleSet) (name : String) (s : Setting) : RuleSet := ⟨setEntry name s rs.entries⟩

def get? (rs : RuleSet) (name : String) : Option Setting := rs.entries.lookup name

def names (rs : RuleSet) : List String := rs.entries.map (·.1)

def size (rs : RuleSet) : Nat := rs.entries.length

def ofList (entries : List (String × Setting)) : RuleSet :=
  entries.foldl (fun rs e => rs.set e.1 e.2) empty

def merge (rs other : RuleSet) : RuleSet := other.entries.foldl (fun rs e => rs.set e.1 e.2) rs

def toMembers (rs : RuleSet) : Members := rs.entries.map fun e => (e.1, e.2.toValue)

def entryOf? (m : String × Value) : Except RuleSetError (String × Setting) :=
  match Setting.ofValue? m.2 with
  | .ok s => .ok (m.1, s)
  | .error reason => .error ⟨m.1, reason⟩

def ofMembers? (ms : Members) : Except RuleSetError RuleSet := (ms.mapM entryOf?).map RuleSet.mk

theorem names_setEntry (name : String) (s : Setting) (es : List (String × Setting)) :
    (setEntry name s es).map (·.1) =
      if name ∈ es.map (·.1) then es.map (·.1) else es.map (·.1) ++ [name] := by
  induction es with
  | nil => simp [setEntry]
  | cons e es ih =>
    obtain ⟨n, t⟩ := e
    by_cases h : n = name
    · simp [setEntry, h]
    · simp only [setEntry, h, if_false, List.map_cons, ih, List.mem_cons, Ne.symm h, false_or]
      split <;> simp

theorem lookup_cons_eq (name key : String) (s : Setting) (es : List (String × Setting)) :
    List.lookup key ((name, s) :: es) = if key = name then some s else List.lookup key es := by
  by_cases h : key = name
  · simp [h]
  · have : (key == name) = false := by simpa using h
    simp [List.lookup_cons, this, h]

theorem lookup_setEntry (name other : String) (s : Setting) (es : List (String × Setting)) :
    (setEntry name s es).lookup other = if other = name then some s else es.lookup other := by
  induction es with
  | nil => rw [setEntry, lookup_cons_eq]
  | cons e es ih =>
    obtain ⟨n, t⟩ := e
    rw [setEntry]
    split
    case isTrue h =>
      subst h
      rw [lookup_cons_eq, lookup_cons_eq]
      by_cases ho : other = n <;> simp [ho]
    case isFalse h =>
      rw [lookup_cons_eq, lookup_cons_eq, ih]
      by_cases ho : other = n
      · subst ho; simp [h]
      · simp [ho]

end RuleSet

end ApiLint
