import ApiLint.Json.Value
import ApiLint.Text.Shown

/-!
# Decoding values

Reading domain types from JSON values. A record is an object or, in the order of its fields, an
array. The parts of a record are read in the order in which they stand, and the first that cannot be
read is the error.
-/

namespace ApiLint.Json

/-- Why a value is not what was wanted; `E` has the reasons of the domain. -/
inductive DecodeError (E : Type) where
  | wrongType (found : Value) (wanted : String)
  | unknownField (name : String) (known : List String)
  | missingField (name : String)
  | tooShort (length : Nat) (wanted : String) (fields : Nat)
  | tooLong (length : Nat)
  | invalid (reason : E)

namespace Value

def describe : Value → String
  | .null => "null"
  | .bool b => if b then "boolean `true`" else "boolean `false`"
  | .number (.int n) => "integer `" ++ toString n ++ "`"
  | .number (.float x) => "floating point `" ++ String.ofList x.text ++ "`"
  | .string s => "string " ++ Text.shown s
  | .array _ => "sequence"
  | .object _ => "map"

end Value

def backquoted (s : String) : String := "`" ++ s ++ "`"

def DecodeError.message {E : Type} (reason : E → String) : DecodeError E → String
  | wrongType found wanted => "invalid type: " ++ found.describe ++ ", expected " ++ wanted
  | unknownField name known =>
    "unknown field " ++ backquoted name ++ ", expected one of " ++
      ", ".intercalate (known.map backquoted)
  | missingField name => "missing field " ++ backquoted name
  | tooShort length wanted fields =>
    "invalid length " ++ toString length ++ ", expected " ++ wanted ++ " with " ++
      toString fields ++ " elements"
  | tooLong length =>
    "invalid length " ++ toString length ++ ", expected fewer elements in array"
  | invalid e => reason e

namespace Decode

variable {E R : Type}

def text : Value → Except (DecodeError E) String
  | .string s => .ok s
  | v => .error (.wrongType v "a string")

def texts : Value → Except (DecodeError E) (List String)
  | .array xs => xs.mapM text
  | v => .error (.wrongType v "a sequence")

def members : Value → Except (DecodeError E) Members
  | .object ms => .ok ms
  | v => .error (.wrongType v "a map")

def optional (decode : Value → Except (DecodeError E) R) :
    Value → Except (DecodeError E) (Option R)
  | .null => .ok none
  | v => (decode v).map some

/-- The fields of a record: the first `required` ones have no default, and a closed record has no
other fields. -/
structure Fields where
  type : String
  names : List String
  required : Nat
  closed : Bool

def record (fields : Fields) (default : R)
    (set : R → String → Value → Except (DecodeError E) R) (v : Value) :
    Except (DecodeError E) R :=
  match v with
  | .object ms => do
    let r ← ms.foldlM (fun r m =>
      if fields.names.contains m.1 then set r m.1 m.2
      else if fields.closed then .error (.unknownField m.1 fields.names)
      else .ok r) default
    match (fields.names.take fields.required).find? fun name => !Members.contains ms name with
    | some name => .error (.missingField name)
    | none => .ok r
  | .array xs => do
    let r ← (fields.names.zip xs).foldlM (fun r m => set r m.1 m.2) default
    if xs.length < fields.required then
      .error (.tooShort xs.length fields.type fields.names.length)
    else if fields.names.length < xs.length then .error (.tooLong xs.length)
    else .ok r
  | v => .error (.wrongType v fields.type)

end Decode

def Value.ofTexts (xs : List String) : Value := .array (xs.map .string)

theorem Decode.texts_ofTexts {E : Type} (xs : List String) :
    Decode.texts (Value.ofTexts xs) = (.ok xs : Except (DecodeError E) (List String)) := by
  simp only [Value.ofTexts, Decode.texts]
  induction xs with
  | nil => rfl
  | cons x xs ih => simp only [List.map_cons, List.mapM_cons, ih]; rfl

end ApiLint.Json
