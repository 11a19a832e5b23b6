import ApiLint.Document.Reference
import ApiLint.Json.Decode
import ApiLint.Json.Value
import ApiLint.Text.Pieces

/-!
# Findings

What a lint run reports: who reports it, a message, and a place in the document. A message made from
a template also has the template's identifier and its data: the template names its values between
double braces, and they are put in one after the other, a text as it is and any other value as its
JSON text. As a JSON value a finding leaves out what it does not have.
-/

namespace ApiLint

open Json

namespace Template

def placeholder (key : String) : List Char :=
  '\x7b' :: '\x7b' :: (key.toList ++ ['\x7d', '\x7d'])

def insertion : Value → List Char
  | .string s => s.toList
  | v => v.chars

def renderChars (template : List Char) (data : Members) : List Char :=
  data.foldl (fun s m => Text.replace (placeholder m.1) (insertion m.2) s) template

def render (template : String) (data : Members) : String :=
  String.ofList (renderChars template.toList data)

end Template

structure Finding where
  name : String
  message : String
  location : Location
  messageId : Option String
  data : Option Members

namespace Finding

def coreName : String := "swaggerlint-core"

def walkerName : String := "swaggerlint-walker"

def plain (name message : String) (location : Location) : Finding :=
  ⟨name, message, location, none, none⟩

def core (message : String) : Finding := plain coreName message .root

def walker (message : String) : Finding := plain walkerName message .root

def isCore (f : Finding) : Bool := f.name == coreName

def optionalMember {A : Type} (key : String) (toValue : A → Value) : Option A → Members
  | some a => [(key, toValue a)]
  | none => []

def toValue (f : Finding) : Value :=
  .object ([("name", .string f.name), ("msg", .string f.message),
      ("location", .ofTexts f.location.segments)] ++
    optionalMember "messageId" .string f.messageId ++ optionalMember "data" .object f.data)

def fields : Decode.Fields where
  type := "struct LintError"
  names := ["name", "msg", "location", "messageId", "data"]
  required := 3
  closed := false

def setField (f : Finding) (key : String) (v : Value) : Except (DecodeError Empty) Finding :=
  match key with
  | "name" => return { f with name := ← Decode.text v }
  | "msg" => return { f with message := ← Decode.text v }
  | "location" => return { f with location := ⟨← Decode.texts v⟩ }
  | "messageId" => return { f with messageId := ← Decode.optional Decode.text v }
  | "data" => return { f with data := ← Decode.optional Decode.members v }
  | _ => return f

def ofValue? (v : Value) : Except (DecodeError Empty) Finding :=
  Decode.record fields (plain "" "" .root) setField v

end Finding

end ApiLint
