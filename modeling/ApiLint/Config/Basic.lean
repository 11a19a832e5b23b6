import ApiLint.Config.Ignore
import ApiLint.Config.RuleSet
import ApiLint.Json.Syntax

/-!
# Configurations

The files that a configuration extends, the settings of the rules and the ignore lists, with the
JSON value that stands for them, and with what is expected at each part of their text. Only the
ignore lists are closed.
-/

namespace ApiLint

open Json

structure Config where
  bases : List String
  rules : RuleSet
  ignore : Ignore

namespace Config

def empty : Config := ⟨[], .empty, .empty⟩

def merge (c d : Config) : Config :=
  ⟨c.bases, c.rules.merge d.rules, c.ignore.merge d.ignore⟩

def toValue (c : Config) : Value :=
  .object (Ignore.listMember "extends" c.bases ++
    [("rules", .object c.rules.toMembers), ("ignore", c.ignore.toValue)])

def fields : Decode.Fields where
  type := "struct SwaggerlintConfig"
  names := ["extends", "rules", "ignore"]
  required := 0
  closed := false

def rulesOf? (v : Value) : Except (DecodeError RuleSetError) RuleSet := do
  match RuleSet.ofMembers? (← Decode.members v) with
  | .ok rules => .ok rules
  | .error e => .error (.invalid e)

def setField (c : Config) (key : String) (v : Value) :
    Except (DecodeError RuleSetError) Config :=
  match key with
  | "extends" => return { c with bases := ← Decode.texts v }
  | "rules" => return { c with rules := ← rulesOf? v }
  | "ignore" => return { c with ignore := ← Ignore.ofValue? v }
  | _ => return c

def ofValue? (v : Value) : Except (DecodeError RuleSetError) Config :=
  Decode.record fields empty setField v

end Config

def Ignore.layout : Layout :=
  .record
    [("definitions", .texts), ("paths", .texts),
      ("components", .record (OpenApi.Section.all.map fun s => (s.key, .texts)) true)] true

def Config.layout : Layout :=
  .record [("extends", .texts), ("rules", .map), ("ignore", Ignore.layout)] false

end ApiLint
