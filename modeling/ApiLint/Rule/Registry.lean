import ApiLint.Config.Basic
import ApiLint.Rule.Basic
import ApiLint.Rule.ExpressivePathSummary
import ApiLint.Rule.LatinDefinitionsOnly
import ApiLint.Rule.NoExternalRefs
import ApiLint.Rule.NoTrailingSlash
import ApiLint.Rule.ObjectPropCasing
import ApiLint.Rule.RequiredOperationTags
import ApiLint.Rule.RequiredTagDescription

/-!
# Registries

The rules that can be configured. A rule that is registered takes the place at the end, and any rule
of the same name is dropped. Every linter has the built-in rules, and the default configuration
enables them all.
-/

namespace ApiLint

structure Registry where
  rules : List Rule

namespace Registry

def empty : Registry := ⟨[]⟩

def register (g : Registry) (r : Rule) : Registry :=
  ⟨g.rules.filter (fun other => other.name ≠ r.name) ++ [r]⟩

def get? (g : Registry) (name : String) : Option Rule := g.rules.find? fun r => r.name = name

def names (g : Registry) : List String := g.rules.map Rule.name

def size (g : Registry) : Nat := g.rules.length

theorem names_register (g : Registry) (r : Rule) :
    (g.register r).names = g.names.filter (· ≠ r.name) ++ [r.name] := by
  simp [names, register, List.filter_map, Function.comp_def]

theorem name_of_get? {g : Registry} {name : String} {r : Rule} (h : g.get? name = some r) :
    r.name = name := by
  simpa using List.find?_some h

end Registry

def Registry.builtin : Registry :=
  ⟨[Rule.expressivePathSummary, Rule.latinDefinitionsOnly, Rule.noExternalRefs,
    Rule.noTrailingSlash, Rule.objectPropCasing, Rule.requiredOperationTags,
    Rule.requiredTagDescription]⟩

def Config.default : Config :=
  ⟨[], .ofList (Registry.builtin.rules.map fun r => (r.name, r.default.getD .enabled)), .empty⟩

theorem Registry.nodup_names_builtin : Registry.builtin.names.Nodup := by decide

end ApiLint
