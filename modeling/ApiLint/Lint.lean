import ApiLint.Document.Filter
import ApiLint.OpenApi.Grammar
import ApiLint.Rule.Registry
import ApiLint.Swagger.Grammar

/-!
# Linting documents

A lint run detects the dialect, takes out what is ignored, walks the document, and lets the
configured rules look at the visits, one rule after the other. All rules add to one list of
findings.
-/

namespace ApiLint

open Json Walk

variable {K : Type}

inductive Walked where
  | swagger (visits : List (Visit Swagger.Kind))
  | openApi (visits : List (Visit OpenApi.Kind))

namespace Walked

def ofDocument? (dialect : Dialect) (document : Value) : Except ShapeError Walked :=
  match dialect with
  | .swagger => (Swagger.grammar.walk document).map swagger
  | .openApi => (OpenApi.grammar.walk document).map openApi

def ofKind [DecidableEq K] (visits : List (Visit K)) (kind : K) : List (Visit K) :=
  visits.filter fun v => v.kind = kind

end Walked

namespace Subscription

def reports [DecidableEq K] (s : Subscription K) (setting : Setting) (visits : List (Visit K)) :
    List Report :=
  s.kinds.flatMap fun kind =>
    (Walked.ofKind visits kind).flatMap fun v => s.check kind setting v.location v.node

end Subscription

namespace Rule

def reports (r : Rule) (setting : Setting) : Walked → List Report
  | .swagger visits => r.swagger.reports setting visits
  | .openApi visits => r.openApi.reports setting visits

end Rule

structure Tally where
  findings : List Finding
  enabled : Nat

namespace Tally

def empty : Tally := ⟨[], 0⟩

def report (t : Tally) (found : List Finding) : Tally := ⟨t.findings ++ found, t.enabled⟩

def enable (t : Tally) : Tally := ⟨t.findings, t.enabled + 1⟩

end Tally

structure Linter where
  config : Config
  defaults : RuleSet
  registry : Registry

namespace Linter

def unsupportedDocument : String :=
  "You have provided a schema that is neither Swagger 2.0 nor OpenAPI 3.x. Make sure it has a " ++
    "valid `swagger: \"2.0\"` or `openapi: \"3.x.x\"` field and the required `info` and `paths` " ++
    "objects."

def noEnabledRules : String :=
  "Found 0 enabled rules. Swaggerlint requires at least one rule enabled."

def invalidSetting : String := "Invalid rule setting."

def unknownRule (name : String) : String := "Rule \"" ++ name ++ "\" does not exist."

/-- The setting that an enabled rule runs with: that of the project, if it is a custom one, else
that of the rule, if it has one. -/
def defaultSetting (defaults : RuleSet) (r : Rule) : Setting :=
  match defaults.get? r.name with
  | some (.custom primary options) => .custom primary options
  | _ => r.default.getD .enabled

def setting? (defaults : RuleSet) (r : Rule) : Setting → Option Setting
  | .disabled => none
  | .enabled => some (defaultSetting defaults r)
  | .custom primary options => some (.custom primary options)

def step (l : Linter) (walked : Walked) (t : Tally) (entry : String × Setting) : Tally :=
  match l.registry.get? entry.1 with
  | none => t.report [.core (unknownRule entry.1)]
  | some r =>
    match setting? l.defaults r entry.2 with
    | none => t
    | some setting =>
      if r.accepts setting then t.enable.report ((r.reports setting walked).map r.finding)
      else t.enable.report [.plain entry.1 invalidSetting .root]

def run (l : Linter) (walked : Walked) : List Finding :=
  let t := l.config.rules.entries.foldl (l.step walked) .empty
  if t.enabled = 0 then (t.report [.core noEnabledRules]).findings else t.findings

def lint (l : Linter) (document : Value) : List Finding :=
  match Dialect.detect? document with
  | none => [.core unsupportedDocument]
  | some dialect =>
    match Walked.ofDocument? dialect (l.config.ignore.filter dialect document) with
    | .error e => [.walker e.message]
    | .ok walked => l.run walked

end Linter

end ApiLint
