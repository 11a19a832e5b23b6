import ApiLint.Config.RuleSet
import ApiLint.Document.Reference
import ApiLint.Finding.Basic
import ApiLint.OpenApi.Basic
import ApiLint.Swagger.Basic

/-!
# Rules

A rule subscribes, for each dialect, to kinds of nodes, and looks at each visited node of these
kinds by itself. It reports messages, or templates of its own with the data for them.
-/

namespace ApiLint

open Json

inductive Report where
  | message (location : Location) (text : String)
  | template (location : Location) (id : String) (data : Members)

/-- The kinds that a rule looks at, in that order, and what it reports about one node. -/
structure Subscription (K : Type) where
  kinds : List K
  check : K → Setting → Location → Value → List Report

def Subscription.none {K : Type} : Subscription K := ⟨[], fun _ _ _ _ => []⟩

def Subscription.of {K : Type} (kinds : List K) (check : Setting → Location → Value → List Report) :
    Subscription K := ⟨kinds, fun _ => check⟩

structure Rule where
  name : String
  description : String
  default : Option Setting := .none
  accepts : Setting → Bool := fun _ => true
  messages : List (String × String) := []
  swagger : Subscription Swagger.Kind := .none
  openApi : Subscription OpenApi.Kind := .none

namespace Rule

def templateText (r : Rule) (id : String) (data : Members) : String :=
  match r.messages.lookup id with
  | some template => Template.render template data
  | none => id

def finding (r : Rule) : Report → Finding
  | .message location text => .plain r.name text location
  | .template location id data => ⟨r.name, r.templateText id data, location, some id, some data⟩

@[simp] theorem name_finding (r : Rule) (p : Report) : (r.finding p).name = r.name := by
  cases p <;> rfl

end Rule

end ApiLint
