import ApiLint.Proofs.Document.Pruning
import ApiLint.Proofs.Lint.Isolation

/-!
# Linting what is left of a document

A lint run looks at a document only as it is without its ignored members. So what it finds does not
depend on what these are, on where they stand, or on whether there are any.
-/

namespace ApiLint

open Json Walk Ignore

namespace Linter

def findings (l : Linter) (dialect : Dialect) (left : Value) : List Finding :=
  match Walked.ofDocument? dialect left with
  | .error e => [.walker e.message]
  | .ok walked => l.run walked

theorem lint_eq_findings (l : Linter) {d : Value} {dialect : Dialect} (hd : d.Distinct)
    (h : Dialect.detect? d = some dialect) :
    l.lint d = l.findings dialect (l.config.ignore.prune dialect d) := by
  rw [lint, h, ← filter_eq_prune l.config.ignore dialect hd]
  rfl

theorem lint_eq_of_prune_eq (l : Linter) {d d' : Value} {dialect : Dialect} (hd : d.Distinct)
    (hd' : d'.Distinct) (h : Dialect.detect? d = some dialect)
    (heq : l.config.ignore.prune dialect d = l.config.ignore.prune dialect d') :
    l.lint d = l.lint d' := by
  have h' : Dialect.detect? d' = some dialect := by
    rw [← Dialect.detect?_prune l.config.ignore dialect, ← heq, Dialect.detect?_prune, h]
  rw [l.lint_eq_findings hd h, l.lint_eq_findings hd' h', heq]

def brokenPetStore : Value :=
  .object [("swagger", .string "2.0"), ("info", .object []),
    ("paths", .object [("/owners/", .string "closed"), ("/pets/", .object [])]),
    ("definitions", .object [("Owner", .array []), ("Pet", petSchema)]),
    ("components", .object [("schemas", petSchemas "#/components/schemas")])]

theorem distinct_brokenPetStore : brokenPetStore.Distinct := by
  simp [brokenPetStore, petSchemas, petSchema, pointer, Members.keys]

theorem lint_eq_of_prune_eq_petStore : petStore.Distinct ∧ brokenPetStore.Distinct ∧
    Dialect.detect? petStore = some .swagger ∧
    noOwners.prune .swagger petStore = noOwners.prune .swagger brokenPetStore ∧
    (Swagger.grammar.walk brokenPetStore).isOk = false ∧
    petLinter.lint petStore = petLinter.lint brokenPetStore := by
  have hbroken : noOwners.filter .swagger brokenPetStore = petsOnly := by cbv
  have heq : noOwners.prune .swagger petStore = noOwners.prune .swagger brokenPetStore := by
    rw [← filter_eq_prune noOwners .swagger distinct_petStore,
      ← filter_eq_prune noOwners .swagger distinct_brokenPetStore, filter_petStore, hbroken]
  have hdialect : Dialect.detect? petStore = some .swagger := by cbv
  refine ⟨distinct_petStore, distinct_brokenPetStore, hdialect, heq, ?_,
    petLinter.lint_eq_of_prune_eq distinct_petStore distinct_brokenPetStore hdialect heq⟩
  cbv

end Linter

end ApiLint
