import ApiLint.Proofs.Dialects.Ignored
import ApiLint.Proofs.Walk.Order

/-!
# The order of the records in both dialects

In either dialect no reference is followed from the objects at the top of a document, so what is
reached is reached from the paths.
-/

namespace ApiLint

open Json Walk Grammar

theorem inOrder_recorded {document : Value} (hd : document.Distinct) :
    (∀ vs, Swagger.grammar.walk document = .ok vs → Swagger.grammar.InOrder document vs) ∧
    (∀ vs, OpenApi.grammar.walk document = .ok vs → OpenApi.grammar.InOrder document vs) := by
  constructor
  case left =>
    intro vs h
    exact inOrder_walk Swagger.separated hd (fun _ => Swagger.quiet.references trivial) h
  case right =>
    intro vs h
    exact inOrder_walk OpenApi.separated hd (fun _ => OpenApi.quiet.references trivial) h

def twoParameters (container : String) : Value :=
  .object [("limit", .object []), ("offset", pointer (container ++ "/offset"))]

def paged : Value :=
  .object [("paths", .object [("/pets/", .object [("parameters",
      .array [pointer "#/parameters/offset", pointer "#/components/parameters/offset"])])]),
    ("parameters", twoParameters "#/parameters"),
    ("components", .object [("parameters", twoParameters "#/components/parameters")])]

theorem inOrder_recorded_paged : paged.Distinct ∧
    (∃ vs, Swagger.grammar.walk paged = .ok vs ∧ Swagger.grammar.InOrder paged vs) ∧
    (∃ vs, OpenApi.grammar.walk paged = .ok vs ∧ OpenApi.grammar.InOrder paged vs) := by
  have hd : paged.Distinct := by simp [paged, twoParameters, pointer, Members.keys]
  obtain ⟨hswagger, hopenApi⟩ := inOrder_recorded hd
  refine ⟨hd, ?swagger, ?openApi⟩
  case swagger =>
    obtain ⟨vs, h⟩ : ∃ vs, Swagger.grammar.walk paged = .ok vs := by
      refine exists_walk_of_isOk Swagger.separated.sections hd ?_
      cbv
    exact ⟨vs, h, hswagger vs h⟩
  case openApi =>
    obtain ⟨vs, h⟩ : ∃ vs, OpenApi.grammar.walk paged = .ok vs := by
      refine exists_walk_of_isOk OpenApi.separated.sections hd ?_
      cbv
    exact ⟨vs, h, hopenApi vs h⟩

end ApiLint
