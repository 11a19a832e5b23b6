import ApiLint.Proofs.Lint.Places
import ApiLint.Proofs.Walk.Failures

/-!
# Failures of a lint run

A lint run walks the document without its ignored members, and its error is about what is left. It
is true of the whole document too, for what holds less has no other shape, and it is never about an
ignored member or about what is below one: none of them is left to lead through.
-/

namespace ApiLint

open Json Walk Grammar Ignore

variable {i : Ignore} {dialect : Dialect} {document : Value} {e : ShapeError}

namespace Walk.ShapeError

theorem Truthful.of_without {container names : List String}
    (h : e.Truthful (document.without container names)) : e.Truthful document := by
  obtain ⟨v, hv, hfits⟩ := h
  obtain ⟨w, hw, rfl | ⟨rest, rfl⟩⟩ := (Value.trimmed_without container names document).at? hv
  · exact ⟨_, hw, hfits⟩
  · exact ⟨w, hw, by rwa [Shape.fits_without] at hfits⟩

theorem Truthful.of_withoutAll {ls : List (List String × List String)}
    (h : e.Truthful (withoutAll ls document)) : e.Truthful document := by
  induction ls generalizing document with
  | nil => exact h
  | cons l ls ih => exact (ih h).of_without

theorem Truthful.of_filter (h : e.Truthful (i.filter dialect document)) : e.Truthful document := by
  rcases i.filter_eq_or dialect document with heq | heq
  · rw [heq] at h
    exact h.of_withoutAll
  · rwa [heq] at h

end Walk.ShapeError

variable {K S P : Type} {g : Grammar K S P} [DecidableEq S]

theorem not_covers_of_walk_error (hg : g.Separated) (hr : g.Rooted)
    (hls : ∀ l ∈ i.lists dialect, g.Loses l.1) (hd : document.Distinct)
    (h : g.walk (i.filter dialect document) = .error e) :
    i.covers dialect e.location = false := by
  rw [covers_eq, List.any_eq_false]
  intro l hl hcovered
  obtain ⟨name, hname, hbelow⟩ := hides_iff.1 hcovered
  have hsome := exists_member_of_walk_error hg hr (i.distinct_filter dialect hd) h (hls l hl) hbelow
  have hany := hasAny_iff.2 ⟨name, hname, hsome⟩
  rw [filter_eq i dialect hd, not_hasAny_withoutAll l hl] at hany
  cases hany

theorem truthful_of_walk_filter (hg : g.Separated) (hr : g.Rooted)
    (hls : ∀ l ∈ i.lists dialect, g.Loses l.1) (hd : document.Distinct)
    (h : g.walk (i.filter dialect document) = .error e) :
    e.Truthful document ∧ i.covers dialect e.location = false :=
  ⟨(truthful_of_walk (i.distinct_filter dialect hd) h).of_filter,
    not_covers_of_walk_error hg hr hls hd h⟩

theorem truthful_of_ofDocument? (hd : document.Distinct)
    (h : Walked.ofDocument? dialect (i.filter dialect document) = .error e) :
    e.Truthful document ∧ i.covers dialect e.location = false := by
  cases dialect with
  | swagger =>
    exact truthful_of_walk_filter Swagger.separated Swagger.rooted Swagger.loses_of_mem_lists hd
      (Outcome.map_eq_error_iff.1 h)
  | openApi =>
    exact truthful_of_walk_filter OpenApi.separated OpenApi.rooted OpenApi.loses_of_mem_lists hd
      (Outcome.map_eq_error_iff.1 h)

namespace Linter

theorem walk_errors_truthful (hd : document.Distinct) :
    (∀ e, Swagger.grammar.walk document = .error e → e.Truthful document) ∧
    (∀ e, OpenApi.grammar.walk document = .error e → e.Truthful document) ∧
    ∀ (l : Linter) dialect e, Dialect.detect? document = some dialect →
      Walked.ofDocument? dialect (l.config.ignore.filter dialect document) = .error e →
      l.lint document = [.walker e.message] ∧ e.Truthful document ∧
        l.config.ignore.covers dialect e.location = false := by
  refine ⟨fun e h => truthful_of_walk hd h, fun e h => truthful_of_walk hd h, ?_⟩
  intro l dialect e hdetected h
  exact ⟨lint_of_error hdetected h, truthful_of_ofDocument? hd h⟩

def closedPetStore : Value :=
  .object [("swagger", .string "2.0"), ("info", .object []),
    ("paths", .object [("/owners/", .string "closed"),
      ("/pets/", .object [("get", .object [("parameters", .object [])])])])]

def closedOwners : ShapeError :=
  ⟨⟨["paths", "/owners/"]⟩, .object⟩

def petParameters : ShapeError :=
  ⟨⟨["paths", "/pets/", "get", "parameters"]⟩, .array⟩

theorem distinct_closedPetStore : closedPetStore.Distinct := by
  simp [closedPetStore, Members.keys]

theorem walk_errors_truthful_closedPetStore : closedPetStore.Distinct ∧
    (Swagger.grammar.walk closedPetStore = .error closedOwners ∧
      OpenApi.grammar.walk closedPetStore = .error closedOwners ∧
      closedOwners.Truthful closedPetStore) ∧
    Dialect.detect? closedPetStore = some .swagger ∧
    Walked.ofDocument? .swagger (noOwners.filter .swagger closedPetStore) = .error petParameters ∧
    petLinter.lint closedPetStore = [.walker petParameters.message] ∧
    petParameters.Truthful closedPetStore ∧
    noOwners.covers .swagger petParameters.location = false := by
  have hswagger : Swagger.grammar.walk closedPetStore = .error closedOwners := by cbv
  have hopenApi : OpenApi.grammar.walk closedPetStore = .error closedOwners := by cbv
  have hdialect : Dialect.detect? closedPetStore = some .swagger := by cbv
  have hleft : Walked.ofDocument? .swagger (noOwners.filter .swagger closedPetStore) =
      .error petParameters := by
    cbv
  obtain ⟨-, htruthful, hlint⟩ := walk_errors_truthful distinct_closedPetStore
  exact ⟨distinct_closedPetStore, ⟨hswagger, hopenApi, htruthful _ hopenApi⟩, hdialect, hleft,
    hlint petLinter _ _ hdialect hleft⟩

end Linter

end ApiLint
