import ApiLint.Proofs.Dialects.Walks
import ApiLint.Proofs.Walk.Without

/-!
# Ignored members of both dialects

A document that can be walked can be walked without its ignored members, and what is recorded then
is what was recorded before anywhere but at and below them. Whether or not it can be walked, nothing
is recorded at or below an ignored member.
-/

namespace ApiLint

open Json Walk Grammar Ignore Walked

namespace Swagger

theorem rooted : grammar.Rooted where
  root := ⟨rfl, rfl⟩
  branches _ _ := rfl
  paths := ⟨false, .one .pathItem, fun _ => rfl⟩

theorem loses_of_mem_lists {i : Ignore} : ∀ l ∈ i.lists .swagger, grammar.Loses l.1 := by
  simp only [lists, List.forall_mem_cons]
  exact ⟨.inl rfl, .inr ⟨.definitions, rfl⟩, List.forall_mem_nil _⟩

def tops : List (List String × Kind) :=
  [([], .swagger), (["paths"], .paths), (["definitions"], .definitions),
    (["parameters"], .parametersDefinitions), (["responses"], .responsesDefinitions),
    (["externalDocs"], .externalDocumentation)]

theorem mem_tops_of_above {root : Value} {l : Location} {k : Kind} (h : grammar.Above root l k) :
    (l.segments, k) ∈ tops := by
  rcases h with ⟨rfl, hk⟩ | ⟨key, place, hb, rfl, hf⟩
  · obtain rfl := Option.some.inj hk
    exact List.mem_cons_self
  · have hb : .field key place ∈ (Position.form .root).branches root := hb
    simp only [Position.form, Position.security, Position.externalDocs, Branch.one, Branch.items,
      List.mem_cons, List.not_mem_nil, or_false, Branch.field.injEq] at hb
    rcases hb with ⟨rfl, rfl⟩ | ⟨rfl, rfl⟩ | ⟨rfl, rfl⟩ | ⟨rfl, rfl⟩ | ⟨rfl, rfl⟩ | ⟨rfl, rfl⟩ |
      ⟨rfl, rfl⟩ | ⟨rfl, rfl⟩ | ⟨rfl, rfl⟩
    -- A leaf has no shape, which tells it from the other children of the root.
    all_goals first
      | cases (congrArg Form.shape hf : some _ = none)
      | obtain rfl := Option.some.inj (congrArg Form.kind hf); simp [tops]

theorem not_above_of_kind {k : Kind} (h : k ∉ tops.map Prod.snd) (root : Value) (l : Location) :
    ¬ grammar.Above root l k :=
  fun ha => h (List.mem_map_of_mem (mem_tops_of_above ha))

end Swagger

namespace OpenApi

theorem rooted : grammar.Rooted where
  root := ⟨rfl, rfl⟩
  branches _ _ := rfl
  paths := ⟨false, .one .pathItem, fun _ => rfl⟩

theorem loses_of_mem_lists {i : Ignore} : ∀ l ∈ i.lists .openApi, grammar.Loses l.1 := by
  intro l hl
  rcases List.mem_cons.1 hl with rfl | hl
  · exact .inl rfl
  · obtain ⟨s, -, rfl⟩ := List.mem_map.1 hl
    exact .inr ⟨s, rfl⟩

def tops : List (List String × Kind) :=
  [([], .openApi), (["paths"], .paths), (["components"], .components),
    (["externalDocs"], .externalDocumentation)]

theorem mem_tops_of_above {root : Value} {l : Location} {k : Kind} (h : grammar.Above root l k) :
    (l.segments, k) ∈ tops := by
  rcases h with ⟨rfl, hk⟩ | ⟨key, place, hb, rfl, hf⟩
  · obtain rfl := Option.some.inj hk
    exact List.mem_cons_self
  · have hb : .field key place ∈ (Position.form .root).branches root := hb
    simp only [Position.form, Position.security, Position.servers, Position.externalDocs,
      Branch.one, Branch.items, List.mem_cons, List.not_mem_nil, or_false,
      Branch.field.injEq] at hb
    rcases hb with ⟨rfl, rfl⟩ | ⟨rfl, rfl⟩ | ⟨rfl, rfl⟩ | ⟨rfl, rfl⟩ | ⟨rfl, rfl⟩ | ⟨rfl, rfl⟩ |
      ⟨rfl, rfl⟩
    all_goals first
      | cases (congrArg Form.shape hf : some _ = none)
      | obtain rfl := Option.some.inj (congrArg Form.kind hf); simp [tops]

theorem not_above_of_kind {k : Kind} (h : k ∉ tops.map Prod.snd) (root : Value) (l : Location) :
    ¬ grammar.Above root l k :=
  fun ha => h (List.mem_map_of_mem (mem_tops_of_above ha))

end OpenApi

variable {K S P : Type} {g : Grammar K S P} {i : Ignore} {dialect : Dialect} {document : Value}

theorem label_cut (container names : List String) (vs : List (Visit K)) :
    (cut container names vs).map Visit.label =
      (vs.map Visit.label).filter fun a => !hides container names a.2 := by
  simp only [cut, List.map_map, List.filter_map]
  refine List.map_congr_left fun v _ => ?_
  simp only [Function.comp_apply, Visit.label, Visit.kind_trim, Visit.location_trim]

theorem exists_walk_filter [DecidableEq S] (hg : g.Separated) (hr : g.Rooted)
    (hls : ∀ l ∈ i.lists dialect, g.Loses l.1) (hd : document.Distinct) {vs : List (Visit K)}
    (h : g.walk document = .ok vs) :
    ∃ ws, g.walk (i.filter dialect document) = .ok ws ∧ (ws.map Visit.label).Perm
      ((vs.map Visit.label).filter fun a => !i.covers dialect a.2) := by
  simp only [filter_eq i dialect hd, covers_eq]
  refine walk_withoutAll hg hr (fun vs => vs.map Visit.label) Prod.snd ?_ hls hd h
  intro _ container names vs ws _ _ _ hperm
  rw [← label_cut]
  exact hperm.map _

theorem exists_walk_of_isOk [DecidableEq S] (hs : g.sections.Nodup) (hd : document.Distinct)
    (h : (g.plainWalk document).isOk) : ∃ vs, g.walk document = .ok vs := by
  refine (exists_walk_iff hs hd).2 (exists_plainWalk_iff.1 ?_)
  cases hp : g.plainWalk document with
  | ok vs => exact ⟨vs, rfl⟩
  | error e => rw [hp] at h; cases h

theorem walk_of_no_references [DecidableEq S] (top paths visits : List (Visit K))
    (names : List (S × String)) (ht : g.trail (.one g.root) .root document = .ok ⟨top, []⟩)
    (hp : g.pathsTrail document = .ok ⟨paths, []⟩)
    (hx : g.expandSections document ⟨top ++ paths, [], []⟩ = .ok ⟨visits, [], names⟩) :
    g.walk document = .ok visits := by
  simp only [walk, Outcome.bind_eq_ok_iff, Outcome.pure_eq_ok_iff]
  exact ⟨_, ht, _, hp, _, drain_nil rfl, _, hx, _, drain_nil rfl, rfl⟩

variable [DecidableEq K]

theorem locations_ofKind (vs : List (Visit K)) (kind : K) :
    (ofKind vs kind).map Visit.location =
      ((vs.map Visit.label).filter fun a => a.1 = kind).map Prod.snd := by
  simp only [ofKind, List.filter_map, List.map_map]
  rfl

/-- The walk of a filtered document compared with that of the whole document. -/
structure Isolates (g : Grammar K S P) [DecidableEq S] (covers : Location → Bool)
    (document filtered : Value) : Prop where
  kept : ∀ vs, g.walk document = .ok vs → ∃ ws, g.walk filtered = .ok ws ∧ ∀ kind,
    ((ofKind ws kind).map Visit.location).Perm
      (((ofKind vs kind).map Visit.location).filter fun l => !covers l)
  gone : ∀ ws, g.walk filtered = .ok ws → ∀ w ∈ ws, covers w.location = false

theorem isolates_of_separated [DecidableEq S] (hg : g.Separated) (hr : g.Rooted)
    (hls : ∀ l ∈ i.lists dialect, g.Loses l.1) (hd : document.Distinct) :
    Isolates g (i.covers dialect) document (i.filter dialect document) where
  kept vs h := by
    obtain ⟨ws, hw, hperm⟩ := exists_walk_filter hg hr hls hd h
    refine ⟨ws, hw, fun kind => ?_⟩
    have hkind := (hperm.filter fun a => a.1 = kind).map Prod.snd
    rw [locations_ofKind, locations_ofKind]
    simp only [List.filter_filter, List.filter_map] at hkind ⊢
    simpa [Bool.and_comm, Function.comp_def] using hkind
  gone ws h w hw := by
    -- There is nothing to take out of the filtered document, so the walk loses nothing.
    obtain ⟨us, hu, hperm⟩ := exists_walk_filter hg hr hls (i.distinct_filter dialect hd) h
    rw [filter_filter, h] at hu
    obtain rfl := Except.ok.inj hu
    have hmem := hperm.mem_iff.1 (List.mem_map_of_mem hw)
    simpa [Visit.label] using (List.mem_filter.1 hmem).2

theorem isolates_ignored (hd : document.Distinct) (i : Ignore) :
    Isolates Swagger.grammar (i.covers .swagger) document (i.filter .swagger document) ∧
    Isolates OpenApi.grammar (i.covers .openApi) document (i.filter .openApi document) :=
  ⟨isolates_of_separated Swagger.separated Swagger.rooted Swagger.loses_of_mem_lists hd,
    isolates_of_separated OpenApi.separated OpenApi.rooted OpenApi.loses_of_mem_lists hd⟩

def petSchema : Value := .object [("properties", .object [("pet_name", .object [])])]

def petSchemas (container : String) : Value :=
  .object [("Pet", petSchema), ("Owner", pointer (container ++ "/Pet"))]

def petStore : Value :=
  .object [("swagger", .string "2.0"), ("info", .object []),
    ("paths", .object [("/pets/", .object []), ("/owners/", .object [])]),
    ("definitions", petSchemas "#/definitions"),
    ("components", .object [("schemas", petSchemas "#/components/schemas")])]

def noOwners : Ignore where
  definitions := ["Owner"]
  paths := ["/owners/"]
  components s := if s = .schemas then ["Owner"] else []

theorem distinct_petStore : petStore.Distinct := by
  simp [petStore, petSchemas, petSchema, pointer, Members.keys]

theorem exists_walk_petStore : (∃ vs, Swagger.grammar.walk petStore = .ok vs) ∧
    ∃ vs, OpenApi.grammar.walk petStore = .ok vs := by
  constructor
  case left =>
    refine exists_walk_of_isOk Swagger.separated.sections distinct_petStore ?_
    cbv
  case right =>
    refine exists_walk_of_isOk OpenApi.separated.sections distinct_petStore ?_
    cbv

theorem isolates_ignored_petStore : petStore.Distinct ∧
    ((∃ vs, Swagger.grammar.walk petStore = .ok vs) ∧
      Isolates Swagger.grammar (noOwners.covers .swagger) petStore
        (noOwners.filter .swagger petStore)) ∧
    (∃ vs, OpenApi.grammar.walk petStore = .ok vs) ∧
      Isolates OpenApi.grammar (noOwners.covers .openApi) petStore
        (noOwners.filter .openApi petStore) := by
  obtain ⟨hswagger, hopenApi⟩ := isolates_ignored distinct_petStore noOwners
  exact ⟨distinct_petStore, ⟨exists_walk_petStore.1, hswagger⟩, exists_walk_petStore.2, hopenApi⟩

def petsOnly : Value :=
  .object [("swagger", .string "2.0"), ("info", .object []),
    ("paths", .object [("/pets/", .object [])]),
    ("definitions", .object [("Pet", petSchema)]),
    ("components", .object [("schemas", petSchemas "#/components/schemas")])]

def petVisits : List (Visit Swagger.Kind) :=
  [⟨.swagger, .root, petsOnly⟩, ⟨.info, ⟨["info"]⟩, .object []⟩,
    ⟨.paths, ⟨["paths"]⟩, .object [("/pets/", .object [])]⟩,
    ⟨.definitions, ⟨["definitions"]⟩, .object [("Pet", petSchema)]⟩,
    ⟨.pathItem, ⟨["paths", "/pets/"]⟩, .object []⟩,
    ⟨.schema, ⟨["definitions", "Pet"]⟩, petSchema⟩,
    ⟨.schema, ⟨["definitions", "Pet", "properties", "pet_name"]⟩, .object []⟩]

theorem filter_petStore : noOwners.filter .swagger petStore = petsOnly := by
  cbv

theorem swagger_walk_petsOnly : Swagger.grammar.walk petsOnly = .ok petVisits := by
  refine walk_of_no_references (petVisits.take 4) [⟨.pathItem, ⟨["paths", "/pets/"]⟩, .object []⟩]
    petVisits [(.definitions, "Pet")] ?_ ?_ ?_
  all_goals cbv

end ApiLint
