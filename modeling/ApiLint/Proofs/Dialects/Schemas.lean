import ApiLint.OpenApi.Grammar
import ApiLint.Proofs.Dialects.Walks
import ApiLint.Proofs.Walk.Mirroring
import ApiLint.Swagger.Grammar

/-!
# Schemas of both dialects

Both dialects have most keywords of a schema in common, and descend into them in different orders.
A schema with no other keywords is walked alike in both.
-/

namespace ApiLint

open Json Walk Grammar

/-- What stands for what: the four kinds that are recorded in schemas, and the sections. -/
def schemaPairing : Pairing Swagger.Kind OpenApi.Kind Swagger.Section OpenApi.Section where
  kinds := [(.schema, .schema), (.xml, .xml), (.externalDocumentation, .externalDocumentation),
    (.reference, .reference)]
  oneToOne := by decide
  twin
    | .definitions => .schemas
    | .parameters => .parameters
    | .responses => .responses

namespace Schema

def newKeywords : List String := ["oneOf", "anyOf", "not", "discriminator"]

/-- A schema is part of another under a keyword that both dialects have. -/
inductive Part (v : Value) : Value → Prop where
  | property {w : Value} {ms : Members} {m : String × Value} (h : v.get? "properties" = some w)
    (hw : w.members? = some ms) (hm : m ∈ ms) : Part v m.2
  | additional {w : Value} (h : v.get? "additionalProperties" = some w) : Part v w
  | all {w x : Value} {xs : List Value} (h : v.get? "allOf" = some w) (hw : w.items? = some xs)
    (hx : x ∈ xs) : Part v x
  | item {w : Value} (h : v.get? "items" = some w) (hw : w.items? = none) : Part v w
  | items {w x : Value} {xs : List Value} (h : v.get? "items" = some w) (hw : w.items? = some xs)
    (hx : x ∈ xs) : Part v x

/-- The schemas that are reached from a schema. What stands beside a reference is not. -/
inductive Reached (v : Value) : Value → Prop where
  | self : Reached v v
  | part {u w : Value} (h : Reached v u) (hr : Reference.ofNode? u = none) (hw : Part u w) :
    Reached v w

def Plain (v : Value) : Prop :=
  ∀ w, Reached v w → Reference.ofNode? w = none → ∀ key ∈ newKeywords, w.get? key = none

variable {u v w : Value}

theorem Reached.of_part (hr : Reference.ofNode? v = none) (hu : Part v u) (h : Reached u w) :
    Reached v w := by
  induction h with
  | self => exact .part .self hr hu
  | part _ hr hw ih => exact .part ih hr hw

theorem Reached.cases_first (h : Reached v w) :
    w = v ∨ Reference.ofNode? v = none ∧ ∃ u, Part v u ∧ Reached u w := by
  induction h with
  | self => exact .inl rfl
  | part _ hr hw ih =>
    rcases ih with rfl | ⟨hr', u, hu, h⟩
    · exact .inr ⟨hr, _, hw, .self⟩
    · exact .inr ⟨hr', u, hu, .part h hr hw⟩

theorem Plain.of_part (h : Plain v) (hr : Reference.ofNode? v = none) (hw : Part v w) : Plain w :=
  fun x hx => h x (.of_part hr hw hx)

theorem plain_of_parts (h : Reference.ofNode? v = none →
    (∀ key ∈ newKeywords, v.get? key = none) ∧ ∀ w, Part v w → Plain w) : Plain v := by
  intro x hx hr
  rcases hx.cases_first with rfl | ⟨hr', u, hu, hx⟩
  · exact (h hr).1
  · exact (h hr').2 u hu x hx hr

/-- The places to which a schema leads in the two dialects. -/
inductive Counterparts : Place Swagger.Position → Place OpenApi.Position → Value → Prop where
  | xml (v : Value) : Counterparts (.one (.leaf .xml)) (.one (.leaf .xml)) v
  | externalDocs (v : Value) : Counterparts (.one (.leaf .externalDocumentation))
    (.one (.leaf .externalDocumentation)) v
  | one {v : Value} (h : Plain v) : Counterparts (.one .schema) (.one .schema) v
  | items {v : Value} (h : ∀ xs, v.items? = some xs → ∀ x ∈ xs, Plain x) :
    Counterparts (.items .schema) (.items .schema) v
  | entries {v : Value} (h : ∀ ms, v.members? = some ms → ∀ m ∈ ms, Plain m.2) :
    Counterparts (.entries .schema) (.entries .schema) v

theorem replaced_schema (v : Value) :
    ((Swagger.grammar.form .schema).replacedBy? v).map
      (List.map fun r => (schemaPairing.twin r.1, r.2)) =
      (OpenApi.grammar.form .schema).replacedBy? v := by
  change Option.map _ (Option.map _ (Reference.ofNode? v)) = Option.map _ (Reference.ofNode? v)
  cases Reference.ofNode? v with
  | none => rfl
  | some reference =>
    simp only [Option.map_some, apply_ite (List.map _)]
    rfl

theorem children_of_absent {P : Type} {key : String} (h : v.get? key = none) (place : Place P) :
    (Branch.field key place).children v = [] := by
  rw [Branch.children, h]

theorem mirrors_schemaItems (h : Plain v) (hr : Reference.ofNode? v = none) :
    (Swagger.Position.schemaItems v).Mirrors Counterparts v (OpenApi.Position.schemaItems v) := by
  unfold Swagger.Position.schemaItems OpenApi.Position.schemaItems
  split
  case isTrue =>
    exact .field fun w hw => .items fun xs hxs x hx => h.of_part hr (.items hw hxs hx)
  case isFalse hn =>
    refine .field fun w hw => .one (h.of_part hr (.item hw ?_))
    simpa [hw] using hn

def reorderedBranches (v : Value) : List (Branch Swagger.Position) :=
  [.one "xml" (.leaf .xml), Swagger.Position.externalDocs, .items "allOf" .schema,
    Swagger.Position.schemaItems v, .entries "properties" .schema,
    .one "additionalProperties" .schema]

def sharedBranches (v : Value) : List (Branch OpenApi.Position) :=
  [.one "xml" (.leaf .xml), OpenApi.Position.externalDocs, .items "allOf" .schema,
    OpenApi.Position.schemaItems v, .entries "properties" .schema,
    .one "additionalProperties" .schema]

theorem mirrors_branches (h : Plain v) (hr : Reference.ofNode? v = none) :
    List.Forall₂ (Branch.Mirrors Counterparts v) (reorderedBranches v) (sharedBranches v) := by
  refine .cons (.field fun w _ => .xml w) (.cons (.field fun w _ => .externalDocs w)
    (.cons (.field fun w hw => .items fun xs hxs x hx => ?all)
    (.cons (mirrors_schemaItems h hr)
    (.cons (.field fun w hw => .entries fun ms hms m hm => ?property)
    (.cons (.field fun w hw => .one ?additional) .nil)))))
  case all => exact h.of_part hr (.all hw hxs hx)
  case property => exact h.of_part hr (.property hw hms hm)
  case additional => exact h.of_part hr (.additional hw)

theorem children_reordered (v : Value) : ((reorderedBranches v).flatMap (·.children v)).Perm
    ((Swagger.grammar.form .schema).children v) :=
  List.Perm.flatMap_right _ (.cons _ (.cons _ (@List.perm_append_comm _ [_, _] [_, _])))

theorem children_shared (h : Plain v) (hr : Reference.ofNode? v = none) :
    (OpenApi.grammar.form .schema).children v = (sharedBranches v).flatMap (·.children v) := by
  have habsent := h v .self hr
  simp only [newKeywords, List.forall_mem_cons] at habsent
  obtain ⟨hone, hany, hnot, hdiscriminator, -⟩ := habsent
  change List.flatMap _ [_, _, _, _, _, _, _, _, _, _] = _
  simp only [sharedBranches, List.flatMap_cons, Branch.one, Branch.items, children_of_absent hone,
    children_of_absent hany, children_of_absent hnot, children_of_absent hdiscriminator,
    List.nil_append]

theorem mirrors_schema :
    Grammar.Mirrors Counterparts schemaPairing Swagger.grammar OpenApi.grammar where
  reference := by decide
  form _ _ v h := by
    cases h with
    | xml => exact ⟨rfl, rfl, .some (by decide), rfl, fun _ => ⟨[], .nil, .nil⟩⟩
    | externalDocs => exact ⟨rfl, rfl, .some (by decide), rfl, fun _ => ⟨[], .nil, .nil⟩⟩
    | one h =>
      refine ⟨rfl, replaced_schema v, .some (by decide), rfl, fun hreplaced =>
        ⟨(reorderedBranches v).flatMap (·.children v), ?_, children_reordered v⟩⟩
      have hr := ofNode?_of_not_replacedBy? (by decide) hreplaced
      have hchildren : (OpenApi.grammar.formOf (.one .schema)).children v =
          (sharedBranches v).flatMap (·.children v) := children_shared h hr
      rw [hchildren]
      exact Branch.forall₂_children (mirrors_branches h hr)
    | items h =>
      refine ⟨rfl, rfl, .none, rfl, fun _ => ⟨_, Branch.forall₂_children ?_, .refl _⟩⟩
      exact .cons (.elements fun xs hxs x hx => .one (h xs hxs x hx)) .nil
    | entries h =>
      refine ⟨rfl, rfl, .none, rfl, fun _ => ⟨_, Branch.forall₂_children ?_, .refl _⟩⟩
      exact .cons (.members fun ms hms m hm => .one (h ms hms m hm)) .nil

theorem schemas_agree (h : Plain v) (l : Location) :
    ((∃ t, Swagger.grammar.trail (.one .schema) l v = .ok t) ↔
      ∃ u, OpenApi.grammar.trail (.one .schema) l v = .ok u) ∧
    ∀ t u, Swagger.grammar.trail (.one .schema) l v = .ok t →
      OpenApi.grammar.trail (.one .schema) l v = .ok u → schemaPairing.Agree t u := by
  have hparallel := mirrors_schema.parallel_trail (.one h) l
  exact ⟨hparallel.exists_ok_iff, fun _ _ => hparallel.related⟩

def tagSchema : Value := .object [("type", .string "string"), ("xml", .object [])]

def petRecord : Value :=
  .object [("properties", .object [("tag", tagSchema), ("owner", pointer "#/definitions/Owner")]),
    ("allOf", .array [pointer "#/definitions/Named", .bool true])]

theorem plain_reference (reference : String) : Plain (pointer reference) :=
  plain_of_parts nofun

theorem plain_bool (b : Bool) : Plain (.bool b) := by
  refine plain_of_parts fun _ => ⟨fun _ _ => rfl, fun w hw => ?_⟩
  cases hw <;> contradiction

theorem plain_tagSchema : Plain tagSchema := by
  refine plain_of_parts fun _ => ⟨by decide, fun w hw => ?_⟩
  cases hw <;> contradiction

theorem plain_petRecord : Plain petRecord := by
  refine plain_of_parts fun _ => ⟨by decide, fun w hw => ?_⟩
  cases hw with
  | property h hw hm =>
    obtain rfl := Option.some.inj h
    obtain rfl := Option.some.inj hw
    simp only [List.mem_cons, List.not_mem_nil, or_false] at hm
    rcases hm with rfl | rfl
    · exact plain_tagSchema
    · exact plain_reference _
  | all h hw hx =>
    obtain rfl := Option.some.inj h
    obtain rfl := Option.some.inj hw
    simp only [List.mem_cons, List.not_mem_nil, or_false] at hx
    rcases hx with rfl | rfl
    · exact plain_reference _
    · exact plain_bool true
  | additional h => contradiction
  | item h _ => contradiction
  | items h _ _ => contradiction

theorem schemas_agree_petRecord : Plain petRecord ∧ ∃ t u,
    Swagger.grammar.trail (.one .schema) .root petRecord = .ok t ∧
    OpenApi.grammar.trail (.one .schema) .root petRecord = .ok u ∧ schemaPairing.Agree t u ∧
    t.references =
      [(.definitions, "#/definitions/Owner"), (.definitions, "#/definitions/Named")] ∧
    u.references = [(.schemas, "#/definitions/Named"), (.schemas, "#/definitions/Owner")] := by
  have hswagger : (Swagger.grammar.trail (.one .schema) .root petRecord).map Trail.references =
      .ok [(.definitions, "#/definitions/Owner"), (.definitions, "#/definitions/Named")] := by
    cbv
  have hopenApi : (OpenApi.grammar.trail (.one .schema) .root petRecord).map Trail.references =
      .ok [(.schemas, "#/definitions/Named"), (.schemas, "#/definitions/Owner")] := by
    cbv
  obtain ⟨t, ht, hreferences⟩ := Outcome.map_eq_ok_iff.1 hswagger
  obtain ⟨u, hu, hreferences'⟩ := Outcome.map_eq_ok_iff.1 hopenApi
  exact ⟨plain_petRecord, t, u, ht, hu, (schemas_agree plain_petRecord .root).2 t u ht hu,
    hreferences, hreferences'⟩

end Schema

end ApiLint
