import ApiLint.Swagger.Basic
import ApiLint.Walk.Expansion

/-!
# The grammar of Swagger 2.0

The positions of a document, and what stands at each of them.
-/

namespace ApiLint.Swagger

open Json Walk

inductive Position where
  | leaf (kind : Kind)
  | root
  | info
  | securityDefinitions
  | securityScheme
  | tag
  | paths
  | pathItem
  | operation
  | parameter
  | responses
  | response
  | headers
  | header
  | items
  | schema
  deriving DecidableEq, Repr

def methods : List String := ["get", "put", "post", "delete", "options", "head", "patch"]

namespace Position

def externalDocs : Branch Position := .one "externalDocs" (leaf .externalDocumentation)

def security : Branch Position := .items "security" (leaf .securityRequirement)

/-- The body parameter has a schema, any other may have items. -/
def parameterBranches (node : Value) : List (Branch Position) :=
  if node.stringAt? "in" = some "body" then [.one "schema" schema] else [.one "items" items]

def schemaItems (node : Value) : Branch Position :=
  if (node.get? "items" >>= Value.items?).isSome then .items "items" schema
  else .one "items" schema

def form : Position → Form Kind Section Position
  | leaf kind => { kind := some kind }
  | root =>
    { kind := some .swagger, shape := some .object,
      branches := fun _ =>
        [.one "info" info, .one "paths" (leaf .paths), .one "definitions" (leaf .definitions),
          .one "parameters" (leaf .parametersDefinitions),
          .one "responses" (leaf .responsesDefinitions),
          .one "securityDefinitions" securityDefinitions, security, .items "tags" tag,
          externalDocs] }
  | info =>
    { kind := some .info, shape := some .object,
      branches := fun _ => [.one "contact" (leaf .contact), .one "license" (leaf .license)] }
  | securityDefinitions =>
    { kind := some .securityDefinitions, shape := some .object,
      branches := fun _ => [.members true (.one securityScheme)] }
  | securityScheme =>
    { kind := some .securityScheme, shape := some .object,
      branches := fun _ => [.one "scopes" (leaf .scopes)] }
  | tag => { kind := some .tag, shape := some .object, branches := fun _ => [externalDocs] }
  | paths => { shape := some .object, branches := fun _ => [.members false (.one pathItem)] }
  | pathItem =>
    { replacement := .recorded, kind := some .pathItem, shape := some .object,
      branches := fun _ =>
        methods.map (fun method => .one method operation) ++ [.items "parameters" parameter] }
  | operation =>
    { kind := some .operation, shape := some .object,
      branches := fun _ =>
        [externalDocs, .items "parameters" parameter, .one "responses" responses, security] }
  | parameter =>
    { replacement := .followed .parameters, kind := some .parameter, shape := some .object,
      branches := parameterBranches }
  | responses =>
    { kind := some .responses, shape := some .object,
      branches := fun _ => [.members false (.one response)] }
  | response =>
    { replacement := .followed .responses, kind := some .response, shape := some .object,
      branches := fun _ =>
        [.one "schema" schema, .one "headers" headers, .one "examples" (leaf .exampleObject)] }
  | headers =>
    { kind := some .headers, shape := some .object,
      branches := fun _ => [.members true (.one header)] }
  | header =>
    { kind := some .header, shape := some .object, branches := fun _ => [.one "items" items] }
  | items =>
    { kind := some .items, shape := some .object, branches := fun _ => [.one "items" items] }
  | schema =>
    { boolean := true, replacement := .followed .definitions, kind := some .schema,
      shape := some .object,
      branches := fun node =>
        [.one "xml" (leaf .xml), externalDocs, .entries "properties" schema,
          .one "additionalProperties" schema, .items "allOf" schema, schemaItems node] }

end Position

def grammar : Grammar Kind Section Position where
  form := Position.form
  reference := .reference
  root := .root
  paths := .paths
  sections := Section.all
  mem_sections := Section.mem_all
  key := Section.key
  holder := []
  member
    | .definitions => .schema
    | .parameters => .parameter
    | .responses => .response

theorem container_eq (s : Section) : grammar.container s = s.container := rfl

end ApiLint.Swagger
