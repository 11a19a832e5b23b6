import ApiLint.OpenApi.Basic
import ApiLint.Walk.Expansion

/-!
# The grammar of OpenAPI 3.x

The positions of a document, and what stands at each of them.
-/

namespace ApiLint.OpenApi

open Json Walk

inductive Position where
  | leaf (kind : Kind)
  | root
  | info
  | server
  | tag
  | paths
  | pathItem
  | operation
  | parameter
  | requestBody
  | mediaType
  | encoding
  | responses
  | response
  | callback
  | exampleObject
  | link
  | header
  | schema
  | securityScheme
  | oauthFlows
  deriving DecidableEq, Repr

def methods : List String :=
  ["get", "put", "post", "delete", "options", "head", "patch", "trace"]

def flows : List String := ["implicit", "password", "clientCredentials", "authorizationCode"]

namespace Position

def externalDocs : Branch Position := .one "externalDocs" (leaf .externalDocumentation)

def security : Branch Position := .items "security" (leaf .securityRequirement)

def servers : Branch Position := .items "servers" server

def parameters : Branch Position := .items "parameters" parameter

def examples : Branch Position := .entries "examples" exampleObject

def content : Branch Position := .entries "content" mediaType

def headers : Branch Position := .entries "headers" header

/-- A parameter with content has no schema and no examples of its own. -/
def parameterBranches (node : Value) : List (Branch Position) :=
  if (node.get? "content").isSome then [content] else [.one "schema" schema, examples]

def schemaItems (node : Value) : Branch Position :=
  if (node.get? "items" >>= Value.items?).isSome then .items "items" schema
  else .one "items" schema

def securitySchemeBranches (node : Value) : List (Branch Position) :=
  if node.stringAt? "type" = some "oauth2" then [.one "flows" oauthFlows] else []

def form : Position → Form Kind Section Position
  | leaf kind => { kind := some kind }
  | root =>
    { kind := some .openApi, shape := some .object,
      branches := fun _ =>
        [.one "info" info, servers, .one "paths" (leaf .paths),
          .one "components" (leaf .components), security, .items "tags" tag, externalDocs] }
  | info =>
    { kind := some .info, shape := some .object,
      branches := fun _ => [.one "contact" (leaf .contact), .one "license" (leaf .license)] }
  | server =>
    { kind := some .server, shape := some .object,
      branches := fun _ => [.entries "variables" (leaf .serverVariable)] }
  | tag => { kind := some .tag, shape := some .object, branches := fun _ => [externalDocs] }
  | paths => { shape := some .object, branches := fun _ => [.members false (.one pathItem)] }
  | pathItem =>
    { replacement := .recorded, kind := some .pathItem, shape := some .object,
      branches := fun _ =>
        methods.map (fun method => .one method operation) ++ [servers, parameters] }
  | operation =>
    { kind := some .operation, shape := some .object,
      branches := fun _ =>
        [externalDocs, parameters, .one "requestBody" requestBody, .one "responses" responses,
          .entries "callbacks" callback, security, servers] }
  | parameter =>
    { replacement := .followed .parameters, kind := some .parameter, shape := some .object,
      branches := parameterBranches }
  | requestBody =>
    { replacement := .followed .requestBodies, kind := some .requestBody, shape := some .object,
      branches := fun _ => [content] }
  | mediaType =>
    { kind := some .mediaType, shape := some .object,
      branches := fun _ => [.one "schema" schema, examples, .entries "encoding" encoding] }
  | encoding => { kind := some .encoding, shape := some .object, branches := fun _ => [headers] }
  | responses =>
    { kind := some .responses, shape := some .object,
      branches := fun _ => [.members false (.one response)] }
  | response =>
    { replacement := .followed .responses, kind := some .response, shape := some .object,
      branches := fun _ => [headers, content, .entries "links" link] }
  | callback =>
    { replacement := .followed .callbacks, kind := some .callback, shape := some .object }
  | exampleObject =>
    { replacement := .followed .examples, kind := some .exampleObject, shape := some .object }
  | link =>
    { replacement := .followed .links, kind := some .link, shape := some .object,
      branches := fun _ => [.one "server" server] }
  | header =>
    { replacement := .followed .headers, kind := some .header, shape := some .object,
      branches := fun _ => [.one "schema" schema, examples, content] }
  | schema =>
    { boolean := true, replacement := .followed .schemas, kind := some .schema,
      shape := some .object,
      branches := fun node =>
        [.one "discriminator" (leaf .discriminator), .one "xml" (leaf .xml), externalDocs,
          .items "allOf" schema, .items "oneOf" schema, .items "anyOf" schema, .one "not" schema,
          schemaItems node, .entries "properties" schema, .one "additionalProperties" schema] }
  | securityScheme =>
    { replacement := .followed .securitySchemes, kind := some .securityScheme,
      shape := some .object, branches := securitySchemeBranches }
  | oauthFlows =>
    { kind := some .oauthFlows, shape := some .object,
      branches := fun _ => flows.map fun flow => .one flow (leaf .oauthFlow) }

end Position

def grammar : Grammar Kind Section Position where
  form := Position.form
  reference := .reference
  root := .root
  paths := .paths
  sections := Section.all
  mem_sections := Section.mem_all
  key := Section.key
  holder := ["components"]
  member
    | .schemas => .schema
    | .responses => .response
    | .parameters => .parameter
    | .examples => .exampleObject
    | .requestBodies => .requestBody
    | .headers => .header
    | .securitySchemes => .securityScheme
    | .links => .link
    | .callbacks => .callback

theorem container_eq (s : Section) : grammar.container s = s.container := rfl

end ApiLint.OpenApi
