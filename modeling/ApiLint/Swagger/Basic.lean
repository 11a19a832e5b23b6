/-!
# Sections and kinds of Swagger 2.0 documents

The name maps at the root of a document whose members references can name, and the roles that a node
of a document can have, under which rules subscribe to it.
-/

namespace ApiLint.Swagger

inductive Section where
  | definitions
  | parameters
  | responses
  deriving DecidableEq, Repr

namespace Section

def all : List Section := [definitions, parameters, responses]

def key : Section → String
  | definitions => "definitions"
  | parameters => "parameters"
  | responses => "responses"

def container (s : Section) : List String := [s.key]

def ofKey? (key : String) : Option Section := all.find? fun s => s.key == key

theorem mem_all (s : Section) : s ∈ all := by cases s <;> decide

end Section

inductive Kind where
  | swagger
  | info
  | contact
  | license
  | paths
  | pathItem
  | operation
  | externalDocumentation
  | parameter
  | items
  | responses
  | response
  | headers
  | header
  | exampleObject
  | schema
  | xml
  | definitions
  | parametersDefinitions
  | responsesDefinitions
  | securityDefinitions
  | securityScheme
  | scopes
  | securityRequirement
  | tag
  | reference
  deriving DecidableEq, Repr

namespace Kind

def all : List Kind :=
  [swagger, info, contact, license, paths, pathItem, operation, externalDocumentation, parameter,
    items, responses, response, headers, header, exampleObject, schema, xml, definitions,
    parametersDefinitions, responsesDefinitions, securityDefinitions, securityScheme, scopes,
    securityRequirement, tag, reference]

def name : Kind → String
  | swagger => "SwaggerObject"
  | info => "InfoObject"
  | contact => "ContactObject"
  | license => "LicenseObject"
  | paths => "PathsObject"
  | pathItem => "PathItemObject"
  | operation => "OperationObject"
  | externalDocumentation => "ExternalDocumentationObject"
  | parameter => "ParameterObject"
  | items => "ItemsObject"
  | responses => "ResponsesObject"
  | response => "ResponseObject"
  | headers => "HeadersObject"
  | header => "HeaderObject"
  | exampleObject => "ExampleObject"
  | schema => "SchemaObject"
  | xml => "XMLObject"
  | definitions => "DefinitionsObject"
  | parametersDefinitions => "ParametersDefinitionsObject"
  | responsesDefinitions => "ResponsesDefinitionsObject"
  | securityDefinitions => "SecurityDefinitionsObject"
  | securityScheme => "SecuritySchemeObject"
  | scopes => "ScopesObject"
  | securityRequirement => "SecurityRequirementObject"
  | tag => "TagObject"
  | reference => "ReferenceObject"

def ofName? (s : String) : Option Kind := all.find? fun k => k.name == s

theorem mem_all (k : Kind) : k ∈ all := by cases k <;> decide

end Kind

end ApiLint.Swagger
