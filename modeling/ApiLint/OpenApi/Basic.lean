/-!
# Sections and kinds of OpenAPI 3.x documents

The name maps under `components` whose members references can name, and the roles that a node of a
document can have, under which rules subscribe to it.
-/

namespace ApiLint.OpenApi

inductive Section where
  | schemas
  | responses
  | parameters
  | examples
  | requestBodies
  | headers
  | securitySchemes
  | links
  | callbacks
  deriving DecidableEq, Repr

namespace Section

def all : List Section :=
  [schemas, responses, parameters, examples, requestBodies, headers, securitySchemes, links,
    callbacks]

def key : Section → String
  | schemas => "schemas"
  | responses => "responses"
  | parameters => "parameters"
  | examples => "examples"
  | requestBodies => "requestBodies"
  | headers => "headers"
  | securitySchemes => "securitySchemes"
  | links => "links"
  | callbacks => "callbacks"

def container (s : Section) : List String := ["components", s.key]

def ofKey? (key : String) : Option Section := all.find? fun s => s.key == key

theorem mem_all (s : Section) : s ∈ all := by cases s <;> decide

theorem ofKey?_key (s : Section) : ofKey? s.key = some s := by cases s <;> decide

end Section

inductive Kind where
  | openApi
  | info
  | contact
  | license
  | server
  | serverVariable
  | components
  | paths
  | pathItem
  | operation
  | externalDocumentation
  | parameter
  | requestBody
  | mediaType
  | encoding
  | responses
  | response
  | callback
  | exampleObject
  | link
  | header
  | tag
  | reference
  | schema
  | discriminator
  | xml
  | securityScheme
  | oauthFlows
  | oauthFlow
  | securityRequirement
  deriving DecidableEq, Repr

namespace Kind

def all : List Kind :=
  [openApi, info, contact, license, server, serverVariable, components, paths, pathItem, operation,
    externalDocumentation, parameter, requestBody, mediaType, encoding, responses, response,
    callback, exampleObject, link, header, tag, reference, schema, discriminator, xml,
    securityScheme, oauthFlows, oauthFlow, securityRequirement]

def name : Kind → String
  | openApi => "OpenAPIObject"
  | info => "InfoObject"
  | contact => "ContactObject"
  | license => "LicenseObject"
  | server => "ServerObject"
  | serverVariable => "ServerVariableObject"
  | components => "ComponentsObject"
  | paths => "PathsObject"
  | pathItem => "PathItemObject"
  | operation => "OperationObject"
  | externalDocumentation => "ExternalDocumentationObject"
  | parameter => "ParameterObject"
  | requestBody => "RequestBodyObject"
  | mediaType => "MediaTypeObject"
  | encoding => "EncodingObject"
  | responses => "ResponsesObject"
  | response => "ResponseObject"
  | callback => "CallbackObject"
  | exampleObject => "ExampleObject"
  | link => "LinkObject"
  | header => "HeaderObject"
  | tag => "TagObject"
  | reference => "ReferenceObject"
  | schema => "SchemaObject"
  | discriminator => "DiscriminatorObject"
  | xml => "XMLObject"
  | securityScheme => "SecuritySchemeObject"
  | oauthFlows => "OAuthFlowsObject"
  | oauthFlow => "OAuthFlowObject"
  | securityRequirement => "SecurityRequirementObject"

def ofName? (s : String) : Option Kind := all.find? fun k => k.name == s

theorem mem_all (k : Kind) : k ∈ all := by cases k <;> decide

end Kind

end ApiLint.OpenApi
