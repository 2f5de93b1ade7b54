/-!
The places of a document or a schema definition at which directives may stand.
-/
namespace GraphQLCheck

inductive DirectiveLocation
  | query
  | mutation
  | subscription
  | field
  | fragmentDefinition
  | fragmentSpread
  | inlineFragment
  | variableDefinition
  | schema
  | scalar
  | object
  | fieldDefinition
  | argumentDefinition
  | interface
  | union
  | enum
  | enumValue
  | inputObject
  | inputFieldDefinition
deriving DecidableEq

namespace DirectiveLocation

def name : DirectiveLocation → String
  | .query => "QUERY"
  | .mutation => "MUTATION"
  | .subscription => "SUBSCRIPTION"
  | .field => "FIELD"
  | .fragmentDefinition => "FRAGMENT_DEFINITION"
  | .fragmentSpread => "FRAGMENT_SPREAD"
  | .inlineFragment => "INLINE_FRAGMENT"
  | .variableDefinition => "VARIABLE_DEFINITION"
  | .schema => "SCHEMA"
  | .scalar => "SCALAR"
  | .object => "OBJECT"
  | .fieldDefinition => "FIELD_DEFINITION"
  | .argumentDefinition => "ARGUMENT_DEFINITION"
  | .interface => "INTERFACE"
  | .union => "UNION"
  | .enum => "ENUM"
  | .enumValue => "ENUM_VALUE"
  | .inputObject => "INPUT_OBJECT"
  | .inputFieldDefinition => "INPUT_FIELD_DEFINITION"

def all : List DirectiveLocation :=
  [.query, .mutation, .subscription, .field, .fragmentDefinition, .fragmentSpread,
    .inlineFragment, .variableDefinition, .schema, .scalar, .object, .fieldDefinition,
    .argumentDefinition, .interface, .union, .enum, .enumValue, .inputObject,
    .inputFieldDefinition]

def ofName? (name : String) : Option DirectiveLocation := all.find? (·.name == name)

theorem mem_all (l : DirectiveLocation) : l ∈ all := by
  cases l <;> decide

theorem ofName?_name (l : DirectiveLocation) : ofName? l.name = some l := by
  cases l <;> decide

end DirectiveLocation
end GraphQLCheck
