/-!
The kinds of nodes that a document consists of, as messages name them.
-/
namespace GraphQLCheck

inductive NodeKind
  | document
  | operationDefinition
  | operationKind
  | fragmentDefinition
  | variableDefinition
  | type
  | namedType
  | listType
  | selectionSet
  | selection
  | field
  | fragmentSpread
  | inlineFragment
  | directive
  | argument
  | value
  | variable
  | string
  | float
  | int
  | boolean
  | enum
  | list
  | object
  | objectField
deriving DecidableEq

namespace NodeKind

def name : NodeKind → String
  | .document => "Document"
  | .operationDefinition => "Operation Definition"
  | .operationKind => "Operation Kind"
  | .fragmentDefinition => "Fragment Definition"
  | .variableDefinition => "Variable Definition"
  | .type => "Type"
  | .namedType => "Type Name"
  | .listType => "List Type"
  | .selectionSet => "Selection Set"
  | .selection => "Selection"
  | .field => "Field"
  | .fragmentSpread => "Fragment Spread"
  | .inlineFragment => "Inline Fragment"
  | .directive => "Directive"
  | .argument => "Argument"
  | .value => "Value"
  | .variable => "Variable"
  | .string => "String"
  | .float => "Float"
  | .int => "Integer"
  | .boolean => "Boolean"
  | .enum => "Enum"
  | .list => "List"
  | .object => "Object"
  | .objectField => "Object Field"

def isValue : NodeKind → Bool
  | .value | .variable | .string | .float | .int | .boolean | .enum | .list | .object
  | .objectField => true
  | _ => false

end NodeKind
end GraphQLCheck
