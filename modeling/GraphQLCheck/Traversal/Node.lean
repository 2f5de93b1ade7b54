import GraphQLCheck.Document.Basic

/-!
The nodes of a document that a traversal comes to, and their classes.
-/
namespace GraphQLCheck

inductive Node
  | document (d : Document)
  | operation (o : Operation)
  | fragment (f : Fragment)
  | variableDefinition (v : VariableDefinition)
  | selectionSet (s : List Selection)
  | fragmentSpread (s : FragmentSpread)
  | inlineFragment (i : InlineFragment)
  | field (f : Field)
  | directive (d : Directive)
  | argument (a : Argument)
  | value (v : Value)
  | objectField (f : ObjectField)

inductive NodeClass
  | document
  | operation
  | fragment
  | variableDefinition
  | selectionSet
  | fragmentSpread
  | inlineFragment
  | field
  | directive
  | argument
  | value
  | objectField
deriving DecidableEq

namespace NodeClass

def all : List NodeClass :=
  [.document, .operation, .fragment, .variableDefinition, .selectionSet, .fragmentSpread,
    .inlineFragment, .field, .directive, .argument, .value, .objectField]

def name : NodeClass → String
  | .document => "document"
  | .operation => "operation"
  | .fragment => "fragment"
  | .variableDefinition => "variable_definition"
  | .selectionSet => "selection_set"
  | .fragmentSpread => "fragment_spread"
  | .inlineFragment => "inline_fragment"
  | .field => "field"
  | .directive => "directive"
  | .argument => "argument"
  | .value => "value"
  | .objectField => "object_field"

end NodeClass

namespace Node

def classOf : Node → NodeClass
  | document _ => .document
  | operation _ => .operation
  | fragment _ => .fragment
  | variableDefinition _ => .variableDefinition
  | selectionSet _ => .selectionSet
  | fragmentSpread _ => .fragmentSpread
  | inlineFragment _ => .inlineFragment
  | field _ => .field
  | directive _ => .directive
  | argument _ => .argument
  | value _ => .value
  | objectField _ => .objectField

def loc : Node → Option Location
  | document _ | selectionSet _ => none
  | operation o => o.loc
  | fragment f => f.loc
  | variableDefinition v => v.loc
  | fragmentSpread s => s.loc
  | inlineFragment i => i.loc
  | field f => f.loc
  | directive d => d.loc
  | argument a => a.loc
  | value v => v.loc
  | objectField f => f.loc

end Node

/-- A traversal comes to a node twice, before and after the nodes below it. -/
inductive Phase
  | enter
  | leave
deriving DecidableEq

end GraphQLCheck
