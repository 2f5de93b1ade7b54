import GraphQLCheck.Document.Kind
import GraphQLCheck.Schema.Basic
import GraphQLCheck.Token.Reader

/-!
The declarations that a schema is written as, and all that can be wrong with them.
-/
namespace GraphQLCheck

structure RootNames where
  query : Option String
  mutation : Option String
  subscription : Option String

namespace RootNames

def unset : RootNames := ⟨none, none, none⟩

def get? (r : RootNames) : OperationKind → Option String
  | .query => r.query
  | .mutation => r.mutation
  | .subscription => r.subscription

def set (r : RootNames) (kind : OperationKind) (name : String) : RootNames :=
  match kind with
  | .query => { r with query := some name }
  | .mutation => { r with mutation := some name }
  | .subscription => { r with subscription := some name }

end RootNames

/-- In declarations no interface knows what implements it, and no scalar has a check. -/
structure Declarations where
  types : List TypeDef
  directives : List DirectiveDef
  roots : Option RootNames

def Declarations.empty : Declarations := ⟨[], [], none⟩

/-- What can be wrong with the text of a schema: a token that does not fit, a second declaration
of one thing, or a reference to something that does not exist or does not fit. -/
inductive SchemaFault
  | node (kind : NodeKind)
  | token (wanted got : Token)
  | name (wanted : String) (got : Token)
  | operationType (got : Token)
  | directiveName (got : Token)
  | directiveOn (directive : String)
  | directiveLocation (directive : String)
  | definition (got : Token)
  | enumMember (got : Token)
  | reservedEnumValue (enum : String)
  | secondSchema
  | extension
  | secondDirective (directive : String)
  | secondType (type : String)
  | secondRoot (kind : OperationKind)
  | interfaceMissing (interface type : String)
  | fieldType (field type : String)
  | fieldArgumentType (argument type field : String)
  | unionMember (member union : String)
  | directiveArgumentType (argument directive : String)
  | rootNotObject (kind : OperationKind) (type : String)
  | rootMissing (kind : OperationKind) (type : String)

def OperationKind.defaultRoot : OperationKind → String
  | .query => "Query"
  | .mutation => "Mutation"
  | .subscription => "Subscription"

def OperationKind.all : List OperationKind := [.query, .mutation, .subscription]

namespace SchemaFault

def isSyntactic : SchemaFault → Bool
  | .node _ | .token _ _ | .name _ _ | .operationType _ | .directiveName _ | .directiveOn _
  | .directiveLocation _ | .definition _ | .enumMember _ | .reservedEnumValue _ | .secondSchema
  | .extension => true
  | _ => false

def message : SchemaFault → String
  | .node kind => "Invalid " ++ kind.name
  | .token wanted got => "Expected " ++ wanted.shown ++ ", got " ++ got.shown
  | .name wanted got => "Expected " ++ wanted ++ " name, got " ++ got.shown
  | .operationType got => "Expected operation type, got " ++ got.shown
  | .directiveName got => "Expected directive name, got " ++ got.shown
  | .directiveOn d => "Expected `on` in definition of directive `@" ++ d ++ "`"
  | .directiveLocation d => "Expected a directive location for `@" ++ d ++ "`"
  | .definition got => "Expected a type system definition, got " ++ got.shown ++ "."
  | .enumMember got => "Expected either closing brace or value name, got " ++ got.shown
  | .reservedEnumValue e => "Enum `" ++ e ++ "` may not use a reserved value name."
  | .secondSchema => "Must not specify more than one Schema Definition."
  | .extension => "Type system extensions are not supported."
  | .secondDirective d => "There can be only one directive named `@" ++ d ++ "`."
  | .secondType t => "There can be only one type named `" ++ t ++ "`."
  | .secondRoot kind => "There can be only one " ++ kind.name ++ " type in schema."
  | .interfaceMissing i t => "Interface `" ++ i ++ "` on type `" ++ t ++ "` does not exist."
  | .fieldType f t => "Field `" ++ f ++ "` of type `" ++ t ++ "` has an invalid type."
  | .fieldArgumentType a t f =>
    "Argument `" ++ a ++ "` of field `" ++ t ++ "." ++ f ++ "` has an invalid type."
  | .unionMember m u => "Type `" ++ m ++ "` on union `" ++ u ++ "` is not an object type."
  | .directiveArgumentType a d =>
    "Argument `" ++ a ++ "` of directive `@" ++ d ++ "` has an invalid type."
  | .rootNotObject kind t =>
    kind.defaultRoot ++ " root type `" ++ t ++ "` must be an object type."
  | .rootMissing kind t => kind.defaultRoot ++ " root type `" ++ t ++ "` does not exist."

def error (source : List Char) (fault : SchemaFault) (l : Lexeme) : Error :=
  if fault.isSyntactic then l.error source fault.message
  else .plain ("Validation error: " ++ fault.message) (some .graphQL)

end SchemaFault
end GraphQLCheck
