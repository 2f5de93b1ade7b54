import GraphQLCheck.Document.Value

/-!
Documents: operations and fragments, the selections they make, and the arguments and directives
on them.
-/
namespace GraphQLCheck

structure Name where
  text : String
  loc : Option Location
deriving DecidableEq

inductive TypeExpr
  | named (name : Name)
  | list (item : TypeExpr)
  | nonNull (type : TypeExpr)
deriving DecidableEq

structure Argument where
  name : String
  value : Value
  loc : Option Location

structure Directive where
  name : String
  arguments : List Argument
  loc : Option Location

structure FragmentSpread where
  name : Name
  directives : List Directive
  loc : Option Location

mutual

inductive Selection
  | field (f : Field)
  | spread (s : FragmentSpread)
  | inline (i : InlineFragment)

structure Field where
  responseAlias : Option String
  name : String
  arguments : List Argument
  directives : List Directive
  selections : List Selection
  loc : Option Location

structure InlineFragment where
  condition : Option Name
  directives : List Directive
  selections : List Selection
  loc : Option Location

end

structure VariableDefinition where
  var : Variable
  type : TypeExpr
  defaultValue : Option Value
  directives : List Directive
  loc : Option Location

inductive OperationKind
  | query
  | mutation
  | subscription
deriving DecidableEq

structure Operation where
  kind : OperationKind
  name : Option Name
  variableDefinitions : List VariableDefinition
  directives : List Directive
  selections : List Selection
  loc : Option Location

structure Fragment where
  name : Name
  condition : Name
  directives : List Directive
  selections : List Selection
  loc : Option Location

inductive Definition
  | operation (o : Operation)
  | fragment (f : Fragment)

/-- A document keeps the length of its source in bytes as `size`. -/
structure Document where
  definitions : List Definition
  size : Nat

namespace TypeExpr

def name : TypeExpr → Name
  | named n => n
  | list t | nonNull t => t.name

def isNonNull : TypeExpr → Bool
  | nonNull _ => true
  | _ => false

end TypeExpr

def Argument.find? (name : String) (arguments : List Argument) : Option Argument :=
  arguments.find? (·.name == name)

def Field.responseName (f : Field) : String := f.responseAlias.getD f.name

def OperationKind.name : OperationKind → String
  | query => "query"
  | mutation => "mutation"
  | subscription => "subscription"

namespace Document

def operations (d : Document) : List Operation :=
  d.definitions.filterMap fun | .operation o => some o | .fragment _ => none

def fragments (d : Document) : List Fragment :=
  d.definitions.filterMap fun | .fragment f => some f | .operation _ => none

/-- Of several fragments of one name the first counts. -/
def fragment? (d : Document) (name : String) : Option Fragment :=
  d.fragments.find? (·.name.text == name)

end Document
end GraphQLCheck
