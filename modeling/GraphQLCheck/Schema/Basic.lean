import GraphQLCheck.Document.Basic
import GraphQLCheck.Schema.DirectiveLocation
import GraphQLCheck.Named
import GraphQLCheck.Schema.TypeRef

/-!
Schemas: the types and directives that documents are checked against. Types refer to each other
by name only and are looked up when they are needed, so they may refer to each other in circles.
-/
namespace GraphQLCheck

/-- An argument or a field of an input object. -/
structure InputDef where
  name : String
  type : TypeRef
  defaultValue : Option Value
deriving DecidableEq

/-- A value has to be given where null is not allowed and there is no default. -/
def InputDef.isRequired (i : InputDef) : Bool := i.type.isNonNull && i.defaultValue.isNone

structure FieldDef where
  name : String
  type : TypeRef
  arguments : List InputDef

/-- Checks a literal; the answer is why it is rejected, if it is. -/
abbrev LiteralCheck : Type := Value → Option String

/-- A scalar without a check accepts every literal. -/
structure ScalarType where
  name : String
  check : Option LiteralCheck

structure ObjectType where
  name : String
  fields : List FieldDef
  interfaces : List String

/-- The objects and interfaces that implement the interface are named by `possibleTypes` and
`possibleInterfaces`. -/
structure InterfaceType where
  name : String
  fields : List FieldDef
  interfaces : List String
  possibleInterfaces : List String
  possibleTypes : List String

structure UnionType where
  name : String
  possibleTypes : List String

structure EnumType where
  name : String
  values : List String

structure InputObjectType where
  name : String
  fields : List InputDef

inductive TypeDef
  | scalar (s : ScalarType)
  | object (o : ObjectType)
  | interface (i : InterfaceType)
  | union (u : UnionType)
  | enum (e : EnumType)
  | input (i : InputObjectType)

structure DirectiveDef where
  name : String
  arguments : List InputDef
  locations : List DirectiveLocation
  repeatable : Bool

/-- A root is the object it was set to, whatever becomes of the type of that name. -/
structure Schema where
  types : List TypeDef
  directives : List DirectiveDef
  queryRoot : Option ObjectType
  mutationRoot : Option ObjectType
  subscriptionRoot : Option ObjectType

def FieldDef.same (f g : FieldDef) : Bool :=
  f.name == g.name && f.type == g.type
    && Named.agree InputDef.name (fun i j => decide (i = j)) f.arguments g.arguments

/-- Objects are compared by all that they hold; the order of their fields does not show. -/
def ObjectType.same (o p : ObjectType) : Bool :=
  o.name == p.name && o.interfaces == p.interfaces
    && Named.agree FieldDef.name FieldDef.same o.fields p.fields

def FieldDef.argument? (f : FieldDef) (name : String) : Option InputDef :=
  Named.find? InputDef.name name f.arguments

def InputObjectType.field? (i : InputObjectType) (name : String) : Option InputDef :=
  Named.find? InputDef.name name i.fields

namespace DirectiveDef

def argument? (d : DirectiveDef) (name : String) : Option InputDef :=
  Named.find? InputDef.name name d.arguments

def isAllowedAt (d : DirectiveDef) (l : DirectiveLocation) : Bool := d.locations.contains l

end DirectiveDef

namespace ScalarType

def reject? (s : ScalarType) (v : Value) : Option String :=
  match s.check with
  | some check => check v
  | none => none

def shown (s : ScalarType) : String :=
  "SchemaScalar \x7b name: " ++ Text.quoted s.name ++ ", parse_literal: "
    ++ (if s.check.isSome then "true" else "false") ++ " \x7d"

end ScalarType

def EnumType.sortedValues (e : EnumType) : List String := sortedNames e.values

namespace TypeDef

def name : TypeDef → String
  | scalar t => t.name
  | object t => t.name
  | interface t => t.name
  | union t => t.name
  | enum t => t.name
  | input t => t.name

def object? : TypeDef → Option ObjectType
  | object o => some o
  | _ => none

def interface? : TypeDef → Option InterfaceType
  | interface i => some i
  | _ => none

def union? : TypeDef → Option UnionType
  | union u => some u
  | _ => none

def enum? : TypeDef → Option EnumType
  | enum e => some e
  | _ => none

def input? : TypeDef → Option InputObjectType
  | input i => some i
  | _ => none

def isInput : TypeDef → Bool
  | scalar _ | enum _ | input _ => true
  | object _ | interface _ | union _ => false

def isOutput : TypeDef → Bool
  | input _ => false
  | scalar _ | object _ | interface _ | union _ | enum _ => true

def isComposite : TypeDef → Bool
  | object _ | interface _ | union _ => true
  | scalar _ | enum _ | input _ => false

def isLeaf : TypeDef → Bool
  | scalar _ | enum _ => true
  | object _ | interface _ | union _ | input _ => false

def isAbstract : TypeDef → Bool
  | interface _ | union _ => true
  | scalar _ | object _ | enum _ | input _ => false

def fields? : TypeDef → Option (List FieldDef)
  | object o => some o.fields
  | interface i => some i.fields
  | _ => none

def field? (t : TypeDef) (name : String) : Option FieldDef :=
  t.fields?.bind (Named.find? FieldDef.name name)

def interfaces? : TypeDef → Option (List String)
  | object o => some o.interfaces
  | interface i => some i.interfaces
  | _ => none

def possibleTypes? : TypeDef → Option (List String)
  | interface i => some i.possibleTypes
  | union u => some u.possibleTypes
  | _ => none

/-- Whether one type stands in for another: an object for a union that names it, an object or
interface for an interface it implements, an object for itself. -/
def isSubType (of sub : TypeDef) : Bool :=
  match of, sub with
  | union u, object o => u.possibleTypes.contains o.name
  | interface i, object o => o.interfaces.contains i.name
  | interface i, interface j => j.interfaces.contains i.name
  | object o, object p => o.same p
  | _, _ => false

end TypeDef

namespace Schema

def empty : Schema := ⟨[], [], none, none, none⟩

def isEmpty (s : Schema) : Bool :=
  s.types.isEmpty && s.directives.isEmpty && s.queryRoot.isNone && s.mutationRoot.isNone
    && s.subscriptionRoot.isNone

def type? (s : Schema) (name : String) : Option TypeDef := Named.find? TypeDef.name name s.types

def directive? (s : Schema) (name : String) : Option DirectiveDef :=
  Named.find? DirectiveDef.name name s.directives

def addType (s : Schema) (t : TypeDef) : Schema :=
  { s with types := Named.put TypeDef.name t s.types }

def addDirective (s : Schema) (d : DirectiveDef) : Schema :=
  { s with directives := Named.put DirectiveDef.name d s.directives }

def root? (s : Schema) : OperationKind → Option ObjectType
  | .query => s.queryRoot
  | .mutation => s.mutationRoot
  | .subscription => s.subscriptionRoot

def setRoot (s : Schema) (kind : OperationKind) (o : ObjectType) : Schema :=
  match kind with
  | .query => { s with queryRoot := some o }
  | .mutation => { s with mutationRoot := some o }
  | .subscription => { s with subscriptionRoot := some o }

def typeNames (s : Schema) : List String := sortedNames (s.types.map TypeDef.name)

def directiveNames (s : Schema) : List String := sortedNames (s.directives.map DirectiveDef.name)

def resolve? (s : Schema) (t : TypeRef) : Option TypeDef := s.type? t.name

def withScalarCheck (s : Schema) (name : String) (check : LiteralCheck) : Schema :=
  match s.type? name with
  | some (.scalar t) => s.addType (.scalar { t with check := some check })
  | _ => s

/-- The objects that may stand for a type, in the order and as often as they are named. -/
def possibleObjects (s : Schema) : TypeDef → List ObjectType
  | .object o => [o]
  | t => (t.possibleTypes?.getD []).filterMap fun n => (s.type? n).bind TypeDef.object?

end Schema
end GraphQLCheck
