import GraphQLCheck.Schema.Builtin
import GraphQLCheck.Schema.Declarations.Reader

/-!
Schemas from declarations. Interfaces learn what implements them, built-in scalars and directives
are added, and all references are checked. A schema is accepted when `Schema.faults` finds
nothing; otherwise the first fault counts, in the order of the names of types and then of
directives.
-/
namespace GraphQLCheck

namespace Declarations

def objectsOf (types : List TypeDef) (interface : String) : List String :=
  types.flatMap fun
    | .object o => (o.interfaces.filter (· == interface)).map fun _ => o.name
    | _ => []

def interfacesOf (types : List TypeDef) (interface : String) : List String :=
  types.flatMap fun
    | .interface i => (i.interfaces.filter (· == interface)).map fun _ => i.name
    | _ => []

def link (types : List TypeDef) : TypeDef → TypeDef
  | .interface i => .interface
    { i with
      possibleInterfaces := i.possibleInterfaces ++ interfacesOf types i.name
      possibleTypes := i.possibleTypes ++ objectsOf types i.name }
  | .scalar s => .scalar { s with check := s.check.or (Builtin.check? s.name) }
  | t => t

def toSchema (d : Declarations) : Schema :=
  { types := d.types.map (link d.types) ++ Named.without TypeDef.name d.types Builtin.scalars
    directives :=
      d.directives ++ Named.without DirectiveDef.name d.directives Builtin.directives
    queryRoot := none
    mutationRoot := none
    subscriptionRoot := none }

def rootName? (d : Declarations) (kind : OperationKind) : Option String :=
  match d.roots with
  | some r => r.get? kind
  | none => some kind.defaultRoot

def root? (d : Declarations) (s : Schema) (kind : OperationKind) : Option ObjectType := do
  let name ← d.rootName? kind
  let type ← s.type? name
  type.object?

/-- Root types that a schema definition names have to exist. -/
def rootFaults (d : Declarations) (s : Schema) (kind : OperationKind) : List SchemaFault :=
  match d.rootName? kind with
  | none => []
  | some name =>
    match s.type? name with
    | some (.object _) => []
    | some _ => [.rootNotObject kind name]
    | none => if d.roots.isSome then [.rootMissing kind name] else []

end Declarations

namespace Schema

def hasInputType (s : Schema) (i : InputDef) : Bool :=
  (s.resolve? i.type).any TypeDef.isInput

def inputFaults (s : Schema) (fault : String → SchemaFault) (inputs : List InputDef) :
    List SchemaFault :=
  ((Named.sorted InputDef.name inputs).filter fun i => !s.hasInputType i).map
    fun i => fault i.name

def fieldFaults (s : Schema) (type : String) (f : FieldDef) : List SchemaFault :=
  (if (s.resolve? f.type).any TypeDef.isOutput then [] else [.fieldType f.name type])
    ++ s.inputFaults (.fieldArgumentType · type f.name) f.arguments

def interfaceFaults (s : Schema) (type : String) (interfaces : List String) :
    List SchemaFault :=
  (interfaces.filter fun i => ((s.type? i).bind TypeDef.interface?).isNone).map
    (.interfaceMissing · type)

def typeFaults (s : Schema) : TypeDef → List SchemaFault
  | .object o => s.interfaceFaults o.name o.interfaces
    ++ (Named.sorted FieldDef.name o.fields).flatMap (s.fieldFaults o.name)
  | .interface i => s.interfaceFaults i.name i.interfaces
    ++ (Named.sorted FieldDef.name i.fields).flatMap (s.fieldFaults i.name)
  | .union u =>
    (u.possibleTypes.filter fun m => ((s.type? m).bind TypeDef.object?).isNone).map
      (.unionMember · u.name)
  | .input i => s.inputFaults (.fieldType · i.name) i.fields
  | .scalar _ | .enum _ => []

def directiveFaults (s : Schema) (d : DirectiveDef) : List SchemaFault :=
  s.inputFaults (.directiveArgumentType · d.name) d.arguments

def faults (s : Schema) : List SchemaFault :=
  (Named.sorted TypeDef.name s.types).flatMap s.typeFaults
    ++ (Named.sorted DirectiveDef.name s.directives).flatMap s.directiveFaults

end Schema

namespace Declarations

def faults (d : Declarations) : List SchemaFault :=
  d.toSchema.faults ++ OperationKind.all.flatMap (d.rootFaults d.toSchema)

def load (d : Declarations) : Except SchemaFault Schema :=
  match d.faults with
  | fault :: _ => .error fault
  | [] =>
    let s := d.toSchema
    .ok { s with
      queryRoot := d.root? s .query
      mutationRoot := d.root? s .mutation
      subscriptionRoot := d.root? s .subscription }

end Declarations

def Schema.read (source : String) : Except Error Schema := do
  let d ← readDeclarations.run SchemaFault.error false source
  match d.load with
  | .ok s => .ok s
  | .error fault =>
    .error (.plain ("Validation error: " ++ fault.message) (some .graphQL))

end GraphQLCheck
