import GraphQLCheck.Sorting.Stable
import GraphQLCheck.Validation.Rule

/-!
Rules on fields: the type they are selected on has them, and they have selections exactly where
their type has fields.
-/
namespace GraphQLCheck.Rules

def scalarLeafs : Rule :=
  .stateless (.entering [.field]) fun subject visit =>
    match visit.phase, visit.node, visit.frame.output with
    | .enter, .field f, some output =>
      match subject.schema.resolve? output with
      | some t =>
        if t.isLeaf then
          if f.selections.isEmpty then []
          else [.atLocations (.selectionOnLeaf f.name output.print) [f.loc]]
        else if f.selections.isEmpty then
          [.atLocations (.selectionMissing f.name output.print) [f.loc]]
        else []
      | none => []
    | _, _, _ => []

structure Candidate where
  type : TypeDef
  count : Nat

def countInterface (i : InterfaceType) : List Candidate → List Candidate
  | [] => [⟨.interface i, 1⟩]
  | c :: cs =>
    if c.type.name = i.name then { c with count := c.count + 1 } :: cs
    else c :: countInterface i cs

def countInterfaces (s : Schema) (field : String) (o : ObjectType) (cs : List Candidate) :
    List Candidate :=
  o.interfaces.foldl
    (fun cs name =>
      match (s.type? name).bind TypeDef.interface? with
      | some i =>
        if ((TypeDef.interface i).field? field).isSome then countInterface i cs else cs
      | none => cs) cs

/-- The objects behind an abstract type that have a field, and those interfaces of theirs that
have it too. -/
def candidates (s : Schema) (parent : TypeDef) (field : String) : List Candidate :=
  (s.possibleObjects parent).foldl
    (fun cs o =>
      if ((TypeDef.object o).field? field).isSome then
        countInterfaces s field o (cs ++ [⟨.object o, 1⟩])
      else cs) []

/-- More counts first, then an interface before what it stands for, then by name. -/
def Candidate.compare (a b : Candidate) : Ordering :=
  if b.count < a.count then .lt
  else if a.count < b.count then .gt
  else if a.type.interface?.isSome && a.type.isSubType b.type then .lt
  else if b.type.interface?.isSome && b.type.isSubType a.type then .gt
  else Ord.compare a.type.name b.type.name

/-- Nothing if the sort found out that `Candidate.compare` is no order on the candidates. It need
not be one: an interface comes before what it stands for, whatever their names are. -/
def sortCandidates? (cs : List Candidate) : Option (List Candidate) :=
  Sorting.stable? (fun a b => a.compare b = .lt) cs

def narrowerTypes? (s : Schema) (parent : TypeDef) (field : String) : Option (List String) :=
  if parent.isAbstract then
    (sortCandidates? (candidates s parent field)).map fun cs => cs.map (·.type.name)
  else some []

def nearFields (parent : TypeDef) (field : String) : List String :=
  match parent.fields? with
  | some fs => Suggestion.near field (fs.map FieldDef.name)
  | none => []

def noOrder : String :=
  "user-provided comparison function does not correctly implement a total order"

def fieldsOnCorrectType : Rule where
  State := Unit
  start := ()
  handlers := .entering [.field]
  react subject visit _ :=
    match visit.phase, visit.node, visit.frame.parent, visit.frame.field with
    | .enter, .field f, some parent, none =>
      match narrowerTypes? subject.schema parent f.name with
      | some narrower =>
        let near := if narrower.isEmpty then nearFields parent f.name else []
        .next () [.atLocations (.unknownField f.name parent.name narrower near) [f.loc]]
      | none => .fail () noOrder
    | _, _, _, _ => .next () []

end GraphQLCheck.Rules
