import GraphQLCheck.Document.Fragments
import GraphQLCheck.Validation.Rule

/-!
Rules on the variables of an operation: their names differ, those that are used are defined, and
those that are defined are used.
-/
namespace GraphQLCheck.Rules

def firsts : List String → List String → List String
  | _, [] => []
  | seen, n :: rest =>
    if seen.contains n then firsts seen rest else n :: firsts (n :: seen) rest

def repeatedNames (problem : String → Problem) (items : List (String × Option Location)) :
    List Diagnostic :=
  (firsts [] (items.map Prod.fst)).flatMap fun name =>
    let places := (items.filter (·.1 == name)).map Prod.snd
    if places.length > 1 then [.atLocations (problem name) places] else []

def uniqueVariableNames : Rule :=
  .stateless (.entering [.operation]) fun _ visit =>
    match visit.phase, visit.node with
    | .enter, .operation o =>
      repeatedNames .repeatedVariable (o.variableDefinitions.map fun d => (d.var.name, d.var.loc))
    | _, _ => []

def undefinedVariables (d : Document) (o : Operation) : List Variable :=
  (d.variableUses o).filter fun x => !o.variableDefinitions.any (·.var.name == x.name)

def noUndefinedVariables : Rule :=
  .stateless (.leaving [.operation]) fun subject visit =>
    match visit.phase, visit.node with
    | .leave, .operation o =>
      (undefinedVariables subject.document o).map fun x =>
        .atLocations (.undefinedVariable x.name (o.name.map (·.text))) [x.loc, o.loc]
    | _, _ => []

def unusedVariables (d : Document) (o : Operation) : List VariableDefinition :=
  let used := (d.variableUses o).map (·.name)
  o.variableDefinitions.filter fun v => !used.contains v.var.name

def noUnusedVariables : Rule :=
  .stateless (.leaving [.operation]) fun subject visit =>
    match visit.phase, visit.node with
    | .leave, .operation o =>
      (unusedVariables subject.document o).map fun v =>
        .atLocations (.unusedVariable v.var.name (o.name.map (·.text))) [v.loc]
    | _, _ => []

end GraphQLCheck.Rules
