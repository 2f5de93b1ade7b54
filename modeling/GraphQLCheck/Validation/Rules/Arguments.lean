import GraphQLCheck.Validation.Rules.Variables

/-!
Rules on arguments: what they are given to knows them, no name is given twice, and those that are
required are given.
-/
namespace GraphQLCheck.Rules

def knownArgumentNames : Rule :=
  .stateless (.entering [.argument]) fun _ visit =>
    let near (a : Argument) (inputs : List InputDef) :=
      Suggestion.near a.name (inputs.map InputDef.name)
    match visit.phase, visit.node, visit.frame.argument, visit.frame.owner with
    | .enter, .argument a, none, some (.field f) =>
      match visit.frame.parent with
      | some parent =>
        [.atLocations
          (.unknownFieldArgument a.name parent.name f.name (near a f.arguments)) [a.loc]]
      | none => []
    | .enter, .argument a, none, some (.directive d) =>
      [.atLocations (.unknownDirectiveArgument a.name d.name (near a d.arguments)) [a.loc]]
    | _, _, _, _ => []

def uniqueArgumentNames : Rule :=
  .stateless (.entering [.field, .directive]) fun _ visit =>
    let repeated (as : List Argument) :=
      repeatedNames .repeatedArgument (as.map fun a => (a.name, a.loc))
    match visit.phase, visit.node with
    | .enter, .field f => repeated f.arguments
    | .enter, .directive d => repeated d.arguments
    | _, _ => []

def missingInputs (inputs : List InputDef) (given : List String) : List InputDef :=
  (Named.sorted InputDef.name inputs).filter fun i => i.isRequired && !given.contains i.name

def providedRequiredArguments : Rule :=
  .stateless (.entering [.field, .directive]) fun _ visit =>
    match visit.phase, visit.node, visit.frame.field, visit.frame.directive with
    | .enter, .field f, some definition, _ =>
      (missingInputs definition.arguments (f.arguments.map (·.name))).map fun i =>
        .atLocations (.missingFieldArgument i.name i.type.print definition.name) [f.loc]
    | .enter, .directive d, _, some definition =>
      (missingInputs definition.arguments (d.arguments.map (·.name))).map fun i =>
        .atLocations (.missingDirectiveArgument i.name i.type.print definition.name) [d.loc]
    | _, _, _, _ => []

end GraphQLCheck.Rules
