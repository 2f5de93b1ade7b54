import GraphQLCheck.Document.Printer
import GraphQLCheck.Validation.Rule

/-!
Rules on the types that a document names: they exist, fragments are on types that fields are
selected on, and variables have types that values may be given for.
-/
namespace GraphQLCheck.Rules

def unknownType (s : Schema) (n : Name) : List Diagnostic :=
  if (s.type? n.text).isNone then
    [.atLocations (.unknownType n.text (Suggestion.near n.text s.typeNames)) [n.loc]]
  else []

def knownTypeNames : Rule :=
  .stateless (.entering [.variableDefinition, .fragment, .inlineFragment]) fun subject visit =>
    match visit.phase, visit.node with
    | .enter, .variableDefinition d => unknownType subject.schema d.type.name
    | .enter, .fragment f => unknownType subject.schema f.condition
    | .enter, .inlineFragment i =>
      (i.condition.map (unknownType subject.schema)).getD []
    | _, _ => []

def leafCondition (s : Schema) (fragment : Option String) (n : Name) : List Diagnostic :=
  match s.type? n.text with
  | some t =>
    if t.isComposite then [] else [.atLocations (.fragmentOnLeaf fragment n.text) [n.loc]]
  | none => []

def fragmentsOnCompositeTypes : Rule :=
  .stateless (.entering [.fragment, .inlineFragment]) fun subject visit =>
    match visit.phase, visit.node with
    | .enter, .fragment f => leafCondition subject.schema (some f.name.text) f.condition
    | .enter, .inlineFragment i =>
      (i.condition.map (leafCondition subject.schema none)).getD []
    | _, _ => []

def variablesAreInputTypes : Rule :=
  .stateless (.entering [.variableDefinition]) fun subject visit =>
    match visit.phase, visit.node with
    | .enter, .variableDefinition d =>
      match subject.schema.type? d.type.name.text with
      | some t =>
        if t.isInput then []
        else
          [.atLocations (.variableOfOutputType d.var.name d.type.print) [d.type.name.loc]]
      | none => []
    | _, _ => []

end GraphQLCheck.Rules
