import GraphQLCheck.Validation.Rule

/-!
Rules on directives: they exist, stand where they may, and stand there once unless they may be
repeated.
-/
namespace GraphQLCheck.Rules

def operationLocation : OperationKind → DirectiveLocation
  | .query => .query
  | .mutation => .mutation
  | .subscription => .subscription

def directivesOn : Node → Option (List Directive × DirectiveLocation)
  | .operation o => some (o.directives, operationLocation o.kind)
  | .variableDefinition d => some (d.directives, .variableDefinition)
  | .field f => some (f.directives, .field)
  | .fragmentSpread s => some (s.directives, .fragmentSpread)
  | .inlineFragment i => some (i.directives, .inlineFragment)
  | .fragment f => some (f.directives, .fragmentDefinition)
  | _ => none

def directiveHandlers : Handlers :=
  .entering [.operation, .variableDefinition, .field, .fragmentSpread, .inlineFragment, .fragment]

def misplaced (s : Schema) (location : DirectiveLocation) (d : Directive) : List Diagnostic :=
  match s.directive? d.name with
  | none => [.atLocations (.unknownDirective d.name) [d.loc]]
  | some definition =>
    if definition.isAllowedAt location then []
    else [.atLocations (.misplacedDirective d.name location) [d.loc]]

def knownDirectives : Rule :=
  .stateless directiveHandlers fun subject visit =>
    match visit.phase, directivesOn visit.node with
    | .enter, some (ds, location) => ds.flatMap (misplaced subject.schema location)
    | _, _ => []

/-- Directives that stand at one place for a second time; `seen` are those met there before. -/
def repeatedDirectives (s : Schema) : List Directive → List Directive → List Diagnostic
  | _, [] => []
  | seen, d :: rest =>
    if (s.directive? d.name).any (!·.repeatable) then
      match seen.find? (·.name == d.name) with
      | some first =>
        .atLocations (.repeatedDirective d.name) [first.loc, d.loc]
          :: repeatedDirectives s seen rest
      | none => repeatedDirectives s (d :: seen) rest
    else repeatedDirectives s seen rest

def uniqueDirectivesPerLocation : Rule :=
  .stateless directiveHandlers fun subject visit =>
    match visit.phase, directivesOn visit.node with
    | .enter, some (ds, _) => repeatedDirectives subject.schema [] ds
    | _, _ => []

end GraphQLCheck.Rules
