import GraphQLCheck.Validation.Rule

/-!
Rules on the operations of a document: their names differ, and an operation without a name is
the only one.
-/
namespace GraphQLCheck.Rules

/-- Names that were met before, with the place where each was met first. -/
abbrev Known : Type := List (String × Option Location)

def Known.first? (k : Known) (name : String) : Option (Option Location) :=
  (k.find? (·.1 == name)).map Prod.snd

def meet (k : Known) (n : Name) (problem : String → Problem) : Known × List Diagnostic :=
  match k.first? n.text with
  | some first => (k, [.atLocations (problem n.text) [first, n.loc]])
  | none => ((n.text, n.loc) :: k, [])

def uniqueOperationNames : Rule where
  State := Known
  start := []
  handlers := .entering [.operation]
  react _ visit known :=
    match visit.phase, visit.node with
    | .enter, .operation o =>
      match o.name with
      | some n =>
        let (known, reports) := meet known n .repeatedOperation
        .next known reports
      | none => .next known []
    | _, _ => .next known []

def loneAnonymousOperation : Rule where
  State := Nat
  start := 0
  handlers := .entering [.document, .operation]
  react _ visit count :=
    match visit.phase, visit.node with
    | .enter, .document d => .next d.operations.length []
    | .enter, .operation o =>
      let reports :=
        if o.name.isNone && count > 1 then [.atLocations .anonymousNotAlone [o.loc]] else []
      .next count reports
    | _, _ => .next count []

end GraphQLCheck.Rules
