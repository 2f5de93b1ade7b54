import GraphQLCheck.Document.Basic

/-!
Which fragments and variables an operation reaches. Spreads are followed to the first fragment of
their name; a fragment that is reached in several ways counts once, and names without a fragment
lead nowhere.
-/
namespace GraphQLCheck

namespace Selection

def spread? : Selection → Option FragmentSpread
  | spread s => some s
  | field _ | inline _ => none

def directSpreads (set : List Selection) : List FragmentSpread := set.filterMap spread?

mutual

/-- The spreads in the selection sets of fields and inline fragments, at any depth. The last
selection set comes first. -/
def nestedSpreads : List Selection → List FragmentSpread
  | [] => []
  | s :: rest => nestedSpreads rest ++ spreadsBelow s

def spreadsBelow : Selection → List FragmentSpread
  | .field ⟨_, _, _, _, set, _⟩ => directSpreads set ++ nestedSpreads set
  | .spread _ => []
  | .inline ⟨_, _, set, _⟩ => directSpreads set ++ nestedSpreads set

end

def spreads (set : List Selection) : List FragmentSpread :=
  directSpreads set ++ nestedSpreads set

end Selection

namespace Document

def unseen (d : Document) : List String → List FragmentSpread → List Fragment × List String
  | seen, [] => ([], seen)
  | seen, s :: rest =>
    if seen.contains s.name.text then d.unseen seen rest
    else
      let (found, all) := d.unseen (s.name.text :: seen) rest
      match d.fragment? s.name.text with
      | some f => (f :: found, all)
      | none => (found, all)

/-- Fragments reached from the selection sets that wait, the next one first. Each further
selection set is that of a fragment not reached before, so their number bounds the steps. -/
def reachWithin (d : Document) : Nat → List String → List (List Selection) → List Fragment
  | 0, _, _ => []
  | _ + 1, _, [] => []
  | n + 1, seen, set :: waiting =>
    let (found, seen) := d.unseen seen (Selection.spreads set)
    found ++ d.reachWithin n seen (found.reverse.map (·.selections) ++ waiting)

def referencedFragments (d : Document) (o : Operation) : List Fragment :=
  d.reachWithin (d.fragments.length + 1) [] [o.selections]

end Document

mutual

def Value.variableUses : Value → List Variable
  | .variable x => [x]
  | .list items _ => Value.variableUsesOfAll items
  | .object fields _ => ObjectField.variableUsesOfAll fields
  | .null | .boolean _ _ | .int _ _ | .float _ _ | .string _ _ | .enum _ _ => []

def Value.variableUsesOfAll : List Value → List Variable
  | [] => []
  | x :: xs => x.variableUses ++ Value.variableUsesOfAll xs

def ObjectField.variableUsesOfAll : List ObjectField → List Variable
  | [] => []
  | f :: fs => f.variableUses ++ ObjectField.variableUsesOfAll fs

def ObjectField.variableUses : ObjectField → List Variable
  | ⟨_, value, _⟩ => value.variableUses

end

def Argument.variableUsesOfAll (as : List Argument) : List Variable :=
  as.flatMap (·.value.variableUses)

def Directive.variableUsesOfAll (ds : List Directive) : List Variable :=
  ds.flatMap fun d => Argument.variableUsesOfAll d.arguments

mutual

def Selection.variableUses : Selection → List Variable
  | .field ⟨_, _, arguments, directives, set, _⟩ =>
    Argument.variableUsesOfAll arguments ++ Directive.variableUsesOfAll directives
      ++ Selection.variableUsesOfAll set
  | .spread s => Directive.variableUsesOfAll s.directives
  | .inline ⟨_, directives, set, _⟩ =>
    Directive.variableUsesOfAll directives ++ Selection.variableUsesOfAll set

def Selection.variableUsesOfAll : List Selection → List Variable
  | [] => []
  | s :: ss => s.variableUses ++ Selection.variableUsesOfAll ss

end

def Operation.variableUses (o : Operation) : List Variable :=
  Directive.variableUsesOfAll o.directives ++ Selection.variableUsesOfAll o.selections

def Fragment.variableUses (f : Fragment) : List Variable :=
  Directive.variableUsesOfAll f.directives ++ Selection.variableUsesOfAll f.selections

def Document.variableUses (d : Document) (o : Operation) : List Variable :=
  o.variableUses ++ (d.referencedFragments o).flatMap Fragment.variableUses

end GraphQLCheck
