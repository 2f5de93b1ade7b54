import GraphQLCheck.Document.Fragments
import GraphQLCheck.Validation.Rules.Operations

/-!
Rules on fragments: their names differ, spreads name fragments that exist, every fragment is
reached from an operation, and no fragment leads back to itself.
-/
namespace GraphQLCheck.Rules

def uniqueFragmentNames : Rule where
  State := Known
  start := []
  handlers := .entering [.fragment]
  react _ visit known :=
    match visit.phase, visit.node with
    | .enter, .fragment f =>
      let (known, reports) := meet known f.name .repeatedFragment
      .next known reports
    | _, _ => .next known []

def knownFragmentNames : Rule :=
  .stateless (.entering [.fragmentSpread]) fun subject visit =>
    match visit.phase, visit.node with
    | .enter, .fragmentSpread s =>
      if (subject.document.fragment? s.name.text).isNone then
        [.atLocations (.unknownFragment s.name.text) [s.name.loc]]
      else []
    | _, _ => []

structure Entered where
  operations : List Operation
  fragments : List Fragment

def Entered.unused (e : Entered) (d : Document) : List Fragment :=
  let used := e.operations.flatMap fun o => (d.referencedFragments o).map (·.name.text)
  e.fragments.filter fun f => !used.contains f.name.text

def noUnusedFragments : Rule where
  State := Entered
  start := ⟨[], []⟩
  handlers := .union (.entering [.operation, .fragment]) (.leaving [.document])
  react subject visit entered :=
    match visit.phase, visit.node with
    | .enter, .operation o =>
      .next { entered with operations := entered.operations ++ [o] } []
    | .enter, .fragment f =>
      .next { entered with fragments := entered.fragments ++ [f] } []
    | .leave, .document _ =>
      .next entered ((entered.unused subject.document).map fun f =>
        .atLocations (.unusedFragment f.name.text) [f.loc])
    | _, _ => .next entered []

structure CycleSearch where
  searched : List String
  found : List Diagnostic

def cycleDiagnostic (name : String) (cycle : List FragmentSpread) : Diagnostic :=
  .atLocations (.fragmentCycle name (cycle.dropLast.map (·.name.text))) (cycle.map (·.loc))

/-- Searches from a fragment along its spreads, in depth. `trail` are the spreads that led there
and `starts` tells, for each fragment on the way, how many of them led to it. Every fragment is
searched once, so the number of fragments bounds the depth. -/
def searchCycles (d : Document) :
    Nat → Fragment → List FragmentSpread → List (String × Nat) → CycleSearch → CycleSearch
  | 0, _, _, _, c => c
  | n + 1, f, trail, starts, c =>
    let name := f.name.text
    if c.searched.contains name then c
    else
      let starts := (name, trail.length) :: starts
      (Selection.spreads f.selections).foldl
        (fun c s =>
          let trail := trail ++ [s]
          match starts.find? (·.1 == s.name.text) with
          | some (_, start) =>
            { c with found := c.found ++ [cycleDiagnostic s.name.text (trail.drop start)] }
          | none =>
            match d.fragment? s.name.text with
            | some g => searchCycles d n g trail starts c
            | none => c)
        { c with searched := name :: c.searched }

def noFragmentCycles : Rule where
  State := List String
  start := []
  handlers := .entering [.fragment]
  react subject visit searched :=
    match visit.phase, visit.node with
    | .enter, .fragment f =>
      let d := subject.document
      let c := searchCycles d (d.fragments.length + 1) f [] [] ⟨searched, []⟩
      .next c.searched c.found
    | _, _ => .next searched []

end GraphQLCheck.Rules
