import GraphQLCheck.Text.JsonString
import GraphQLCheck.Traversal.Path
import GraphQLCheck.Validation.Problem

/-!
Diagnostics: a problem with the places it was found at and the path of the node that showed it.
-/
namespace GraphQLCheck

/-- Only the diagnostic that ends a run has no locations; where nodes do not know their places
the list is empty. -/
structure Diagnostic where
  problem : Problem
  locations : Option (List Location)
  path : Option Path
deriving DecidableEq

namespace Diagnostic

def atLocations (problem : Problem) (locations : List (Option Location)) : Diagnostic :=
  ⟨problem, some (locations.filterMap id), none⟩

def limit : Diagnostic := ⟨.limitReached, none, none⟩

def message (d : Diagnostic) : String := d.problem.message

/-- Gives a diagnostic with locations a path, unless its rule gave it one. -/
def attachPath (p : Path) (d : Diagnostic) : Diagnostic :=
  if d.path.isNone && d.locations.isSome then { d with path := some p } else d

def render (d : Diagnostic) : String :=
  d.message ++ String.join ((d.locations.getD []).map fun l => " (" ++ l.render ++ ")")

def pathTexts (d : Diagnostic) : Option (List String) :=
  d.path.map fun p => p.segments.map Segment.render

def locationJson (l : Location) : String :=
  "\x7b\"line\":" ++ toString l.line ++ ",\"column\":" ++ toString l.column ++ "\x7d"

def toJson (d : Diagnostic) : String :=
  let locations := match d.locations with
    | some ls => ",\"locations\":[" ++ ",".intercalate (ls.map locationJson) ++ "]"
    | none => ""
  let path := match d.pathTexts with
    | some ss => ",\"path\":[" ++ ",".intercalate (ss.map Text.jsonString) ++ "]"
    | none => ""
  "\x7b\"message\":" ++ Text.jsonString d.message ++ locations ++ path ++ "\x7d"

end Diagnostic
end GraphQLCheck
