import GraphQLCheck.Validation.Run
import GraphQLCheck.Validation.StandardRule

/-!
Validating a document against a schema.
-/
namespace GraphQLCheck

/-- The diagnostics of a run in the order in which they were reported, be it that a rule failed or
not; `Run.result` tells the two apart. -/
def validateWith (settings : Settings) (rules : List Rule) (s : Schema) (d : Document) :
    List Diagnostic :=
  (Run.ofDocument settings ⟨s, d⟩ rules).findings.diagnostics

def validate (s : Schema) (d : Document) : List Diagnostic :=
  validateWith .standard (StandardRule.all.map StandardRule.rule) s d

def missingDocument : Error := .plain "Must provide document." (some .usage)

def validate? (settings : Settings) (rules : List Rule) (s : Schema) (d : Option Document) :
    Except Error (List Diagnostic) :=
  match d with
  | some d => .ok (validateWith settings rules s d)
  | none => .error missingDocument

end GraphQLCheck
