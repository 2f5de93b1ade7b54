import GraphQLCheck.Document.Printer
import GraphQLCheck.Schema.Builtin
import GraphQLCheck.Validation.Rules.Arguments

/-!
Rules on literal values: they fit the types that are expected of them, and the fields of an
object literal have different names.
-/
namespace GraphQLCheck.Rules

def repeatedFields : List ObjectField → List ObjectField → List Diagnostic
  | _, [] => []
  | seen, f :: rest =>
    match seen.find? (·.name == f.name) with
    | some first =>
      .atLocations (.repeatedInputField f.name) [first.loc, f.loc] :: repeatedFields seen rest
    | none => repeatedFields (f :: seen) rest

def uniqueInputFieldNames : Rule :=
  .stateless (.entering [.value]) fun _ visit =>
    match visit.phase, visit.node with
    | .enter, .value (.object fields _) => repeatedFields [] fields
    | _, _ => []

def enumProblem? (e : EnumType) (v : Value) : Option Problem :=
  match v with
  | .enum name _ =>
    if e.values.contains name then none
    else some (.unknownEnumValue name e.name (Suggestion.near name e.sortedValues))
  | v => some (.notAnEnumValue v.print e.name (Suggestion.near v.print e.sortedValues))

def scalarProblem? (expected : TypeRef) (s : ScalarType) (v : Value) : Option Problem :=
  (s.reject? v).map fun message =>
    if Builtin.scalarNames.contains s.name then .scalarRejected message
    else .customScalarRejected expected.print v.print message

def leafProblem? (s : Schema) (expected : TypeRef) (v : Value) : Option Problem :=
  match s.resolve? expected with
  | some (.scalar t) => scalarProblem? expected t v
  | some (.enum e) => enumProblem? e v
  | some _ => some (.valueOfOtherType expected.print v.print)
  | none => none

def leafReports (s : Schema) (frame : Frame) (v : Value) : List Diagnostic :=
  match frame.input.bind fun t => leafProblem? s t v with
  | some p => [.atLocations p [v.loc]]
  | none => []

/-- The contents of the value at the path `ignored` are not checked, as it was reported as a whole
or could not be. The places of the arguments, fields and variable definitions around the current
value are `places`, the innermost first. -/
structure ValueCheck where
  ignored : Option Path
  places : List (Option Location)

namespace ValueCheck

def start : ValueCheck := ⟨none, []⟩

def enclose (c : ValueCheck) (place : Option Location) : ValueCheck :=
  { c with places := place :: c.places }

def close (c : ValueCheck) : ValueCheck := { c with places := c.places.tail }

def ignore (c : ValueCheck) (p : Path) : ValueCheck := { c with ignored := some p }

end ValueCheck

def nullReports (frame : Frame) (place : Option Location) : List Diagnostic :=
  match frame.input with
  | some t => if t.isNonNull then [.atLocations (.nullNotAllowed t.print) [place]] else []
  | none => []

def inputObject? (s : Schema) (t : Option TypeRef) : Option InputObjectType :=
  (t.bind s.resolve?).bind TypeDef.input?

def missingFieldReports (i : InputObjectType) (fields : List ObjectField) (v : Value) :
    List Diagnostic :=
  (missingInputs i.fields (fields.map (·.name))).map fun f =>
    .atLocations (.missingInputField i.name f.name f.type.print) [v.loc]

def unknownFieldReports (s : Schema) (frame : Frame) (f : ObjectField) : List Diagnostic :=
  if frame.input.isSome then []
  else
    match inputObject? s frame.parentInput with
    | some i =>
      [.atLocations
        (.unknownInputField f.name i.name (Suggestion.near f.name (i.fields.map InputDef.name)))
        [f.loc]]
    | none => []

/-- A list where no list is expected and an object where no input object is are checked as a
whole, and their contents are not checked. -/
def enterValueCheck (s : Schema) (visit : Visit) (v : Value) (c : ValueCheck) :
    ValueCheck × List Diagnostic :=
  let frame := visit.frame
  match v with
  | .variable _ => (c, [])
  | .null => (c, nullReports frame (c.places.headD none))
  | .list _ _ =>
    if (frame.parentInput.bind TypeRef.listItem?).isSome then (c, [])
    else (c.ignore visit.path, leafReports s frame v)
  | .object fields _ =>
    match inputObject? s frame.input with
    | some i => (c, missingFieldReports i fields v)
    | none => (c.ignore visit.path, leafReports s frame v)
  | v => (c, leafReports s frame v)

def valuesOfCorrectType : Rule where
  State := ValueCheck
  start := .start
  handlers :=
    let classes : List NodeClass := [.variableDefinition, .argument, .objectField, .value]
    .union (.entering classes) (.leaving classes)
  react subject visit c :=
    match visit.phase, visit.node with
    | .enter, .variableDefinition d => .next (c.enclose d.loc) []
    | .enter, .argument a => .next (c.enclose a.loc) []
    | .enter, .objectField f =>
      let reports :=
        if c.ignored.isSome then [] else unknownFieldReports subject.schema visit.frame f
      .next (c.enclose f.loc) reports
    | .leave, .variableDefinition _ | .leave, .argument _ | .leave, .objectField _ =>
      .next c.close []
    | .enter, .value v =>
      if c.ignored.isSome then .next c []
      else
        let (c, reports) := enterValueCheck subject.schema visit v c
        .next c reports
    | .leave, .value _ =>
      .next (if c.ignored = some visit.path then { c with ignored := none } else c) []
    | _, _ => .next c []

end GraphQLCheck.Rules
