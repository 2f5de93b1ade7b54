import GraphQLCheck.Proofs.Document.VariableUse
import GraphQLCheck.Proofs.Validation.Outline

/-!
The rules on the variables of an operation report what they should: every use of a variable that
the operation does not define, and every definition of a variable that it does not use.
-/
namespace GraphQLCheck

namespace Rule

def leavingOperation (reports : Document → Operation → List Diagnostic) : Rule :=
  .stateless (.leaving [.operation]) fun subject visit =>
    match visit.phase, visit.node with
    | .leave, .operation o => reports subject.document o
    | _, _ => []

variable (reports : Document → Operation → List Diagnostic)

theorem outlining_leavingOperation : (leavingOperation reports).Outlining where
  asks slot h := by
    have hoperation : ∀ phase c, (Handlers.leaving [.operation]).has ⟨phase, c⟩ = true →
        c.level ≤ 1 := by
      intro phase c
      cases phase <;> cases c <;> decide
    exact hoperation slot.phase slot.node h
  blind _ _ _ := rfl
  reads subject visit state := by
    obtain ⟨phase, node, path, frame, depth⟩ := visit
    cases phase <;> cases node <;> rfl
  idle subject visit state h := by
    obtain ⟨phase, node, path, frame, depth⟩ := visit
    have hoperation : (Handlers.leaving [.operation]).has ⟨.leave, .operation⟩ ≠ false := by decide
    cases phase with
    | enter => rfl
    | leave =>
      cases node with
      | operation o => exact absurd h hoperation
      | _ => rfl
  unfailing subject visit state := rfl

theorem reported_leavingOperation (subject : Subject) (xs : List Definition) (size : Nat) :
    (leavingOperation reports).reported subject (xs.flatMap Definition.outline) () =
      (Document.operations ⟨xs, size⟩).flatMap (reports subject.document) := by
  induction xs with
  | nil => rfl
  | cons x xs ih =>
    refine ((outlining_leavingOperation reports).reported_cons subject x xs ()).trans ?_
    cases x with
    | operation o => exact congrArg (reports subject.document o ++ ·) ih
    | fragment f => exact ih

theorem result_leavingOperation (settings : Settings) (subject : Subject) :
    ∃ E, (Run.ofDocument (settings.upTo none) subject [leavingOperation reports]).result = .ok E ∧
      E.map Diagnostic.withoutPath =
        (subject.document.operations.flatMap (reports subject.document)).map
          Diagnostic.withoutPath := by
  have h := outlining_leavingOperation reports
  obtain ⟨E, hresult, hreports⟩ := h.result_outline (continues_stateless _ _) settings subject
  have hdocument := h.reported_document subject subject.document ()
  have hdefinitions := reported_leavingOperation reports subject subject.document.definitions
    subject.document.size
  refine ⟨E, hresult, hreports.trans (congrArg _ (hdocument.trans ?_))⟩
  exact (List.append_nil _).trans hdefinitions

end Rule

namespace Rules

variable (d : Document) (o : Operation)

def undefinedReports : List Diagnostic :=
  (undefinedVariables d o).map fun x =>
    .atLocations (.undefinedVariable x.name (o.name.map (·.text))) [x.loc, o.loc]

def unusedReports : List Diagnostic :=
  (unusedVariables d o).map fun v =>
    .atLocations (.unusedVariable v.var.name (o.name.map (·.text))) [v.loc]

theorem noUndefinedVariables_eq : noUndefinedVariables = .leavingOperation undefinedReports := rfl

theorem noUnusedVariables_eq : noUnusedVariables = .leavingOperation unusedReports := rfl

theorem undefinedReports_eq :
    undefinedReports d o =
      ((d.uses o).filter fun u => ∀ v ∈ o.variableDefinitions, v.var.name ≠ u.var.name).map fun u =>
        .atLocations (.undefinedVariable u.var.name (o.name.map (·.text))) [u.var.loc, o.loc] := by
  rw [undefinedReports, undefinedVariables, ← d.map_var_uses, List.filter_map, List.map_map]
  refine congrArg _ (List.filter_congr fun u _ => ?_)
  rw [Bool.eq_iff_iff]
  simp

theorem unusedReports_eq :
    unusedReports d o =
      (o.variableDefinitions.filter fun v => ∀ u ∈ d.uses o, u.var.name ≠ v.var.name).map fun v =>
        .atLocations (.unusedVariable v.var.name (o.name.map (·.text))) [v.loc] := by
  rw [unusedReports, unusedVariables, ← d.map_var_uses]
  refine congrArg _ (List.filter_congr fun v _ => ?_)
  rw [Bool.eq_iff_iff]
  simp

theorem withoutPath_undefinedReports :
    (undefinedReports d o).map Diagnostic.withoutPath = undefinedReports d o := by
  rw [undefinedReports, List.map_map]
  rfl

theorem withoutPath_unusedReports :
    (unusedReports d o).map Diagnostic.withoutPath = unusedReports d o := by
  rw [unusedReports, List.map_map]
  rfl

variable {d} {e : Document}

theorem undefinedReports_congr (h : d.fragments = e.fragments) :
    undefinedReports d o = undefinedReports e o := by
  rw [undefinedReports, undefinedVariables, Document.variableUses_congr h]
  rfl

theorem unusedReports_congr (h : d.fragments = e.fragments) :
    unusedReports d o = unusedReports e o := by
  rw [unusedReports, unusedVariables, Document.variableUses_congr h]
  rfl

/-- The rules on undefined and on unused variables report for each operation of a document in
turn, and what they report for it hangs on that operation and the fragments of the document
alone: one diagnostic for every use of a variable without definition, and one for every
definition of a variable without use. -/
theorem variableReports_exact :
    ∃ undefined unused : List Fragment → Operation → List Diagnostic,
      ∀ (settings : Settings) (s : Schema) (d : Document),
        (∀ o, ∃ uses : List VariableUse, uses.Nodup ∧ (∀ u, u ∈ uses ↔ d.Uses o u) ∧
          undefined d.fragments o =
            (uses.filter fun u => ∀ v ∈ o.variableDefinitions, v.var.name ≠ u.var.name).map
              (fun u => .atLocations (.undefinedVariable u.var.name (o.name.map (·.text)))
                [u.var.loc, o.loc]) ∧
          unused d.fragments o =
            (o.variableDefinitions.filter fun v => ∀ u ∈ uses, u.var.name ≠ v.var.name).map
              (fun v => .atLocations (.unusedVariable v.var.name (o.name.map (·.text))) [v.loc])) ∧
        (∃ E, (Run.ofDocument (settings.upTo none) ⟨s, d⟩ [noUndefinedVariables]).result = .ok E ∧
          E.map Diagnostic.withoutPath = d.operations.flatMap (undefined d.fragments)) ∧
        (∃ E, (Run.ofDocument (settings.upTo none) ⟨s, d⟩ [noUnusedVariables]).result = .ok E ∧
          E.map Diagnostic.withoutPath = d.operations.flatMap (unused d.fragments)) := by
  -- The fragments alone, as a document, have the same reports for an operation.
  let alone : List Fragment → Document := fun fs => ⟨fs.map .fragment, 0⟩
  have halone : ∀ fs, (alone fs).fragments = fs := by
    intro fs
    simp [alone, Document.fragments, List.filterMap_map]
  refine ⟨fun fs => undefinedReports (alone fs), fun fs => unusedReports (alone fs), ?_⟩
  intro settings s d
  have hundefined : undefinedReports (alone d.fragments) = undefinedReports d :=
    funext fun o => undefinedReports_congr o (halone d.fragments)
  have hunused : unusedReports (alone d.fragments) = unusedReports d :=
    funext fun o => unusedReports_congr o (halone d.fragments)
  simp only [hundefined, hunused, noUndefinedVariables_eq, noUnusedVariables_eq]
  refine ⟨fun o => ⟨d.uses o, d.nodup_uses o, fun u => d.mem_uses, undefinedReports_eq d o,
    unusedReports_eq d o⟩, ?_, ?_⟩
  · obtain ⟨E, hresult, hreports⟩ :=
      Rule.result_leavingOperation undefinedReports settings ⟨s, d⟩
    refine ⟨E, hresult, hreports.trans ?_⟩
    rw [List.map_flatMap]
    simp only [withoutPath_undefinedReports]
  · obtain ⟨E, hresult, hreports⟩ :=
      Rule.result_leavingOperation unusedReports settings ⟨s, d⟩
    refine ⟨E, hresult, hreports.trans ?_⟩
    rw [List.map_flatMap]
    simp only [withoutPath_unusedReports]

end Rules
end GraphQLCheck
