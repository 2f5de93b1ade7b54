import GraphQLCheck.Proofs.Document.Reachability
import GraphQLCheck.Proofs.Validation.Outline

/-!
The fragments that an operation references are those it reaches, each once, and the fragments
reported as unused are those that no operation reaches.
-/
namespace GraphQLCheck.Rules

variable (subject : Subject)

theorem outlining_noUnusedFragments : noUnusedFragments.Outlining where
  asks slot h := by
    obtain ⟨phase, c⟩ := slot
    revert h
    cases phase <;> cases c <;> decide
  blind _ _ _ := rfl
  reads subject visit state := by
    obtain ⟨phase, node, path, frame, depth⟩ := visit
    cases phase <;> cases node <;> rfl
  idle subject visit state h := by
    obtain ⟨phase, node, path, frame, depth⟩ := visit
    have hoperation : noUnusedFragments.handlers.has ⟨.enter, .operation⟩ ≠ false := by decide
    have hfragment : noUnusedFragments.handlers.has ⟨.enter, .fragment⟩ ≠ false := by decide
    have hdocument : noUnusedFragments.handlers.has ⟨.leave, .document⟩ ≠ false := by decide
    cases phase with
    | enter =>
      cases node with
      | operation o => exact absurd h hoperation
      | fragment f => exact absurd h hfragment
      | _ => rfl
    | leave =>
      cases node with
      | document d => exact absurd h hdocument
      | _ => rfl
  unfailing subject visit state := by
    obtain ⟨phase, node, path, frame, depth⟩ := visit
    cases phase <;> cases node <;> rfl

theorem after_noUnusedFragments (xs : List Definition) (size : Nat) (e : Entered) :
    noUnusedFragments.after subject (xs.flatMap Definition.outline) e =
      (⟨e.operations ++ Document.operations ⟨xs, size⟩,
        e.fragments ++ Document.fragments ⟨xs, size⟩⟩ : Entered) := by
  induction xs generalizing e with
  | nil => exact congrArg₂ Entered.mk (List.append_nil _).symm (List.append_nil _).symm
  | cons x xs ih =>
    refine (outlining_noUnusedFragments.after_cons subject x xs _).trans ?_
    cases x with
    | operation o =>
      refine (ih ⟨e.operations ++ [o], e.fragments⟩).trans ?_
      exact congrArg₂ Entered.mk (List.append_assoc _ _ _) rfl
    | fragment f =>
      refine (ih ⟨e.operations, e.fragments ++ [f]⟩).trans ?_
      exact congrArg₂ Entered.mk rfl (List.append_assoc _ _ _)

theorem silent_noUnusedFragments (xs : List Definition) (e : Entered) :
    noUnusedFragments.reported subject (xs.flatMap Definition.outline) e = [] := by
  induction xs generalizing e with
  | nil => rfl
  | cons x xs ih =>
    refine (outlining_noUnusedFragments.reported_cons subject x xs _).trans ?_
    cases x with
    | operation o => exact ih ⟨e.operations ++ [o], e.fragments⟩
    | fragment f => exact ih ⟨e.operations, e.fragments ++ [f]⟩

theorem reported_noUnusedFragments (s : Schema) (d : Document) :
    noUnusedFragments.reported ⟨s, d⟩ d.outline noUnusedFragments.start =
      (Entered.unused ⟨d.operations, d.fragments⟩ d).map fun f =>
        .atLocations (.unusedFragment f.name.text) [f.loc] := by
  rw [outlining_noUnusedFragments.reported_document]
  have hsilent := silent_noUnusedFragments ⟨s, d⟩ d.definitions ⟨[], []⟩
  have hafter := after_noUnusedFragments ⟨s, d⟩ d.definitions d.size ⟨[], []⟩
  have hleave := congrArg
    (fun e => (noUnusedFragments.react (⟨s, d⟩ : Subject) (.bare .leave (.document d)) e).reports) hafter
  exact congrArg₂ (· ++ ·) hsilent hleave

theorem unused_eq (d : Document) (e : Entered) :
    e.unused d =
      e.fragments.filter fun f => ∀ o ∈ e.operations, ¬ d.Reaches o f.name.text := by
  refine List.filter_congr fun f _ => ?_
  rw [Bool.eq_iff_iff]
  simp [Document.reaches_iff]

/-- The search for the fragments that an operation references comes to an end, with each fragment
that it reaches once and with no other; the fragments that no operation reaches are reported, as
the document has them. -/
theorem unusedFragments_exact (d : Document) :
    (∀ o, d.Collects [] [o.selections] (d.referencedFragments o) ∧
      ((d.referencedFragments o).map (·.name.text)).Nodup ∧
      ∀ f, f ∈ d.referencedFragments o ↔
        d.Reaches o f.name.text ∧ d.fragment? f.name.text = some f) ∧
    ∀ (settings : Settings) (s : Schema), ∃ E,
      (Run.ofDocument (settings.upTo none) ⟨s, d⟩ [noUnusedFragments]).result = .ok E ∧
      E.map Diagnostic.withoutPath =
        (d.fragments.filter fun f => ∀ o ∈ d.operations, ¬ d.Reaches o f.name.text).map fun f =>
          .atLocations (.unusedFragment f.name.text) [f.loc] := by
  constructor
  · intro o
    have hcollects := d.collects_referencedFragments o
    exact ⟨hcollects, hcollects.nodup, fun f => Document.mem_referencedFragments⟩
  · intro settings s
    obtain ⟨E, hresult, hreports⟩ := outlining_noUnusedFragments.result_outline
      continues_noUnusedFragments settings ⟨s, d⟩
    refine ⟨E, hresult, ?_⟩
    rw [hreports, reported_noUnusedFragments, unused_eq, List.map_map]
    rfl

end GraphQLCheck.Rules
