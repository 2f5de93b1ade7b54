import GraphQLCheck.Proofs.Rules.Values

/-!
Runs of the standard rules in which nothing is reported. No standard rule ever passes over a node,
so each is called wherever it wants to be, and in a run without diagnostics it had nothing to say
there, whatever state it was in.
-/
namespace GraphQLCheck

theorem Rule.continues_stateless (handlers : Handlers)
    (reports : Subject → Visit → List Diagnostic) : (stateless handlers reports).Continues :=
  fun _ _ _ => rfl

namespace Rules

theorem continues_uniqueOperationNames : uniqueOperationNames.Continues := by
  rintro subject ⟨phase, node, path, frame, depth⟩ known
  cases phase with
  | enter =>
    cases node with
    | operation o =>
      simp only [uniqueOperationNames]
      split
      · rfl
      · rfl
    | _ => rfl
  | leave => rfl

theorem continues_loneAnonymousOperation : loneAnonymousOperation.Continues := by
  rintro subject ⟨phase, node, path, frame, depth⟩ count
  cases phase with
  | enter => cases node <;> rfl
  | leave => rfl

theorem continues_uniqueFragmentNames : uniqueFragmentNames.Continues := by
  rintro subject ⟨phase, node, path, frame, depth⟩ known
  cases phase with
  | enter => cases node <;> rfl
  | leave => rfl

theorem continues_noUnusedFragments : noUnusedFragments.Continues := by
  rintro subject ⟨phase, node, path, frame, depth⟩ entered
  cases phase <;> cases node <;> rfl

theorem continues_noFragmentCycles : noFragmentCycles.Continues := by
  rintro subject ⟨phase, node, path, frame, depth⟩ searched
  cases phase with
  | enter => cases node <;> rfl
  | leave => rfl

theorem continues_fieldsOnCorrectType : fieldsOnCorrectType.Continues := by
  rintro subject visit state
  simp only [fieldsOnCorrectType]
  split
  · split
    · rfl
    · rfl
  · rfl

end Rules

theorem StandardRule.continues (r : StandardRule) : r.rule.Continues := by
  cases r with
  | uniqueOperationNames => exact Rules.continues_uniqueOperationNames
  | loneAnonymousOperation => exact Rules.continues_loneAnonymousOperation
  | fieldsOnCorrectType => exact Rules.continues_fieldsOnCorrectType
  | uniqueFragmentNames => exact Rules.continues_uniqueFragmentNames
  | noUnusedFragments => exact Rules.continues_noUnusedFragments
  | noFragmentCycles => exact Rules.continues_noFragmentCycles
  | valuesOfCorrectType => exact Rules.continues_valuesOfCorrectType
  | _ => exact Rule.continues_stateless _ _

theorem StandardRule.continues_of_mem {rules : List StandardRule} {r : Rule}
    (h : r ∈ rules.map StandardRule.rule) : r.Continues := by
  obtain ⟨x, -, rfl⟩ := List.mem_map.1 h
  exact x.continues

namespace Run

variable {settings : Settings} {subject : Subject} {p : List Segment} {above : List Node}
  {n : Node}

def visitAt (provider : Provider) (s : Schema) (p : List Segment) (above : List Node) (n : Node) :
    Visit :=
  visitNow .enter n ⟨p⟩ (.along provider s (above ++ [n]))

theorem visitAt_mem_allVisits (provider : Provider)
    (h : Leads (.document subject.document) p above n) :
    visitAt provider subject.schema p above n ∈ allVisits provider subject := by
  obtain ⟨before, after, hvisits, -, -⟩ :=
    h.visits_split (p := provider) (s := subject.schema) .root .empty
  have hroot : Path.root.append p = ⟨p⟩ := rfl
  have hfirst : visitAt provider subject.schema p above n ∈
      (n.tree ⟨p⟩).visits provider subject.schema (.along provider subject.schema above) := by
    rw [Node.visits_tree, visitAt, Tracker.along_concat]
    exact List.mem_cons_self
  rw [allVisits, hvisits, hroot]
  exact List.mem_append_left _ (List.mem_append_right _ hfirst)

variable (settings) in
theorem silent_at {rules : List Rule} (hrules : ∀ r ∈ rules, r.Continues)
    (hblind : ∀ r ∈ rules, r.Blind)
    (hresult : (ofDocument (settings.upTo none) subject rules).result = .ok []) {r : Rule}
    (hr : r ∈ rules) (h : Leads (.document subject.document) p above n)
    (hhas : r.handlers.has ⟨.enter, n.classOf⟩) :
    ∃ state,
      (r.react subject (visitAt settings.provider subject.schema p above n) state).reports = [] ∧
      (r.react subject (visitAt settings.provider subject.schema p above n) state).failure =
        none := by
  obtain ⟨i, hi, rfl⟩ := List.getElem_of_mem hr
  have hactive : (⟨i, rules[i], rules[i].start⟩ : ActiveRule) ∈ (start rules).rules :=
    List.mem_mapIdx.2 ⟨i, hi, rfl⟩
  obtain ⟨state, hcall⟩ := mem_callsAlong_of_has settings subject hactive
    (visitAt_mem_allVisits settings.provider h) hhas
  rw [← trace_full hrules hblind] at hcall
  obtain ⟨hfailure, hdiagnostics⟩ := result_eq_ok.1 hresult
  rw [(told_ofDocument settings subject rules).diagnostics, List.flatMap_eq_nil_iff]
    at hdiagnostics
  have hreports := hdiagnostics _ hcall
  refine ⟨state, ?_, hfailure _ hcall⟩
  rw [reports_answer] at hreports
  split at hreports
  · exact List.map_eq_nil_iff.1 hreports
  · exact hreports

end Run
end GraphQLCheck
