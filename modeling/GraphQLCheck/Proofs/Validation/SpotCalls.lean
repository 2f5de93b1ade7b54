import GraphQLCheck.Proofs.Validation.Entering

/-!
The calls of a rule without state that is called on the way in, be it that it fails or not. On the
way in a traversal makes one visit for each spot of the document, in their order
(`Node.entering_visits`). So the trace of a run of such a rule is read off the spots: one call for
each that the rule asks for, with what the nodes above it resolve to (`Run.trace_spots`).
-/
namespace GraphQLCheck

def Spot.entering (p : Provider) (s : Schema) (x : Spot) : Visit :=
  Run.visitAt p s x.steps x.above.reverse x.node

theorem Node.entering_visits (p : Provider) (s : Schema) (n : Node) (steps : List Segment)
    (above : List Node) :
    ((n.tree ⟨steps⟩).visits p s (.along p s above.reverse)).filter (·.phase = .enter) =
      (n.spots steps above).map (Spot.entering p s) := by
  induction n using childInduction generalizing steps above with
  | step n ih =>
    have htracker : (Tracker.along p s above.reverse).enter p s n =
        .along p s (n :: above).reverse := by
      rw [List.reverse_cons, Tracker.along_concat]
    have hself : Run.visitNow .enter n ⟨steps⟩ (.along p s (n :: above).reverse) =
        Spot.entering p s ⟨steps, above, n⟩ := by
      rw [Spot.entering, Run.visitAt, List.reverse_cons]
    have hbelow : ∀ c ∈ n.children,
        ((c.tree ⟨steps⟩).visits p s (.along p s (n :: above).reverse)).filter
            (·.phase = .enter) =
          (c.node.spots (steps ++ c.steps) (n :: above)).map (Spot.entering p s) :=
      fun c hc => ih c hc (steps ++ c.steps) (n :: above)
    rw [visits_tree, htracker, Tree.visitsAll_map, List.filter_cons_of_pos (by rfl),
      List.filter_append, List.filter_flatMap, List.flatMap_congr hbelow, hself, spots_eq,
      List.map_cons, List.map_flatMap]
    simp [Run.visitNow]

theorem ActiveRule.trace_stateless (settings : Settings) (subject : Subject) (a : ActiveRule)
    [Subsingleton a.rule.State] (visits : List Visit) :
    a.trace settings subject visits =
      (visits.filter fun v => a.rule.handlers.has v.slot).map fun v =>
        (Run.answer settings subject v a).call := by
  induction visits with
  | nil => rfl
  | cons v vs ih =>
    have hstep : a.step settings subject v = a := by
      rw [step_eq, Subsingleton.elim (a.rule.next subject v a.state) a.state]
    rw [trace, hstep, ih, calls, List.filter_cons]
    split
    · rfl
    · rfl

theorem Run.trace_spots (settings : Settings) (subject : Subject) {r : Rule}
    [Subsingleton r.State] {classes : List NodeClass} (hhandlers : r.handlers = .entering classes)
    (hcontinues : r.Continues) (hblind : r.Blind) :
    (ofDocument (settings.upTo none) subject [r]).trace =
      (subject.document.spots.filter fun x => x.node.classOf ∈ classes).map fun x =>
        (answer settings subject (x.entering settings.provider subject.schema)
          ⟨0, r, r.start⟩).call := by
  have hstart : (start [r]).rules = [⟨0, r, r.start⟩] := rfl
  have : Subsingleton (ActiveRule.mk 0 r r.start).rule.State := ‹Subsingleton r.State›
  have hasked : ∀ v : Visit, r.handlers.has v.slot =
      (decide (v.node.classOf ∈ classes) && decide (v.phase = .enter)) := by
    intro v
    rw [hhandlers, Visit.slot, Handlers.has_entering, Bool.decide_and, Bool.and_comm]
  have hentered : (allVisits settings.provider subject).filter (·.phase = .enter) =
      subject.document.spots.map (Spot.entering settings.provider subject.schema) :=
    Node.entering_visits settings.provider subject.schema (.document subject.document) [] []
  rw [trace_full (by simpa using hcontinues) (by simpa using hblind), hstart, callsAlong_singleton,
    ActiveRule.trace_stateless]
  simp only [hasked, ← List.filter_filter, hentered, List.filter_map, List.map_map]
  rfl

end GraphQLCheck
