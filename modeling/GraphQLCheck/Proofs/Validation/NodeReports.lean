import GraphQLCheck.Proofs.Validation.Entering

/-!
Rules without state that look at the node they enter and at nothing around it. Along the visits of
a traversal every place is entered once (`Node.entered_visits`), so that such a rule reports for
every place what it reports for the node there, whatever the schema and the settings are
(`Rule.result_places`).
-/
namespace GraphQLCheck

def Visit.entered? (v : Visit) : Option Node :=
  match v.phase with
  | .enter => some v.node
  | .leave => none

theorem Node.entered_visits (p : Provider) (s : Schema) (n : Node) (q : Path) (t : Tracker) :
    ((n.tree q).visits p s t).filterMap Visit.entered? = n.places.map Child.node := by
  induction n using childInduction generalizing q t with
  | step n ih =>
    have hbelow : ∀ c ∈ n.children,
        ((c.tree q).visits p s (t.enter p s n)).filterMap Visit.entered? =
          (c.node.places.map c.onward).map Child.node := by
      intro c hc
      rw [List.map_map]
      exact ih c hc _ _
    rw [visits_tree, Tree.visitsAll_map, List.filterMap_cons, List.filterMap_append,
      List.filterMap_flatMap, List.flatMap_congr hbelow, places_eq, List.map_cons,
      List.map_flatMap]
    simp [Visit.entered?, Run.visitNow]

namespace Rule

variable {classes : List NodeClass} {reports : Subject → Visit → List Diagnostic}

/-- The reports hang on the node that is entered, and the rule is called where there are any. -/
structure ReadsNode (classes : List NodeClass) (reports : Subject → Visit → List Diagnostic)
    (subject : Subject) (expected : Node → List Diagnostic) : Prop where
  reports (n : Node) (path : Path) (frame : Frame) (depth : Nat) :
    reports subject ⟨.enter, n, path, frame, depth⟩ = expected n
  called {n : Node} : n.classOf ∉ classes → expected n = []
  pathless {n : Node} {r : Diagnostic} : r ∈ expected n → r.path = none

theorem ReadsNode.reported {subject : Subject} {expected : Node → List Diagnostic}
    (h : ReadsNode classes reports subject expected) (visits : List Visit) :
    (stateless (.entering classes) reports).reported subject visits () =
      (visits.filterMap Visit.entered?).flatMap expected := by
  rw [reported_stateless]
  induction visits with
  | nil => rfl
  | cons v vs ih =>
    obtain ⟨phase, n, path, frame, depth⟩ := v
    rw [List.flatMap_cons, ih, Visit.slot, Handlers.has_entering]
    cases phase with
    | leave => simp [List.filterMap_cons, Visit.entered?]
    | enter =>
      by_cases hclass : n.classOf ∈ classes
      · simp [Visit.entered?, hclass, h.reports]
      · simp [Visit.entered?, hclass, h.called]

theorem result_places (settings : Settings) {subject : Subject} {expected : Node → List Diagnostic}
    (h : ReadsNode classes reports subject expected) :
    ∃ E, (Run.ofDocument (settings.upTo none) subject
        [stateless (.entering classes) reports]).result = .ok E ∧
      E.map Diagnostic.withoutPath =
        (Node.document subject.document).places.flatMap fun x => expected x.node := by
  have hcontinues : ∀ r ∈ [stateless (.entering classes) reports], r.Continues := by
    simpa using continues_stateless _ _
  have hblind : ∀ r ∈ [stateless (.entering classes) reports], r.Blind := by
    simpa using blind_stateless _ _
  refine ⟨_, Run.result_full settings subject ?_, ?_⟩
  · intro r hr c visit state
    obtain rfl := List.mem_singleton.1 hr
    rfl
  · have hstart : (Run.start [stateless (.entering classes) reports]).rules =
        [⟨0, stateless (.entering classes) reports, ()⟩] := rfl
    have hpathless : ∀ r ∈ (Node.document subject.document).places.flatMap
        (fun x => expected x.node), r.withoutPath = id r := by
      intro r hr
      obtain ⟨x, -, hr⟩ := List.mem_flatMap.1 hr
      rw [Diagnostic.withoutPath, ← h.pathless hr]
      rfl
    have hreported := h.reported (Run.allVisits settings.provider subject)
    rw [Run.allVisits, Node.entered_visits, List.flatMap_map] at hreported
    rw [Run.trace_full hcontinues hblind, hstart, Run.callsAlong_singleton, ActiveRule.reports_trace]
    refine (congrArg (List.map Diagnostic.withoutPath) hreported).trans ?_
    rw [List.map_congr_left hpathless, List.map_id]

end Rule
end GraphQLCheck
