import GraphQLCheck.Proofs.Typing.Resolution
import GraphQLCheck.Proofs.Validation.Outline

/-!
Rules without state that are called on the way in. What such a rule reports for a node hangs on the
frame of the node. Where it is the same for all frames that fit, a run of the rule reports it for
all spots of the document in turn (`Rule.result_entering`), and the traversal need not be looked at.
-/
namespace GraphQLCheck

theorem Tree.visitsAll_map (p : Provider) (s : Schema) (t : Tracker) (q : Path) (cs : List Child) :
    visitsAll p s t (cs.map (Child.tree q)) = cs.flatMap fun c => (c.tree q).visits p s t := by
  induction cs with
  | nil => rfl
  | cons c cs ih => rw [List.map_cons, visitsAll, ih, List.flatMap_cons]

theorem Handlers.has_entering (classes : List NodeClass) (phase : Phase) (c : NodeClass) :
    (entering classes).has ⟨phase, c⟩ = decide (phase = .enter ∧ c ∈ classes) := by
  rw [entering, has_ofSlots, List.contains_eq_mem]
  refine decide_eq_decide.2 ?_
  cases phase <;> simp

namespace Rule

section
variable {s : Schema} {d : Document} {classes : List NodeClass}
  {reports : Subject → Visit → List Diagnostic} {expected : Spot → List Diagnostic}

theorem reported_stateless (handlers : Handlers) (subject : Subject) (visits : List Visit) :
    (stateless handlers reports).reported subject visits () =
      visits.flatMap fun v => if handlers.has v.slot then reports subject v else [] := by
  induction visits with
  | nil => rfl
  | cons v vs ih =>
    rw [List.flatMap_cons, ← ih]
    rfl

/-- What is reported at a node, without a path, and that the rule is called there if anything is. -/
structure Expects (s : Schema) (d : Document) (classes : List NodeClass)
    (reports : Subject → Visit → List Diagnostic) (expected : Spot → List Diagnostic) : Prop where
  reports {x : Spot} {frame : Frame} (path : Path) (depth : Nat) : frame.Fits s x.above x.node →
    reports ⟨s, d⟩ ⟨.enter, x.node, path, frame, depth⟩ = expected x
  called {x : Spot} : x.node.classOf ∉ classes → expected x = []
  pathless {x : Spot} {r : Diagnostic} : r ∈ expected x → r.path = none

theorem reported_tree (hs : s.Closed) (h : Expects s d classes reports expected) (n : Node)
    {q : Path} {t : Tracker} {steps : List Segment} {above : List Node}
    (hfits : (t.top.enter .standard s n).Fits s above n) :
    (stateless (.entering classes) reports).reported ⟨s, d⟩ ((n.tree q).visits .standard s t) () =
      (n.spots steps above).flatMap expected := by
  rw [reported_stateless]
  induction n using Node.childInduction generalizing q t steps above with
  | step n ih =>
    have henter : (if (Handlers.entering classes).has
          (Run.visitNow .enter n q (t.enter .standard s n)).slot
        then reports ⟨s, d⟩ (Run.visitNow .enter n q (t.enter .standard s n)) else []) =
          expected ⟨steps, above, n⟩ := by
      rw [Visit.slot, Handlers.has_entering]
      by_cases hclass : n.classOf ∈ classes
      · rw [if_pos (decide_eq_true ⟨rfl, hclass⟩)]
        exact h.reports (x := ⟨steps, above, n⟩) q _ hfits
      · rw [if_neg (by simpa [Run.visitNow] using hclass), h.called hclass]
    have hleave : (Handlers.entering classes).has
        (Run.visitNow .leave n q (t.enter .standard s n)).slot = false := by
      rw [Visit.slot, Handlers.has_entering]
      simp [Run.visitNow]
    have hbelow : ∀ c ∈ n.children,
        (((c.tree q).visits .standard s (t.enter .standard s n)).flatMap fun v =>
          if (Handlers.entering classes).has v.slot then reports ⟨s, d⟩ v else []) =
        (c.node.spots (steps ++ c.steps) (n :: above)).flatMap expected :=
      fun c hc => ih c hc (hfits.enter hs hc)
    rw [Node.visits_tree, Tree.visitsAll_map, List.flatMap_cons, List.flatMap_append,
      List.flatMap_assoc, List.flatMap_congr hbelow, List.flatMap_singleton, henter, hleave,
      Node.spots_eq, List.flatMap_cons, List.flatMap_assoc]
    simp

/-- A rule without state that is called on the way in reports what is expected at each spot of the
document. -/
theorem result_entering (hs : s.Closed) (h : Expects s d classes reports expected) (paths : Bool) :
    ∃ E, (Run.ofDocument ⟨.standard, none, paths⟩ ⟨s, d⟩
        [stateless (.entering classes) reports]).result = .ok E ∧
      E.map Diagnostic.withoutPath = d.spots.flatMap expected := by
  have hcontinues : ∀ r ∈ [stateless (.entering classes) reports], r.Continues := by
    simpa using continues_stateless _ _
  have hblind : ∀ r ∈ [stateless (.entering classes) reports], r.Blind := by
    simpa using blind_stateless _ _
  refine ⟨_, Run.result_full ⟨.standard, none, paths⟩ ⟨s, d⟩ ?_, ?_⟩
  · intro r hr c visit state
    obtain rfl := List.mem_singleton.1 hr
    rfl
  · have hstart : (Run.start [stateless (.entering classes) reports]).rules =
        [⟨0, stateless (.entering classes) reports, ()⟩] := rfl
    have hpathless : ∀ r ∈ d.spots.flatMap expected, r.withoutPath = id r := by
      intro r hr
      obtain ⟨x, -, hr⟩ := List.mem_flatMap.1 hr
      rw [Diagnostic.withoutPath, ← h.pathless hr]
      rfl
    rw [Run.trace_full hcontinues hblind, hstart, Run.callsAlong_singleton, ActiveRule.reports_trace]
    calc _ = (d.spots.flatMap expected).map Diagnostic.withoutPath :=
          congrArg _ (reported_tree hs h (.document d) (Frame.fits_document d))
      _ = d.spots.flatMap expected := by rw [List.map_congr_left hpathless, List.map_id]

end

end Rule

end GraphQLCheck
