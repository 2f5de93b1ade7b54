import GraphQLCheck.Validation.Validate

/-!
Rounds of calls. A run gives the reports at a node their path when all rules were called there, to
all that was collected since. The same comes out if every call gives its own reports their path at
once (`callRound_eq_callEach`), where the rules still see the reports of the earlier calls at the
node as they were made. In this form nothing looks back at what was collected, and what a round
keeps is shown call by call.
-/
namespace GraphQLCheck

namespace Findings

variable {s : Settings} {f : Findings} {reported : Nat} {p : Path}

@[simp]
theorem aborted_attach : (f.attach s reported p).aborted = f.aborted := by
  rw [attach]
  split
  · rfl
  · rfl

@[simp]
theorem length_attach : (f.attach s reported p).latest.length = f.latest.length := by
  rw [attach]
  split
  · simp only [List.length_append, List.length_map, List.length_take, List.length_drop]
    omega
  · rfl

theorem attach_all : f.attach s f.latest.length p = f := by
  rw [attach]
  split
  · simp
  · rfl

theorem attach_cons (h : reported ≤ f.latest.length) (d : Diagnostic) (aborted : Bool) :
    attach s reported p ⟨d :: f.latest, aborted⟩ =
      ⟨(if s.paths then d.attachPath p else d) :: (f.attach s reported p).latest, aborted⟩ := by
  have hnew : f.latest.length + 1 - reported = (f.latest.length - reported) + 1 := by omega
  rw [attach, attach]
  split
  · simp [hnew]
  · rfl

theorem attach_report (h : reported ≤ f.latest.length) (d : Diagnostic) :
    (f.report s d).attach s reported p =
      (f.attach s reported p).report s (if s.paths then d.attachPath p else d) := by
  have hlimit : (if s.paths then Diagnostic.limit.attachPath p else .limit) = .limit := ite_self _
  simp only [report, aborted_attach, length_attach]
  split
  · rfl
  split
  · rw [attach_cons h, hlimit]
  · rw [attach_cons h]

theorem length_le_report (s : Settings) (f : Findings) (d : Diagnostic) :
    f.latest.length ≤ (f.report s d).latest.length := by
  rw [report]
  split
  · exact Nat.le_refl _
  split
  · exact Nat.le_succ _
  · exact Nat.le_succ _

theorem length_le_reportAll (s : Settings) (f : Findings) (ds : List Diagnostic) :
    f.latest.length ≤ (f.reportAll s ds).latest.length := by
  induction ds generalizing f with
  | nil => exact Nat.le_refl _
  | cons d ds ih => exact Nat.le_trans (length_le_report s f d) (ih _)

theorem attach_reportAll (h : reported ≤ f.latest.length) (ds : List Diagnostic) :
    (f.reportAll s ds).attach s reported p =
      (f.attach s reported p).reportAll s
        (if s.paths then ds.map (Diagnostic.attachPath p) else ds) := by
  induction ds generalizing f with
  | nil =>
    rw [List.map_nil, ite_self]
    rfl
  | cons d ds ih =>
    have hrest := ih (Nat.le_trans h (length_le_report s f d))
    rw [attach_report h] at hrest
    rw [reportAll, List.foldl_cons]
    refine hrest.trans ?_
    split
    · rfl
    · rfl

theorem going_of_reportAll {ds : List Diagnostic} (h : (f.reportAll s ds).aborted = false) :
    f.aborted = false := by
  cases hf : f.aborted with
  | false => rfl
  | true =>
    rw [reportAll_of_aborted s hf] at h
    exact hf.symm.trans h

theorem reportAll_of_going {latest ds : List Diagnostic}
    (h : (reportAll s ⟨latest, false⟩ ds).aborted = false) :
    reportAll s ⟨latest, false⟩ ds = ⟨ds.reverse ++ latest, false⟩ := by
  induction ds generalizing latest with
  | nil => rfl
  | cons d ds ih =>
    rw [reportAll, List.foldl_cons] at h ⊢
    have hgoing : (report s ⟨latest, false⟩ d).aborted = false := going_of_reportAll h
    have hd : report s ⟨latest, false⟩ d = ⟨d :: latest, false⟩ := by
      rw [report, if_neg (by simp)] at hgoing ⊢
      split
      · next hfull => simp [hfull] at hgoing
      · rfl
    rw [hd] at h ⊢
    exact (ih h).trans (by simp)

theorem diagnostics_reportAll_of_going (hf : f.aborted = false) {ds : List Diagnostic}
    (h : (f.reportAll s ds).aborted = false) :
    (f.reportAll s ds).diagnostics = f.diagnostics ++ ds := by
  obtain ⟨latest, aborted⟩ := f
  obtain rfl : aborted = false := hf
  rw [reportAll_of_going h]
  simp [diagnostics]

end Findings

namespace Run

variable (settings : Settings) (subject : Subject)

def answer (c : RuleContext) (visit : Visit) (a : ActiveRule) : Answer :=
  let x := respond c visit a
  ⟨x.rule, x.call.attached settings⟩

theorem reports_answer (c : RuleContext) (visit : Visit) (a : ActiveRule) :
    (answer settings c visit a).call.reports =
      if settings.paths then
        (a.rule.react c visit a.state).reports.map (Diagnostic.attachPath visit.path)
      else (a.rule.react c visit a.state).reports := rfl

theorem answer_blind {a : ActiveRule} (h : a.rule.Blind) (c : RuleContext) (visit : Visit) :
    answer settings c visit a = answer settings c.toSubject visit a := by
  rw [answer, answer, respond, respond, h c]

/-- A round in which every call gives its reports their path. The rules see what was `seen`
before, that is what was collected without the paths that the node gives. -/
def callEach (visit : Visit) : List ActiveRule → List Diagnostic → Findings → List Call → Round
  | [], _, findings, calls => ⟨[], findings, calls, false⟩
  | a :: rest, seen, findings, calls =>
    if a.rule.handlers.has visit.slot then
      let x := answer settings ⟨subject, seen⟩ visit a
      let findings := findings.reportAll settings x.call.reports
      let calls := x.call :: calls
      if findings.aborted then ⟨x.rule :: rest, findings, calls, false⟩
      else
        let seen := seen ++ (respond ⟨subject, seen⟩ visit a).call.reports
        let round := callEach visit rest seen findings calls
        { round with rules := x.rule :: round.rules, skip := x.call.passes || round.skip }
    else
      let round := callEach visit rest seen findings calls
      { round with rules := a :: round.rules }

theorem attached_callAll {visit : Visit} (rules : List ActiveRule) {reported : Nat}
    {findings : Findings} (hgoing : findings.aborted = false)
    (hreported : reported ≤ findings.latest.length) (before calls : List Call) :
    (callAll settings subject visit rules findings calls).attached settings reported visit.path
        before =
      callEach settings subject visit rules findings.diagnostics
        (findings.attach settings reported visit.path)
        (calls.map (Call.attached settings) ++ before) := by
  induction rules generalizing findings calls with
  | nil => rfl
  | cons a rest ih =>
    rw [callAll, callEach]
    dsimp only
    split
    · have hfindings : (findings.attach settings reported visit.path).reportAll settings
            (answer settings ⟨subject, findings.diagnostics⟩ visit a).call.reports =
          (findings.reportAll settings
            (respond ⟨subject, findings.diagnostics⟩ visit a).call.reports).attach settings
              reported visit.path := (Findings.attach_reportAll hreported _).symm
      have hlength := Findings.length_le_reportAll settings findings
        (respond ⟨subject, findings.diagnostics⟩ visit a).call.reports
      rw [hfindings, Findings.aborted_attach]
      split
      · rfl
      · next hnot =>
        have hgoing' := Bool.eq_false_iff.2 hnot
        have hrest := ih hgoing' (Nat.le_trans hreported hlength)
          ((respond ⟨subject, findings.diagnostics⟩ visit a).call :: calls)
        rw [Findings.diagnostics_reportAll_of_going hgoing hgoing', List.map_cons,
          List.cons_append] at hrest
        exact congrArg (fun round : Round =>
          { round with
            rules := (respond ⟨subject, findings.diagnostics⟩ visit a).rule :: round.rules
            skip := (respond ⟨subject, findings.diagnostics⟩ visit a).call.passes ||
              round.skip }) hrest
    · exact congrArg (fun round : Round => { round with rules := a :: round.rules })
        (ih hgoing hreported calls)

/-- Attaching paths to all that was reported at a node is attaching them call by call. -/
theorem callRound_eq_callEach {visit : Visit} (rules : List ActiveRule) {findings : Findings}
    (hgoing : findings.aborted = false) (calls : List Call) :
    callRound settings subject visit rules findings calls =
      callEach settings subject visit rules findings.diagnostics findings calls := by
  have h := @attached_callAll settings subject visit rules _ findings hgoing
    (Nat.le_refl _) calls []
  rw [Findings.attach_all] at h
  exact h

theorem enter_eq (node : Node) (path : Path) (r : Run) :
    enter settings subject node path r =
      if r.findings.aborted then (.stop, r)
      else
        let tracker := r.tracker.enter settings.provider subject.schema node
        (callEach settings subject (visitNow .enter node path tracker) r.rules
          r.findings.diagnostics r.findings r.calls).entered tracker := by
  rw [enter]
  split
  · rfl
  · next hnot =>
    dsimp only
    rw [callRound_eq_callEach settings subject _ (by simpa using hnot)]

theorem leave_eq (node : Node) (path : Path) (r : Run) :
    leave settings subject node path r =
      if r.findings.aborted then (.stop, r)
      else
        (callEach settings subject (visitNow .leave node path r.tracker) r.rules.reverse
          r.findings.diagnostics r.findings r.calls).left r.tracker := by
  rw [leave]
  split
  · rfl
  · next hnot => rw [callRound_eq_callEach settings subject _ (by simpa using hnot)]

end Run
end GraphQLCheck
