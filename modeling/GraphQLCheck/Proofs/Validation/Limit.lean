import GraphQLCheck.Proofs.Validation.Position

/-!
Runs with a limit and runs without one. Without a limit the diagnostics of a run are what its
calls reported. A run with a limit is in the same state as one without for as long as no more was
reported than the limit allows; the call that goes beyond it is its last.
-/
namespace GraphQLCheck

def Settings.upTo (settings : Settings) (limit : Option Nat) : Settings :=
  { settings with maxErrors := limit }

namespace Findings

variable (settings : Settings)

theorem reportAll_unlimited (latest ds : List Diagnostic) :
    reportAll (settings.upTo none) ⟨latest, false⟩ ds = ⟨ds.reverse ++ latest, false⟩ := by
  induction ds generalizing latest with
  | nil => rfl
  | cons d ds ih =>
    have hd : report (settings.upTo none) ⟨latest, false⟩ d = ⟨d :: latest, false⟩ := rfl
    rw [reportAll, List.foldl_cons, hd]
    exact (ih (d :: latest)).trans (by simp)

theorem reportAll_of_le {N : Nat} (latest ds : List Diagnostic)
    (hN : latest.length + ds.length ≤ N) :
    reportAll (settings.upTo (some N)) ⟨latest, false⟩ ds = ⟨ds.reverse ++ latest, false⟩ := by
  induction ds generalizing latest with
  | nil => rfl
  | cons d ds ih =>
    rw [List.length_cons] at hN
    have hfull : (settings.upTo (some N)).isFull latest.length = false := by
      simp only [Settings.isFull, Settings.upTo, Bool.and_eq_false_iff, decide_eq_false_iff_not]
      omega
    have hd : report (settings.upTo (some N)) ⟨latest, false⟩ d = ⟨d :: latest, false⟩ := by
      simp [report, hfull]
    rw [reportAll, List.foldl_cons, hd]
    exact (ih (d :: latest) (by rw [List.length_cons]; omega)).trans (by simp)

theorem reportAll_of_lt {N : Nat} (hpos : 0 < N) (latest ds : List Diagnostic)
    (hle : latest.length ≤ N) (hN : N < latest.length + ds.length) :
    reportAll (settings.upTo (some N)) ⟨latest, false⟩ ds =
      ⟨.limit :: ((latest.reverse ++ ds).take N).reverse, true⟩ := by
  induction ds generalizing latest with
  | nil =>
    rw [List.length_nil] at hN
    omega
  | cons d ds ih =>
    rw [List.length_cons] at hN
    by_cases hfull : N ≤ latest.length
    -- `d` goes beyond the limit, and `ds` is not reported any more.
    · have hd : report (settings.upTo (some N)) ⟨latest, false⟩ d = ⟨.limit :: latest, true⟩ := by
        simp [report, Settings.isFull, Settings.upTo, hfull, hpos]
      have htake : (latest.reverse ++ d :: ds).take N = latest.reverse := by
        apply List.take_left'
        rw [List.length_reverse]
        omega
      rw [reportAll, List.foldl_cons, hd, htake, List.reverse_reverse]
      exact reportAll_of_aborted _ rfl ds
    · have hd : report (settings.upTo (some N)) ⟨latest, false⟩ d = ⟨d :: latest, false⟩ := by
        simp [report, Settings.isFull, Settings.upTo, hfull]
      rw [reportAll, List.foldl_cons, hd]
      have hrest := ih (d :: latest) (by rw [List.length_cons]; omega)
        (by rw [List.length_cons]; omega)
      exact hrest.trans (by simp)

theorem reportAll_zero (findings : Findings) (ds : List Diagnostic) :
    reportAll (settings.upTo (some 0)) findings ds =
      reportAll (settings.upTo none) findings ds := by
  have hone : report (settings.upTo (some 0)) = report (settings.upTo none) := by
    funext findings d
    simp [report, Settings.isFull, Settings.upTo]
  rw [reportAll, hone, reportAll]

end Findings

namespace Run

def reported (calls : List Call) : List Diagnostic := calls.reverse.flatMap Call.reports

theorem reported_cons (c : Call) (calls : List Call) :
    reported (c :: calls) = reported calls ++ c.reports := by
  simp [reported]

def Told (findings : Findings) (calls : List Call) : Prop :=
  findings = ⟨(reported calls).reverse, false⟩

theorem Told.going {findings : Findings} {calls : List Call} (h : Told findings calls) :
    findings.aborted = false := by
  rw [h]

variable (settings : Settings) (subject : Subject) (visit : Visit)

theorem suffix_callEach (rules : List ActiveRule) (seen : List Diagnostic) (findings : Findings)
    (calls : List Call) :
    calls <:+ (callEach settings subject visit rules seen findings calls).calls := by
  induction rules generalizing seen findings calls with
  | nil => exact List.suffix_rfl
  | cons a rest ih =>
    simp only [callEach]
    split
    · split
      · exact List.suffix_cons _ _
      · exact (List.suffix_cons _ _).trans (ih _ _ _)
    · exact ih _ _ _

variable (n : Node) (p : Path) (r : Run)

theorem suffix_enter : r.calls <:+ (enter settings subject n p r).2.calls := by
  rw [enter_eq]
  split
  · exact List.suffix_rfl
  · rw [calls_entered]
    exact suffix_callEach settings subject _ _ _ _ _

theorem suffix_leave : r.calls <:+ (leave settings subject n p r).2.calls := by
  rw [leave_eq]
  split
  · exact List.suffix_rfl
  · rw [calls_left]
    exact suffix_callEach settings subject _ _ _ _ _

theorem Told.cons {findings : Findings} {calls : List Call} (h : Told findings calls) (c : Call) :
    Told (findings.reportAll (settings.upTo none) c.reports) (c :: calls) := by
  rw [Told, h, Findings.reportAll_unlimited, reported_cons, List.reverse_append]

theorem Told.callEach (rules : List ActiveRule) (seen : List Diagnostic) {findings : Findings}
    {calls : List Call} (h : Told findings calls) :
    Told (callEach (settings.upTo none) subject visit rules seen findings calls).findings
      (callEach (settings.upTo none) subject visit rules seen findings calls).calls := by
  induction rules generalizing seen findings calls with
  | nil => exact h
  | cons a rest ih =>
    simp only [Run.callEach]
    split
    · have hc := h.cons settings (answer (settings.upTo none) ⟨subject, seen⟩ visit a).call
      rw [if_neg (by simp [hc.going])]
      exact ih _ hc
    · exact ih _ h

variable {n p r} {N : Nat}

theorem Told.enter (h : Told r.findings r.calls) :
    Told (Run.enter (settings.upTo none) subject n p r).2.findings
      (Run.enter (settings.upTo none) subject n p r).2.calls := by
  rw [enter_eq, if_neg (by simp [h.going]), findings_entered, calls_entered]
  exact h.callEach settings subject _ _ _

theorem Told.leave (h : Told r.findings r.calls) :
    Told (Run.leave (settings.upTo none) subject n p r).2.findings
      (Run.leave (settings.upTo none) subject n p r).2.calls := by
  rw [leave_eq, if_neg (by simp [h.going]), findings_left, calls_left]
  exact h.callEach settings subject _ _ _

/-- A run that was ended by the limit of `N` diagnostics, beside the calls of one that was not. -/
structure Cut (N : Nat) (whole : List Call) (findings : Findings) (calls : List Call) : Prop where
  findings : findings = ⟨.limit :: ((reported calls).take N).reverse, true⟩
  kept : calls <:+ whole
  last : ∃ c before, calls = c :: before ∧ (reported before).length ≤ N ∧
    N < (reported calls).length

theorem Cut.aborted {whole calls : List Call} {findings : Findings}
    (h : Cut N whole findings calls) : findings.aborted = true := by
  rw [h.findings]

theorem Cut.cons (hpos : 0 < N) {findings : Findings} {calls whole : List Call}
    (h : Told findings calls) (hle : (reported calls).length ≤ N) {c : Call}
    (hc : N < (reported (c :: calls)).length) (hkept : c :: calls <:+ whole) :
    Cut N whole (findings.reportAll (settings.upTo (some N)) c.reports) (c :: calls) := by
  refine ⟨?_, hkept, c, calls, rfl, hle, hc⟩
  rw [reported_cons, List.length_append] at hc
  rw [Told] at h
  have hlt := Findings.reportAll_of_lt settings hpos (reported calls).reverse c.reports
    (by simpa using hle) (by simpa using hc)
  rw [h, hlt, List.reverse_reverse, reported_cons]

/-- One round with and without the limit: both are the same as long as the limit allows. -/
theorem callEach_limited (hpos : 0 < N) (rules : List ActiveRule) (seen : List Diagnostic)
    {findings : Findings} {calls : List Call} (h : Told findings calls)
    (hle : (reported calls).length ≤ N) :
    (callEach (settings.upTo (some N)) subject visit rules seen findings calls =
        callEach (settings.upTo none) subject visit rules seen findings calls ∧
      (reported (callEach (settings.upTo none) subject visit rules seen findings
        calls).calls).length ≤ N) ∨
    Cut N (callEach (settings.upTo none) subject visit rules seen findings calls).calls
      (callEach (settings.upTo (some N)) subject visit rules seen findings calls).findings
      (callEach (settings.upTo (some N)) subject visit rules seen findings calls).calls := by
  induction rules generalizing seen findings calls with
  | nil => exact .inl ⟨rfl, hle⟩
  | cons a rest ih =>
    simp only [callEach]
    split
    · have hsame : answer (settings.upTo (some N)) ⟨subject, seen⟩ visit a =
          answer (settings.upTo none) ⟨subject, seen⟩ visit a := rfl
      rw [hsame]
      generalize answer (settings.upTo none) ⟨subject, seen⟩ visit a = x
      generalize seen ++ (respond ⟨subject, seen⟩ visit a).call.reports = seen'
      have hx := h.cons settings x.call
      have hgoing : ¬ (findings.reportAll (settings.upTo none) x.call.reports).aborted := by
        simp [hx.going]
      rw [if_neg hgoing]
      by_cases hc : (reported (x.call :: calls)).length ≤ N
      · have hreports : findings.reportAll (settings.upTo (some N)) x.call.reports =
            findings.reportAll (settings.upTo none) x.call.reports := by
          rw [hx, h, reported_cons, List.reverse_append]
          rw [reported_cons, List.length_append] at hc
          exact Findings.reportAll_of_le settings _ _ (by simpa using hc)
        rw [hreports, if_neg hgoing]
        rcases ih seen' hx hc with ⟨heq, hcount⟩ | hcut
        · exact .inl ⟨by rw [heq], hcount⟩
        · exact .inr hcut
      -- With the limit this call is the last one, without it `rest` is still to be called.
      · have hcut := Cut.cons settings hpos h hle (Nat.lt_of_not_le hc)
          (suffix_callEach (settings.upTo none) subject visit rest seen'
            (findings.reportAll (settings.upTo none) x.call.reports) (x.call :: calls))
        rw [if_pos hcut.aborted]
        exact .inr hcut
    · rcases ih seen h hle with ⟨heq, hcount⟩ | hcut
      · exact .inl ⟨by rw [heq], hcount⟩
      · exact .inr hcut

def Together (N : Nat) (whole part : Run) : Prop :=
  part = whole ∧ Told whole.findings whole.calls ∧ (reported whole.calls).length ≤ N

def Ahead (N : Nat) (whole part : Run) : Prop :=
  Told whole.findings whole.calls ∧ Cut N whole.calls part.findings part.calls

theorem inStep_entered {whole part : Round} (t : Tracker) (h : Told whole.findings whole.calls)
    (hround : part = whole ∧ (reported whole.calls).length ≤ N ∨
      Cut N whole.calls part.findings part.calls) :
    Tree.InStep (Together N) (Ahead N) (whole.entered t) (part.entered t) := by
  rcases hround with ⟨rfl, hle⟩ | hcut
  · rw [Round.entered]
    rw [if_neg (by simp [h.going])]
    split
    · exact .same (by simp) ⟨rfl, h, hle⟩
    · exact .same (by simp) ⟨rfl, h, hle⟩
  · have hstop : part.entered t = (.stop, ⟨t, part.rules, part.findings, part.calls⟩) :=
      if_pos hcut.aborted
    rw [hstop]
    refine .ended ⟨?_, ?_⟩
    · rw [findings_entered, calls_entered]
      exact h
    · rw [calls_entered]
      exact hcut

theorem inStep_left {whole part : Round} (t : Tracker) (h : Told whole.findings whole.calls)
    (hround : part = whole ∧ (reported whole.calls).length ≤ N ∨
      Cut N whole.calls part.findings part.calls) :
    Tree.InStep (Together N) (Ahead N) (whole.left t) (part.left t) := by
  rcases hround with ⟨rfl, hle⟩ | hcut
  · have hleft : part.left t = (.next, ⟨t.leave, part.rules.reverse, part.findings, part.calls⟩) :=
      if_neg (by simp [h.going])
    rw [hleft]
    exact .same (by simp) ⟨rfl, h, hle⟩
  · have hstop : part.left t = (.stop, ⟨t, part.rules.reverse, part.findings, part.calls⟩) :=
      if_pos hcut.aborted
    rw [hstop]
    refine .ended ⟨?_, ?_⟩
    · rw [findings_left, calls_left]
      exact h
    · rw [calls_left]
      exact hcut

theorem simulates_limited (hpos : 0 < N) :
    Tree.Simulates (visitor (settings.upTo none) subject) (visitor (settings.upTo (some N)) subject)
      (Together N) (Ahead N) where
  enter n p r _ := by
    rintro ⟨rfl, h, hle⟩
    simp only [visitor, enter_eq, h.going, Bool.false_eq_true, if_false]
    exact inStep_entered _ (h.callEach settings subject _ _ _)
      (callEach_limited settings subject _ hpos _ _ h hle)
  leave n p r _ := by
    rintro ⟨rfl, h, hle⟩
    simp only [visitor, leave_eq, h.going, Bool.false_eq_true, if_false]
    exact inStep_left _ (h.callEach settings subject _ _ _)
      (callEach_limited settings subject _ hpos _ _ h hle)
  alone part :=
    { enter _ _ _ h :=
        ⟨h.1.enter settings subject, { h.2 with kept := h.2.kept.trans (suffix_enter _ _ _ _ _) }⟩
      leave _ _ _ h :=
        ⟨h.1.leave settings subject, { h.2 with kept := h.2.kept.trans (suffix_leave _ _ _ _ _) }⟩ }

theorem told_start (rules : List Rule) : Told (start rules).findings (start rules).calls := rfl

theorem inStep_ofDocument (hpos : 0 < N) (rules : List Rule) :
    Together N (ofDocument (settings.upTo none) subject rules)
        (ofDocument (settings.upTo (some N)) subject rules) ∨
      Ahead N (ofDocument (settings.upTo none) subject rules)
        (ofDocument (settings.upTo (some N)) subject rules) := by
  have h := (simulates_limited settings subject hpos).run
    ((Node.document subject.document).tree .root) (s := start rules) (t := start rules)
    ⟨rfl, told_start rules, Nat.zero_le N⟩
  rw [ofDocument_eq_run, ofDocument_eq_run]
  generalize ((Node.document subject.document).tree .root).run
    (visitor (settings.upTo none) subject) (start rules) = whole at h ⊢
  generalize ((Node.document subject.document).tree .root).run
    (visitor (settings.upTo (some N)) subject) (start rules) = part at h ⊢
  cases h with
  | same _ h => exact .inl h
  | ended h => exact .inr h

theorem told_ofDocument (rules : List Rule) :
    Told (ofDocument (settings.upTo none) subject rules).findings
      (ofDocument (settings.upTo none) subject rules).calls := by
  rcases inStep_ofDocument settings subject Nat.one_pos rules with h | h
  · exact h.2.1
  · exact h.1

theorem result_eq_ok {E : List Diagnostic} :
    r.result = .ok E ↔ (∀ c ∈ r.trace, c.failure = none) ∧ r.findings.diagnostics = E := by
  have hfailure : r.failure? = none ↔ ∀ c ∈ r.trace, c.failure = none :=
    List.findSome?_eq_none_iff
  rw [← hfailure, result]
  cases r.failure? with
  | none => simp
  | some message => simp

theorem Told.diagnostics (h : Told r.findings r.calls) :
    r.findings.diagnostics = r.trace.flatMap Call.reports := by
  rw [h, Findings.diagnostics, List.reverse_reverse, reported, trace]

theorem Cut.diagnostics {whole : Run} (h : Cut N whole.calls r.findings r.calls) :
    r.findings.diagnostics = (whole.trace.flatMap Call.reports).take N ++ [.limit] := by
  obtain ⟨after, hafter⟩ := h.kept
  obtain ⟨c, before, hcalls, hbefore, hlt⟩ := h.last
  have hwhole : whole.trace.flatMap Call.reports =
      reported r.calls ++ after.reverse.flatMap Call.reports := by
    rw [trace, ← hafter, List.reverse_append, List.flatMap_append, reported]
  rw [hwhole, List.take_append_of_le_length (Nat.le_of_lt hlt), h.findings, Findings.diagnostics]
  simp

theorem callEach_zero (rules : List ActiveRule) (seen : List Diagnostic) (findings : Findings)
    (calls : List Call) :
    callEach (settings.upTo (some 0)) subject visit rules seen findings calls =
      callEach (settings.upTo none) subject visit rules seen findings calls := by
  have hanswer : ∀ c a, answer (settings.upTo (some 0)) c visit a =
      answer (settings.upTo none) c visit a := fun _ _ => rfl
  induction rules generalizing seen findings calls with
  | nil => rfl
  | cons a rest ih =>
    rw [callEach, callEach]
    simp only [hanswer, Findings.reportAll_zero, ih]

theorem ofDocument_zero (rules : List Rule) :
    ofDocument (settings.upTo (some 0)) subject rules =
      ofDocument (settings.upTo none) subject rules := by
  have hvisitor : visitor (settings.upTo (some 0)) subject =
      visitor (settings.upTo none) subject := by
    have henter : enter (settings.upTo (some 0)) subject =
        enter (settings.upTo none) subject := by
      funext n p r
      simp only [enter_eq, callEach_zero]
      rfl
    have hleave : leave (settings.upTo (some 0)) subject =
        leave (settings.upTo none) subject := by
      funext n p r
      simp only [leave_eq, callEach_zero]
    rw [visitor, henter, hleave, visitor]
  rw [ofDocument, hvisitor, ofDocument]

/-- A run with a limit makes the calls of the run without, up to the one that goes beyond the
limit, and its diagnostics are the first ones of the run without. -/
theorem limit_truncates (settings : Settings) (subject : Subject) (rules : List Rule) :
    ofDocument (settings.upTo (some 0)) subject rules =
      ofDocument (settings.upTo none) subject rules ∧
    ∀ (N : Nat) (E : List Diagnostic), 0 < N →
      (ofDocument (settings.upTo none) subject rules).result = .ok E →
      (E.length ≤ N →
        (ofDocument (settings.upTo (some N)) subject rules).result = .ok E ∧
        (ofDocument (settings.upTo (some N)) subject rules).trace =
          (ofDocument (settings.upTo none) subject rules).trace) ∧
      (N < E.length →
        (ofDocument (settings.upTo (some N)) subject rules).result =
          .ok (E.take N ++ [.limit]) ∧
        Diagnostic.limit.locations = none ∧ Diagnostic.limit.path = none ∧
        ∃ before c after,
          (ofDocument (settings.upTo none) subject rules).trace = before ++ c :: after ∧
          (ofDocument (settings.upTo (some N)) subject rules).trace = before ++ [c] ∧
          (before.flatMap Call.reports).length ≤ N ∧
          N < ((before ++ [c]).flatMap Call.reports).length) := by
  refine ⟨ofDocument_zero settings subject rules, fun N E hpos hE => ?_⟩
  have h := inStep_ofDocument settings subject hpos rules
  generalize ofDocument (settings.upTo none) subject rules = whole at h hE
  generalize ofDocument (settings.upTo (some N)) subject rules = part at h
  obtain ⟨hfailure, hdiagnostics⟩ := result_eq_ok.1 hE
  rcases h with ⟨rfl, htold, hle⟩ | ⟨htold, hcut⟩
  · refine ⟨fun _ => ⟨hE, rfl⟩, fun hlt => ?_⟩
    rw [← hdiagnostics, htold.diagnostics] at hlt
    exact absurd hle (Nat.not_le_of_lt hlt)
  · have hreports : E = whole.trace.flatMap Call.reports := by
      rw [← hdiagnostics, htold.diagnostics]
    obtain ⟨after, hafter⟩ := hcut.kept
    obtain ⟨c, before, hcalls, hbefore, hlt⟩ := hcut.last
    have hpart : part.trace = before.reverse ++ [c] := by
      rw [trace, hcalls, List.reverse_cons]
    have hwhole : whole.trace = before.reverse ++ c :: after.reverse := by
      rw [trace, ← hafter, List.reverse_append, ← trace, hpart]
      simp
    refine ⟨fun hle => ?_, fun _ => ⟨?_, rfl, rfl, before.reverse, c, after.reverse, hwhole, hpart,
      hbefore, ?_⟩⟩
    · have hcount : (part.trace.flatMap Call.reports).length ≤ E.length := by
        rw [hreports, hwhole, hpart]
        simp
      exact absurd (Nat.lt_of_lt_of_le hlt (Nat.le_trans hcount hle)) (Nat.lt_irrefl N)
    · rw [hreports]
      refine result_eq_ok.2 ⟨fun d hd => hfailure d ?_, hcut.diagnostics⟩
      rw [hpart] at hd
      rw [hwhole]
      simp at hd ⊢
      tauto
    · rw [← hpart]
      exact hlt

def twoQueries : Subject :=
  let query column : Definition := .operation ⟨.query, none, [], [],
    [.field ⟨none, "a", [], [], [], some ⟨1, column + 1⟩⟩], some ⟨1, column⟩⟩
  ⟨.empty, ⟨[query 1, query 5], 7⟩⟩

theorem limit_truncates_twoQueries :
    0 < 1 ∧
    (ofDocument (Settings.standard.upTo none) twoQueries [Rules.loneAnonymousOperation]).result =
      .ok [.atLocations .anonymousNotAlone [some ⟨1, 1⟩],
        .atLocations .anonymousNotAlone [some ⟨1, 5⟩]] ∧
    (ofDocument (Settings.standard.upTo (some 1)) twoQueries
        [Rules.loneAnonymousOperation]).result =
      .ok [.atLocations .anonymousNotAlone [some ⟨1, 1⟩], .limit] := by
  have hunlimited := (result_eq_ok (r := ofDocument (Settings.standard.upTo none) twoQueries
    [Rules.loneAnonymousOperation]) (E := [.atLocations .anonymousNotAlone [some ⟨1, 1⟩],
      .atLocations .anonymousNotAlone [some ⟨1, 5⟩]])).2
        ⟨by decide +kernel, by decide +kernel⟩
  have h := (limit_truncates .standard twoQueries [Rules.loneAnonymousOperation]).2 1 _ Nat.one_pos
    hunlimited
  exact ⟨Nat.one_pos, hunlimited, (h.2 (by decide)).1⟩

end Run
end GraphQLCheck
