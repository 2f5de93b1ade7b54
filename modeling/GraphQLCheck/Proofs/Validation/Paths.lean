import GraphQLCheck.Proofs.Validation.Lockstep
import GraphQLCheck.Proofs.Validation.Outline

/-!
Runs with paths and runs without. Both make the same calls, and what a run collects is worked out
from what its calls reported, in their order and up to the limit (`Settings.cut`). With paths each
report gets the path of the visit at which it was made, whichever call the limit ends the run at.
-/
namespace GraphQLCheck

namespace Settings

def withPaths (s : Settings) (paths : Bool) : Settings := { s with paths }

def cut (s : Settings) (ds : List Diagnostic) : List Diagnostic :=
  match s.maxErrors with
  | some n => if 0 < n ∧ n < ds.length then ds.take n ++ [.limit] else ds
  | none => ds

end Settings

structure Report where
  rule : Nat
  visit : Visit
  diagnostic : Diagnostic

def Report.located (x : Report) : Diagnostic := x.diagnostic.attachPath x.visit.path

namespace Call

def attributed (c : Call) : List Report := c.reports.map (⟨c.rule, c.visit, ·⟩)

def located (c : Call) : Call :=
  { c with reports := c.reports.map (Diagnostic.attachPath c.visit.path) }

theorem map_diagnostic_attributed (c : Call) : c.attributed.map Report.diagnostic = c.reports := by
  rw [attributed, List.map_map]
  exact List.map_id _

theorem map_located_attributed (c : Call) :
    c.attributed.map Report.located = c.located.reports := by
  rw [attributed, List.map_map]
  rfl

/-- The call of a rule that asked for it, with what the rule reported there and no more. -/
def Genuine (subject : Subject) (rules : List Rule) (c : Call) : Prop :=
  ∃ r : Rule, rules[c.rule]? = some r ∧ r.handlers.has c.visit.slot ∧
    ∃ state, c.reports = (r.react subject c.visit state).reports ∧
      c.failure = (r.react subject c.visit state).failure

end Call

/-- `d'` is `d`, reported at a node with path `p`. -/
structure Diagnostic.LocatedAt (p : Path) (d d' : Diagnostic) : Prop where
  problem : d'.problem = d.problem
  locations : d'.locations = d.locations
  added : d.path = none → d.locations ≠ none → d'.path = some p
  kept : d.path ≠ none ∨ d.locations = none → d'.path = d.path

theorem Diagnostic.locatedAt_attachPath (p : Path) (d : Diagnostic) :
    d.LocatedAt p (d.attachPath p) := by
  obtain ⟨problem, locations, path⟩ := d
  cases path with
  | some q => exact ⟨rfl, rfl, by simp, fun _ => rfl⟩
  | none =>
    cases locations with
    | some ls => exact ⟨rfl, rfl, fun _ _ => rfl, by simp⟩
    | none => exact ⟨rfl, rfl, by simp, fun _ => rfl⟩

theorem Settings.map_withoutPath_cut (s : Settings) (ds : List Diagnostic) :
    (s.cut ds).map Diagnostic.withoutPath = s.cut (ds.map Diagnostic.withoutPath) := by
  rw [cut, cut, List.length_map]
  split
  · split
    · rw [List.map_append, List.map_take]
      rfl
    · rfl
  · rfl

namespace Findings

variable {settings : Settings}

theorem diagnostics_reportAll (ds : List Diagnostic) :
    (empty.reportAll settings ds).diagnostics = settings.cut ds := by
  have hsettings : settings = settings.upTo settings.maxErrors := rfl
  rw [hsettings, Settings.cut, empty]
  cases hmax : settings.maxErrors with
  | none =>
    rw [reportAll_unlimited, diagnostics]
    simp [Settings.upTo]
  | some n =>
    simp only [Settings.upTo]
    by_cases hpos : 0 < n
    · by_cases hlt : n < ds.length
      · rw [if_pos ⟨hpos, hlt⟩]
        have h := reportAll_of_lt settings hpos [] ds (Nat.zero_le n) (by simpa using hlt)
        rw [Settings.upTo] at h
        simp [h, diagnostics]
      · rw [if_neg fun h => hlt h.2]
        have h := reportAll_of_le settings (N := n) [] ds (by simpa using hlt)
        rw [Settings.upTo] at h
        simp [h, diagnostics]
    · obtain rfl : n = 0 := by omega
      have h := reportAll_zero settings ⟨[], false⟩ ds
      rw [reportAll_unlimited, Settings.upTo] at h
      simp [h, diagnostics]

structure Even (f f' : Findings) : Prop where
  aborted : f'.aborted = f.aborted
  count : f'.latest.length = f.latest.length

variable {f f' : Findings}

theorem Even.report (h : Even f f') (d d' : Diagnostic) :
    Even (f.report settings d) (f'.report settings d') := by
  simp only [Findings.report, h.aborted, h.count]
  split
  · exact h
  split
  · exact ⟨rfl, congrArg Nat.succ h.count⟩
  · exact ⟨rfl, congrArg Nat.succ h.count⟩

theorem Even.reportAll (h : Even f f') {ds ds' : List Diagnostic}
    (hlength : ds'.length = ds.length) :
    Even (f.reportAll settings ds) (f'.reportAll settings ds') := by
  induction ds generalizing f f' ds' with
  | nil =>
    obtain rfl := List.length_eq_zero_iff.1 hlength
    exact h
  | cons d ds ih =>
    cases ds' with
    | nil => simp at hlength
    | cons d' ds' => exact ih (h.report d d') (Nat.succ.inj hlength)

end Findings

namespace Run

variable (settings : Settings) (subject : Subject)

def attributed (r : Run) : List Report := r.trace.flatMap Call.attributed

theorem map_diagnostic_attributed (r : Run) :
    r.attributed.map Report.diagnostic = r.trace.flatMap Call.reports := by
  rw [attributed, List.map_flatMap]
  simp only [Call.map_diagnostic_attributed]

theorem map_located_attributed (r : Run) :
    r.attributed.map Report.located = (r.trace.map Call.located).flatMap Call.reports := by
  rw [attributed, List.map_flatMap, List.flatMap_map]
  simp only [Call.map_located_attributed]

def gathered (calls : List Call) : Findings := Findings.empty.reportAll settings (reported calls)

theorem gathered_cons (c : Call) (calls : List Call) :
    gathered settings (c :: calls) = (gathered settings calls).reportAll settings c.reports := by
  rw [gathered, reported_cons, Findings.reportAll_append, gathered]

variable {settings subject} {visit : Visit} {calls : List Call} {n : Node} {p : Path} {r : Run}

theorem gathered_callEach (rules : List ActiveRule) (seen : List Diagnostic) :
    (callEach settings subject visit rules seen (gathered settings calls) calls).findings =
      gathered settings
        (callEach settings subject visit rules seen (gathered settings calls) calls).calls := by
  induction rules generalizing seen calls with
  | nil => rfl
  | cons a rest ih =>
    simp only [callEach, ← gathered_cons]
    split
    · split
      · rfl
      · exact ih _
    · exact ih _

theorem gathered_enter (h : r.findings = gathered settings r.calls) :
    (enter settings subject n p r).2.findings =
      gathered settings (enter settings subject n p r).2.calls := by
  rw [enter_eq]
  split
  · exact h
  · rw [findings_entered, calls_entered, h]
    exact gathered_callEach _ _

theorem gathered_leave (h : r.findings = gathered settings r.calls) :
    (leave settings subject n p r).2.findings =
      gathered settings (leave settings subject n p r).2.calls := by
  rw [leave_eq]
  split
  · exact h
  · rw [findings_left, calls_left, h]
    exact gathered_callEach _ _

theorem gathered_ofDocument (settings : Settings) (subject : Subject) (rules : List Rule) :
    (ofDocument settings subject rules).findings =
      gathered settings (ofDocument settings subject rules).calls := by
  have hkeeps : Tree.Keeps (visitor settings subject)
      fun r => r.findings = gathered settings r.calls :=
    ⟨fun _ _ _ h => gathered_enter h, fun _ _ _ h => gathered_leave h⟩
  rw [ofDocument_eq_run]
  exact hkeeps.run _ rfl

theorem diagnostics_ofDocument (settings : Settings) (subject : Subject) (rules : List Rule) :
    (ofDocument settings subject rules).findings.diagnostics =
      settings.cut ((ofDocument settings subject rules).trace.flatMap Call.reports) := by
  rw [gathered_ofDocument, gathered, Findings.diagnostics_reportAll, reported, trace]

structure Unlocated (subject : Subject) (places : List Rule) (r : Run) : Prop where
  rules : InPlaces places r.rules
  calls : ∀ c ∈ r.calls, c.Genuine subject places

variable {places : List Rule}

theorem InPlaces.blind (hblind : ∀ r ∈ places, r.Blind) {rules : List ActiveRule}
    (h : InPlaces places rules) : ∀ a ∈ rules, a.rule.Blind :=
  fun a ha => hblind a.rule (List.mem_of_getElem? (h a ha))

theorem genuine_callEach (hblind : ∀ r ∈ places, r.Blind) (hplain : settings.paths = false)
    {rules : List ActiveRule} (hrules : InPlaces places rules) {seen : List Diagnostic}
    {findings : Findings} (hcalls : ∀ c ∈ calls, c.Genuine subject places) :
    ∀ c ∈ (callEach settings subject visit rules seen findings calls).calls,
      c.Genuine subject places := by
  intro c hc
  rcases call_of_mem_callEach settings subject hc with hc | ⟨a, ha, hhas, seen, rfl⟩
  · exact hcalls c hc
  · rw [answer_blind settings (hrules.blind hblind a ha)]
    refine ⟨a.rule, hrules a ha, hhas, a.state, ?_, rfl⟩
    rw [reports_answer, hplain]
    rfl

theorem Unlocated.enter (hblind : ∀ r ∈ places, r.Blind) (hplain : settings.paths = false)
    (h : r.Unlocated subject places) :
    (enter settings subject n p r).2.Unlocated subject places := by
  refine ⟨h.rules.enter settings subject n p, ?_⟩
  rw [enter_eq]
  split
  · exact h.calls
  · rw [calls_entered]
    exact genuine_callEach hblind hplain h.rules h.calls

theorem Unlocated.leave (hblind : ∀ r ∈ places, r.Blind) (hplain : settings.paths = false)
    (h : r.Unlocated subject places) :
    (leave settings subject n p r).2.Unlocated subject places := by
  refine ⟨h.rules.leave settings subject n p, ?_⟩
  rw [leave_eq]
  split
  · exact h.calls
  · rw [calls_left]
    exact genuine_callEach hblind hplain h.rules.reverse h.calls

theorem genuine_ofDocument (hblind : ∀ r ∈ places, r.Blind) (hplain : settings.paths = false) :
    ∀ c ∈ (ofDocument settings subject places).trace, c.Genuine subject places := by
  have hkeeps : Tree.Keeps (visitor settings subject) (Unlocated subject places) :=
    ⟨fun _ _ _ h => h.enter hblind hplain, fun _ _ _ h => h.leave hblind hplain⟩
  have hstart : (start places).Unlocated subject places :=
    ⟨inPlaces_start places, by simp [start]⟩
  intro c hc
  rw [ofDocument_eq_run] at hc
  exact (hkeeps.run _ hstart).calls c (List.mem_reverse.1 hc)

theorem placed_ofDocument (settings : Settings) (subject : Subject) (rules : List Rule) :
    ∀ c ∈ (ofDocument settings subject rules).trace,
      c.visit.Placed settings.provider subject.schema (.document subject.document) := by
  intro c hc
  have hcalls := (ends_ofDocument settings subject rules).elim Halted.calls Placed.calls
  exact hcalls c (List.mem_reverse.1 hc)

variable (settings) in
def Round.located (round : Round) : Round :=
  { round with
    findings := gathered settings (round.calls.map Call.located)
    calls := round.calls.map Call.located }

variable (settings) in
def located (r : Run) : Run :=
  { r with
    findings := gathered settings (r.calls.map Call.located)
    calls := r.calls.map Call.located }

theorem trace_located (r : Run) : (r.located settings).trace = r.trace.map Call.located := by
  rw [trace, trace, located, List.map_reverse]

theorem failure?_located (r : Run) : (r.located settings).failure? = r.failure? := by
  have hfailure : Call.failure ∘ Call.located = Call.failure := rfl
  rw [failure?, failure?, trace_located, List.findSome?_map, hfailure]

theorem length_reported_located (calls : List Call) :
    (reported (calls.map Call.located)).length = (reported calls).length := by
  induction calls with
  | nil => rfl
  | cons c calls ih => simp [reported_cons, ih, Call.located]

theorem aborted_located (calls : List Call) :
    (gathered settings (calls.map Call.located)).aborted = (gathered settings calls).aborted :=
  ((⟨rfl, rfl⟩ : Findings.Even .empty .empty).reportAll (length_reported_located calls)).aborted

theorem answer_located {a : ActiveRule} (h : a.rule.Blind) (subject : Subject) (visit : Visit)
    (seen seen' : List Diagnostic) :
    answer (settings.withPaths true) ⟨subject, seen'⟩ visit a =
      ⟨(answer (settings.withPaths false) ⟨subject, seen⟩ visit a).rule,
        (answer (settings.withPaths false) ⟨subject, seen⟩ visit a).call.located⟩ := by
  rw [answer_blind _ h ⟨subject, seen⟩, answer_blind _ h ⟨subject, seen'⟩]
  rfl

variable (settings subject visit calls) in
theorem callEach_located {rules : List ActiveRule} (hrules : ∀ a ∈ rules, a.rule.Blind)
    (seen seen' : List Diagnostic) :
    callEach (settings.withPaths true) subject visit rules seen'
        (gathered settings (calls.map Call.located)) (calls.map Call.located) =
      (callEach (settings.withPaths false) subject visit rules seen (gathered settings calls)
        calls).located settings := by
  induction rules generalizing seen seen' calls with
  | nil => rfl
  | cons a rest ih =>
    obtain ⟨ha, hrest⟩ := List.forall_mem_cons.1 hrules
    simp only [callEach]
    rw [answer_located ha subject visit seen seen']
    split
    · generalize answer (settings.withPaths false) ⟨subject, seen⟩ visit a = x
      have hplain : (gathered settings calls).reportAll (settings.withPaths false) x.call.reports =
          gathered settings (x.call :: calls) := (gathered_cons settings x.call calls).symm
      have hpathed : (gathered settings (calls.map Call.located)).reportAll
          (settings.withPaths true) x.call.located.reports =
            gathered settings ((x.call :: calls).map Call.located) :=
        (gathered_cons settings x.call.located _).symm
      have hcalls : x.call.located :: calls.map Call.located =
          (x.call :: calls).map Call.located := rfl
      dsimp only
      rw [hplain, hpathed, aborted_located, hcalls,
        ih (x.call :: calls) hrest (seen ++ (respond ⟨subject, seen⟩ visit a).call.reports)]
      split
      · rfl
      · rfl
    · rw [ih calls hrest seen]
      rfl

theorem entered_located {round : Round} (h : round.findings = gathered settings round.calls)
    (t : Tracker) :
    (round.located settings).entered t =
      Prod.map id (Run.located settings) (round.entered t) := by
  rw [Round.entered, Round.entered, Round.located, aborted_located, ← h]
  split
  · rfl
  split
  · rfl
  · rfl

theorem left_located {round : Round} (h : round.findings = gathered settings round.calls)
    (t : Tracker) :
    (round.located settings).left t = Prod.map id (Run.located settings) (round.left t) := by
  rw [Round.left, Round.left, Round.located, aborted_located, ← h]
  split
  · rfl
  · rfl

variable (subject n p) in
theorem enter_located (hrules : ∀ a ∈ r.rules, a.rule.Blind)
    (h : r.findings = gathered settings r.calls) :
    enter (settings.withPaths true) subject n p (r.located settings) =
      Prod.map id (located settings) (enter (settings.withPaths false) subject n p r) := by
  have haborted : (r.located settings).findings.aborted = r.findings.aborted := by
    rw [h]
    exact aborted_located r.calls
  rw [enter_eq, enter_eq, haborted]
  split
  · rfl
  · rw [h]
    have hround := callEach_located settings subject
      (visitNow .enter n p (r.tracker.enter settings.provider subject.schema n)) r.calls hrules
      (gathered settings r.calls).diagnostics (r.located settings).findings.diagnostics
    exact (congrArg (Round.entered · _) hround).trans
      (entered_located (gathered_callEach r.rules _) _)

variable (subject n p) in
theorem leave_located (hrules : ∀ a ∈ r.rules, a.rule.Blind)
    (h : r.findings = gathered settings r.calls) :
    leave (settings.withPaths true) subject n p (r.located settings) =
      Prod.map id (located settings) (leave (settings.withPaths false) subject n p r) := by
  have haborted : (r.located settings).findings.aborted = r.findings.aborted := by
    rw [h]
    exact aborted_located r.calls
  rw [leave_eq, leave_eq, haborted]
  split
  · rfl
  · rw [h]
    have hround := callEach_located settings subject (visitNow .leave n p r.tracker) r.calls
      (fun a ha => hrules a (List.mem_reverse.1 ha)) (gathered settings r.calls).diagnostics
      (r.located settings).findings.diagnostics
    exact (congrArg (Round.left · _) hround).trans (left_located (gathered_callEach _ _) _)

/-- A run of blind rules with paths is the one without, with paths. -/
theorem ofDocument_located (settings : Settings) (subject : Subject) {rules : List Rule}
    (hblind : ∀ r ∈ rules, r.Blind) :
    ofDocument (settings.withPaths true) subject rules =
      (ofDocument (settings.withPaths false) subject rules).located settings := by
  have hparallel : Tree.Parallel id (visitor (settings.withPaths false) subject)
      (visitor (settings.withPaths true) subject) fun r r' =>
        InPlaces rules r.rules ∧ r.findings = gathered settings r.calls ∧
          r' = r.located settings := by
    refine ⟨fun n => by simp, ?_, ?_⟩
    · rintro n p r _ ⟨hplaces, h, rfl⟩
      have henter := enter_located subject n p (hplaces.blind hblind) h
      exact ⟨(congrArg Prod.fst henter).symm, hplaces.enter _ subject n p, gathered_enter h,
        congrArg Prod.snd henter⟩
    · rintro n p r _ ⟨hplaces, h, rfl⟩
      have hleave := leave_located subject n p (hplaces.blind hblind) h
      exact ⟨(congrArg Prod.fst hleave).symm, hplaces.leave _ subject n p, gathered_leave h,
        congrArg Prod.snd hleave⟩
  have hstart : InPlaces rules (start rules).rules ∧
      (start rules).findings = gathered settings (start rules).calls ∧
      start rules = (start rules).located settings := ⟨inPlaces_start rules, rfl, rfl⟩
  rw [ofDocument_eq_run, ofDocument_eq_run]
  exact (hparallel.run (.document subject.document) .root hstart).2.2.2

/-- With paths a run of blind rules makes the same calls as without, fails if the other does, and
has the same diagnostics in the same order. Each of them that has locations and no path of its own
gets the path of the visit at which it was reported; without paths they are as their rules reported
them. -/
theorem paths_added (settings : Settings) (subject : Subject) (rules : List Rule)
    (hblind : ∀ r ∈ rules, r.Blind) :
    let plain := ofDocument (settings.withPaths false) subject rules
    let pathed := ofDocument (settings.withPaths true) subject rules
    (∀ c ∈ plain.trace, c.Genuine subject rules ∧
      c.visit.Placed settings.provider subject.schema (.document subject.document)) ∧
    pathed.trace = plain.trace.map Call.located ∧
    (∀ x ∈ plain.attributed, x.diagnostic.LocatedAt x.visit.path x.located) ∧
    Diagnostic.limit.locations = none ∧ Diagnostic.limit.path = none ∧
    match plain.result with
    | .error message => pathed.result = .error message
    | .ok E =>
      E = settings.cut (plain.attributed.map Report.diagnostic) ∧
      pathed.result = .ok (settings.cut (plain.attributed.map Report.located)) ∧
      (settings.cut (plain.attributed.map Report.located)).map Diagnostic.withoutPath =
        E.map Diagnostic.withoutPath := by
  intro plain pathed
  have hpathed : pathed = plain.located settings := ofDocument_located settings subject hblind
  have htrace : pathed.trace = plain.trace.map Call.located := by rw [hpathed, trace_located]
  have hfailure : pathed.failure? = plain.failure? := by rw [hpathed, failure?_located]
  have hgenuine : ∀ c ∈ plain.trace, c.Genuine subject rules := genuine_ofDocument hblind rfl
  have hplaced := placed_ofDocument (settings.withPaths false) subject rules
  refine ⟨fun c hc => ⟨hgenuine c hc, hplaced c hc⟩, htrace,
    fun x _ => x.diagnostic.locatedAt_attachPath x.visit.path, rfl, rfl, ?_⟩
  have hplainDiagnostics : plain.findings.diagnostics =
      settings.cut (plain.attributed.map Report.diagnostic) := by
    rw [map_diagnostic_attributed]
    exact diagnostics_ofDocument (settings.withPaths false) subject rules
  have hpathedDiagnostics : pathed.findings.diagnostics =
      settings.cut (plain.attributed.map Report.located) := by
    rw [map_located_attributed, ← htrace]
    exact diagnostics_ofDocument (settings.withPaths true) subject rules
  rw [result, result, hfailure]
  cases plain.failure? with
  | some message => rfl
  | none =>
    refine ⟨hplainDiagnostics, congrArg Except.ok hpathedDiagnostics, ?_⟩
    rw [hplainDiagnostics, Settings.map_withoutPath_cut, Settings.map_withoutPath_cut,
      List.map_map, List.map_map]
    apply congrArg settings.cut
    exact List.map_congr_left fun x _ => x.diagnostic.withoutPath_attachPath x.visit.path

theorem paths_added_twoQueries :
    let settings : Settings := ⟨.standard, some 1, false⟩
    let plain := ofDocument (settings.withPaths false) twoQueries [Rules.loneAnonymousOperation]
    let pathed := ofDocument (settings.withPaths true) twoQueries [Rules.loneAnonymousOperation]
    (∀ r ∈ [Rules.loneAnonymousOperation], r.Blind) ∧
    pathed.trace = plain.trace.map Call.located ∧
    plain.findings.diagnostics.map Diagnostic.pathTexts = [none, none] ∧
    pathed.findings.diagnostics.map Diagnostic.pathTexts = [some ["0"], none] := by
  intro settings plain pathed
  have hblind : ∀ r ∈ [Rules.loneAnonymousOperation], r.Blind :=
    List.forall_mem_singleton.2 StandardRule.loneAnonymousOperation.blind
  exact ⟨hblind, (paths_added settings twoQueries _ hblind).2.1, by decide +kernel,
    by decide +kernel⟩

end Run
end GraphQLCheck
