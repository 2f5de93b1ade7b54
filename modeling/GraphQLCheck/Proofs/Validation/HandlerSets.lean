import GraphQLCheck.Proofs.Validation.Lockstep

/-!
The callbacks that a rule asks for are those at which it does something: every standard rule is
idle at all others (`StandardRule.idle`). A run in which its rules ask for every callback makes the
calls of the run in which they ask for their own, and further ones that come to nothing.
-/
namespace GraphQLCheck

namespace Rule

/-- Where the rule does not ask to be called it would do nothing. -/
def Idle (r : Rule) : Prop :=
  ∀ (c : RuleContext) visit state, r.handlers.has visit.slot = false →
    r.react c visit state = .next state []

def askingAll (r : Rule) : Rule := { r with handlers := .all }

end Rule

/-- All pairs of a rule and a callback: the rule asks for the callback, or does nothing there. -/
theorem StandardRule.idle (r : StandardRule) : r.rule.Idle := by
  intro c visit state h
  obtain ⟨phase, node, path, frame, depth⟩ := visit
  cases r <;> cases phase <;> cases node <;> first
    | rfl
    | (dsimp only [Visit.slot, Node.classOf] at h; exact absurd h (by decide))

def ActiveRule.askingAll (a : ActiveRule) : ActiveRule := ⟨a.position, a.rule.askingAll, a.state⟩

namespace Call

def asked (places : List Rule) (c : Call) : Bool :=
  places[c.rule]?.any (·.handlers.has c.visit.slot)

structure Void (c : Call) : Prop where
  reports : c.reports = []
  failure : c.failure = none

end Call

namespace Run

variable {settings : Settings} {subject : Subject} {visit : Visit} {places : List Rule}
  {calls calls' : List Call}

/-- Of the calls `calls'` those that were asked for are `calls`, and nothing came of the others. -/
structure Sifted (places : List Rule) (calls calls' : List Call) : Prop where
  kept : calls = calls'.filter (Call.asked places)
  void : ∀ c ∈ calls', c.asked places = false → c.Void

theorem Sifted.asked (h : Sifted places calls calls') {c : Call} (hc : c.asked places = true) :
    Sifted places (c :: calls) (c :: calls') := by
  refine ⟨?_, List.forall_mem_cons.2 ⟨fun hnot => ?_, h.void⟩⟩
  · rw [List.filter_cons_of_pos hc, h.kept]
  · rw [hc] at hnot
    contradiction

theorem Sifted.void_cons (h : Sifted places calls calls') {c : Call}
    (hc : c.asked places = false) (hvoid : c.Void) : Sifted places calls (c :: calls') := by
  refine ⟨?_, List.forall_mem_cons.2 ⟨fun _ => hvoid, h.void⟩⟩
  rw [List.filter_cons_of_neg (by simp [hc]), h.kept]

theorem Sifted.failure (h : Sifted places calls calls') :
    calls.reverse.findSome? Call.failure = calls'.reverse.findSome? Call.failure := by
  have hfilter : ∀ cs : List Call, (∀ c ∈ cs, c.asked places = false → c.Void) →
      (cs.filter (Call.asked places)).findSome? Call.failure = cs.findSome? Call.failure := by
    intro cs hcs
    induction cs with
    | nil => rfl
    | cons c cs ih =>
      obtain ⟨hc, hrest⟩ := List.forall_mem_cons.1 hcs
      by_cases hasked : c.asked places
      · rw [List.filter_cons_of_pos hasked, List.findSome?_cons, List.findSome?_cons, ih hrest]
      · have hvoid := hc (by simpa using hasked)
        rw [List.filter_cons_of_neg hasked, List.findSome?_cons, hvoid.failure, ih hrest]
  rw [h.kept, ← List.filter_reverse]
  exact hfilter _ fun c hc => h.void c (List.mem_reverse.1 hc)

structure Round.Sifted (places : List Rule) (x x' : Round) : Prop where
  rules : x'.rules = x.rules.map ActiveRule.askingAll
  findings : x'.findings = x.findings
  calls : Run.Sifted places x.calls x'.calls
  skip : x'.skip = x.skip

variable (settings visit) in
theorem asked_answer {a : ActiveRule} (ha : places[a.position]? = some a.rule) (c : RuleContext) :
    (answer settings c visit a).call.asked places = a.rule.handlers.has visit.slot := by
  have hrule : (answer settings c visit a).call.rule = a.position := rfl
  rw [Call.asked, hrule, ha]
  rfl

theorem respond_idle {a : ActiveRule} (hidle : a.rule.Idle)
    (hnot : a.rule.handlers.has visit.slot = false) (c : RuleContext) :
    respond c visit a = ⟨a, ⟨a.position, visit, [], none, false⟩⟩ := by
  rw [respond, hidle c visit a.state hnot]
  simp [Reaction.next]

variable (settings subject visit) in
theorem sifted_callEach (hidle : ∀ r ∈ places, r.Idle) {rules : List ActiveRule}
    (hrules : InPlaces places rules) (seen : List Diagnostic) {findings : Findings}
    (hgoing : findings.aborted = false) (hcalls : Sifted places calls calls') :
    Round.Sifted places (callEach settings subject visit rules seen findings calls)
      (callEach settings subject visit (rules.map ActiveRule.askingAll) seen findings calls') := by
  induction rules generalizing seen findings calls calls' with
  | nil => exact ⟨rfl, rfl, hcalls, rfl⟩
  | cons a rest ih =>
    have ha : places[a.position]? = some a.rule := hrules a List.mem_cons_self
    have hrest : InPlaces places rest := fun b hb => hrules b (List.mem_cons_of_mem _ hb)
    have hasked := asked_answer settings visit ha ⟨subject, seen⟩
    have hrespond : respond ⟨subject, seen⟩ visit a.askingAll =
        ⟨(respond ⟨subject, seen⟩ visit a).rule.askingAll,
          (respond ⟨subject, seen⟩ visit a).call⟩ := rfl
    have hall : a.askingAll.rule.handlers.has visit.slot = true := Handlers.has_all visit.slot
    rw [List.map_cons, callEach, callEach, if_pos hall]
    dsimp only [answer] at hasked ⊢
    rw [hrespond]
    by_cases hhas : a.rule.handlers.has visit.slot
    · rw [if_pos hhas]
      rw [hhas] at hasked
      generalize respond ⟨subject, seen⟩ visit a = x at hasked
      dsimp only
      split
      · exact ⟨rfl, rfl, hcalls.asked hasked, rfl⟩
      · next hnot =>
        have hround := ih hrest (seen ++ x.call.reports) (by simpa using hnot)
          (hcalls.asked hasked)
        refine ⟨?_, hround.findings, hround.calls, ?_⟩
        · rw [hround.rules, List.map_cons]
        · rw [hround.skip]
    -- The call that was not asked for leaves everything as it was.
    · have hnot : a.rule.handlers.has visit.slot = false := by simpa using hhas
      have hidle := respond_idle (hidle a.rule (List.mem_of_getElem? ha)) hnot ⟨subject, seen⟩
      rw [if_neg hhas]
      rw [hnot] at hasked
      rw [hidle] at hasked ⊢
      have hreports : (Call.attached settings ⟨a.position, visit, [], none, false⟩).reports = [] :=
        ite_self _
      have hsame : findings.reportAll settings [] = findings := rfl
      have hround := ih hrest seen hgoing (hcalls.void_cons hasked ⟨hreports, rfl⟩)
      dsimp only
      rw [hreports, hsame, if_neg (by simp [hgoing]), List.append_nil]
      refine ⟨?_, hround.findings, hround.calls, ?_⟩
      · rw [hround.rules, List.map_cons]
      · rw [hround.skip]
        simp [Call.attached]

structure SiftedRun (places : List Rule) (r r' : Run) : Prop where
  tracker : r'.tracker = r.tracker
  rules : r'.rules = r.rules.map ActiveRule.askingAll
  findings : r'.findings = r.findings
  calls : Sifted places r.calls r'.calls
  inPlaces : InPlaces places r.rules

variable {r r' : Run}

theorem SiftedRun.enter (hidle : ∀ r ∈ places, r.Idle) (h : SiftedRun places r r') (n : Node)
    (p : Path) :
    Tree.Alike (SiftedRun places) (enter settings subject n p r)
      (enter settings subject n p r') := by
  have hplaces := h.inPlaces.enter settings subject n p
  rw [enter_eq] at hplaces ⊢
  rw [enter_eq, h.findings, h.tracker, h.rules]
  split
  · exact ⟨rfl, h⟩
  · next hnot =>
    rw [if_neg hnot, rules_entered] at hplaces
    have hround := sifted_callEach settings subject
      (visitNow .enter n p (r.tracker.enter settings.provider subject.schema n)) hidle h.inPlaces
      r.findings.diagnostics (by simpa using hnot) h.calls
    dsimp only
    simp only [Round.entered, hround.findings, hround.skip]
    split
    · exact ⟨rfl, rfl, hround.rules, rfl, hround.calls, hplaces⟩
    split
    · exact ⟨rfl, rfl, hround.rules, rfl, hround.calls, hplaces⟩
    · exact ⟨rfl, rfl, hround.rules, rfl, hround.calls, hplaces⟩

theorem SiftedRun.leave (hidle : ∀ r ∈ places, r.Idle) (h : SiftedRun places r r') (n : Node)
    (p : Path) :
    Tree.Alike (SiftedRun places) (leave settings subject n p r)
      (leave settings subject n p r') := by
  have hplaces := h.inPlaces.leave settings subject n p
  rw [leave_eq] at hplaces ⊢
  rw [leave_eq, h.findings, h.tracker, h.rules, ← List.map_reverse]
  split
  · exact ⟨rfl, h⟩
  · next hnot =>
    rw [if_neg hnot, rules_left] at hplaces
    have hround := sifted_callEach settings subject (visitNow .leave n p r.tracker) hidle
      h.inPlaces.reverse r.findings.diagnostics (by simpa using hnot) h.calls
    simp only [Round.left, hround.findings, hround.rules, ← List.map_reverse]
    split
    · exact ⟨rfl, rfl, rfl, rfl, hround.calls, hplaces⟩
    · exact ⟨rfl, rfl, rfl, rfl, hround.calls, hplaces⟩

theorem siftedRun_start (rules : List Rule) :
    SiftedRun rules (start rules) (start (rules.map Rule.askingAll)) := by
  refine ⟨rfl, ?_, rfl, ⟨rfl, by simp [start]⟩, inPlaces_start rules⟩
  apply List.ext_getElem?
  intro i
  simp only [start, List.getElem?_mapIdx, List.getElem?_map, Option.map_map]
  rfl

theorem siftedRun_ofDocument (settings : Settings) (subject : Subject) {rules : List Rule}
    (hidle : ∀ r ∈ rules, r.Idle) :
    SiftedRun rules (ofDocument settings subject rules)
      (ofDocument settings subject (rules.map Rule.askingAll)) := by
  have hparallel : Tree.Parallel id (visitor settings subject) (visitor settings subject)
      (SiftedRun rules) :=
    ⟨fun n => by simp, fun n p _ _ h => h.enter hidle n p, fun n p _ _ h => h.leave hidle n p⟩
  rw [ofDocument_eq_run, ofDocument_eq_run]
  exact (hparallel.run (.document subject.document) .root (siftedRun_start rules)).2

/-- Standard rules have the same result whether they are called at the callbacks they ask for or
at all: the calls that they did not ask for come to nothing, and the others are the same. -/
theorem result_askingAll (settings : Settings) (subject : Subject) (rules : List StandardRule) :
    let places := rules.map StandardRule.rule
    let own := ofDocument settings subject places
    let all := ofDocument settings subject (places.map Rule.askingAll)
    all.result = own.result ∧ all.findings = own.findings ∧
    own.trace = all.trace.filter (Call.asked places) ∧
    ∀ c ∈ all.trace, c.asked places = false → c.Void := by
  intro places own all
  have hidle : ∀ r ∈ places, r.Idle := by
    intro r hr
    obtain ⟨x, -, rfl⟩ := List.mem_map.1 hr
    exact x.idle
  have h : SiftedRun places own all := siftedRun_ofDocument settings subject hidle
  refine ⟨?_, h.findings, ?_, fun c hc => h.calls.void c (List.mem_reverse.1 hc)⟩
  · have hfailure : all.failure? = own.failure? := h.calls.failure.symm
    rw [result, result, hfailure, h.findings]
  · rw [trace, trace, h.calls.kept, List.filter_reverse]

end Run
end GraphQLCheck
