import GraphQLCheck.Validation.Rule

/-!
A validation run: one traversal of the document for all rules. Rules are called in their order
when a node is entered and in reverse order when it is left. If a rule passes over a node, all
rules do. What is reported at a node gets the path of the node once all rules were called there. A
limit on the number of diagnostics ends the run: the report that goes beyond it is replaced by
`Diagnostic.limit`, and no rule is called any more. If a rule failed, the run has the failure as
its result in place of the diagnostics.
-/
namespace GraphQLCheck

/-- No limit and a limit of zero are the same. -/
structure Settings where
  provider : Provider
  maxErrors : Option Nat
  paths : Bool

namespace Settings

def standard : Settings := ⟨.standard, none, false⟩

def isFull (s : Settings) (count : Nat) : Bool :=
  match s.maxErrors with
  | some n => n > 0 && n ≤ count
  | none => false

end Settings

/-- What was reported so far, the latest first. -/
structure Findings where
  latest : List Diagnostic
  aborted : Bool

namespace Findings

def empty : Findings := ⟨[], false⟩

def diagnostics (f : Findings) : List Diagnostic := f.latest.reverse

def report (s : Settings) (f : Findings) (d : Diagnostic) : Findings :=
  if f.aborted then f
  else if s.isFull f.latest.length then ⟨.limit :: f.latest, true⟩
  else ⟨d :: f.latest, false⟩

def reportAll (s : Settings) (f : Findings) (ds : List Diagnostic) : Findings :=
  ds.foldl (report s) f

def attach (s : Settings) (reported : Nat) (path : Path) (f : Findings) : Findings :=
  if s.paths then
    let new := f.latest.length - reported
    { f with
      latest := (f.latest.take new).map (Diagnostic.attachPath path) ++ f.latest.drop new }
  else f

theorem report_of_aborted (s : Settings) {f : Findings} (h : f.aborted) (d : Diagnostic) :
    f.report s d = f := by
  simp [report, h]

theorem reportAll_of_aborted (s : Settings) {f : Findings} (h : f.aborted)
    (ds : List Diagnostic) : f.reportAll s ds = f := by
  induction ds with
  | nil => rfl
  | cons d ds ih => rw [reportAll, List.foldl_cons, report_of_aborted s h]; exact ih

theorem reportAll_append (s : Settings) (f : Findings) (as bs : List Diagnostic) :
    f.reportAll s (as ++ bs) = (f.reportAll s as).reportAll s bs :=
  List.foldl_append

end Findings

structure ActiveRule where
  position : Nat
  rule : Rule
  state : rule.State

/-- One call of a rule, with what it reported, be it beyond the limit or not, and whether it asked
on the way in to pass over the nodes below. -/
structure Call where
  rule : Nat
  visit : Visit
  reports : List Diagnostic
  failure : Option String
  passes : Bool

def Call.attached (s : Settings) (c : Call) : Call :=
  { c with
    reports :=
      if s.paths then c.reports.map (Diagnostic.attachPath c.visit.path) else c.reports }

/-- A run keeps the calls of rules so far, the latest first. -/
structure Run where
  tracker : Tracker
  rules : List ActiveRule
  findings : Findings
  calls : List Call

namespace Run

def start (rules : List Rule) : Run :=
  ⟨.empty, rules.mapIdx fun i r => ⟨i, r, r.start⟩, .empty, []⟩

structure Answer where
  rule : ActiveRule
  call : Call

def respond (c : RuleContext) (visit : Visit) (a : ActiveRule) : Answer :=
  let reaction := a.rule.react c visit a.state
  ⟨⟨a.position, a.rule, reaction.state⟩,
    ⟨a.position, visit, reaction.reports, reaction.failure,
      visit.phase = .enter ∧ reaction.flow ≠ .next⟩⟩

variable (settings : Settings) (subject : Subject)

/-- The calls of all rules at one node; `skip` tells whether a rule asked to pass over it. -/
structure Round where
  rules : List ActiveRule
  findings : Findings
  calls : List Call
  skip : Bool

def callAll (visit : Visit) : List ActiveRule → Findings → List Call → Round
  | [], findings, calls => ⟨[], findings, calls, false⟩
  | a :: rest, findings, calls =>
    if a.rule.handlers.has visit.slot then
      let x := respond ⟨subject, findings.diagnostics⟩ visit a
      let findings := findings.reportAll settings x.call.reports
      let calls := x.call :: calls
      if findings.aborted then ⟨x.rule :: rest, findings, calls, false⟩
      else
        let round := callAll visit rest findings calls
        { round with rules := x.rule :: round.rules, skip := x.call.passes || round.skip }
    else
      let round := callAll visit rest findings calls
      { round with rules := a :: round.rules }

def Round.attached (reported : Nat) (path : Path) (calls : List Call) (round : Round) : Round :=
  { round with
    findings := round.findings.attach settings reported path
    calls := round.calls.map (Call.attached settings) ++ calls }

def callRound (visit : Visit) (rules : List ActiveRule) (findings : Findings)
    (calls : List Call) : Round :=
  (callAll settings subject visit rules findings []).attached settings findings.latest.length
    visit.path calls

def visitNow (phase : Phase) (node : Node) (path : Path) (t : Tracker) : Visit :=
  ⟨phase, node, path, t.top, t.depth⟩

/-- After the calls on the way in: the frame of a node that is passed over goes. -/
def Round.entered (round : Round) (t : Tracker) : Flow × Run :=
  if round.findings.aborted then (.stop, ⟨t, round.rules, round.findings, round.calls⟩)
  else if round.skip then (.skip, ⟨t.leave, round.rules, round.findings, round.calls⟩)
  else (.next, ⟨t, round.rules, round.findings, round.calls⟩)

def Round.left (round : Round) (t : Tracker) : Flow × Run :=
  if round.findings.aborted then (.stop, ⟨t, round.rules.reverse, round.findings, round.calls⟩)
  else (.next, ⟨t.leave, round.rules.reverse, round.findings, round.calls⟩)

def enter (node : Node) (path : Path) (r : Run) : Flow × Run :=
  if r.findings.aborted then (.stop, r)
  else
    let tracker := r.tracker.enter settings.provider subject.schema node
    (callRound settings subject (visitNow .enter node path tracker) r.rules r.findings
      r.calls).entered tracker

def leave (node : Node) (path : Path) (r : Run) : Flow × Run :=
  if r.findings.aborted then (.stop, r)
  else
    (callRound settings subject (visitNow .leave node path r.tracker) r.rules.reverse r.findings
      r.calls).left r.tracker

def visitor : Visitor Run := ⟨enter settings subject, leave settings subject⟩

def ofDocument (rules : List Rule) : Run :=
  ((visitDocument (visitor settings subject) subject.document).start (start rules)).2

/-- All calls in their order. A failure does not end the traversal here, so that calls behind the
first one that failed stand in the trace too; `result` is that of a run which ends there. -/
def trace (r : Run) : List Call := r.calls.reverse

def failure? (r : Run) : Option String := r.trace.findSome? Call.failure

def result (r : Run) : Except String (List Diagnostic) :=
  match r.failure? with
  | some message => .error message
  | none => .ok r.findings.diagnostics

end Run
end GraphQLCheck
