import GraphQLCheck.Proofs.Validation.Position
import Mathlib.Data.List.Forall2

/-!
Two runs of blind rules that keep in step. The second run comes to the image of every node that the
first one comes to, its rules are in states that correspond and report the image of what those of
the first report. `Change` tells what the two runs differ in, `Rule.Steady` that a rule follows the
change, and `result_of_steady` that a run of such rules does.
-/
namespace GraphQLCheck

universe u

namespace Tree

variable {σ τ : Type u}

def Alike (R : σ → τ → Prop) (x : Flow × σ) (y : Flow × τ) : Prop := x.1 = y.1 ∧ R x.2 y.2

structure Parallel (g : Node → Node) (v : Visitor σ) (w : Visitor τ) (R : σ → τ → Prop) :
    Prop where
  children : ∀ n : Node, (g n).children = n.children.map fun c => ⟨c.steps, g c.node⟩
  enter : ∀ n p s t, R s t → Alike R (v.enter n p s) (w.enter (g n) p t)
  leave : ∀ n p s t, R s t → Alike R (v.leave n p s) (w.leave (g n) p t)

section
variable {g : Node → Node} {v : Visitor σ} {w : Visitor τ} {R : σ → τ → Prop}

theorem alike_runAll {α : Type} {f h : α → Tree} {as : List α}
    (hrun : ∀ a ∈ as, ∀ s t, R s t → Alike R ((f a).run v s) ((h a).run w t)) {s : σ} {t : τ}
    (hst : R s t) : Alike R (runAll v (as.map f) s) (runAll w (as.map h) t) := by
  induction as generalizing s t with
  | nil => exact ⟨rfl, hst⟩
  | cons a as ih =>
    have ha := hrun a List.mem_cons_self s t hst
    have hrest := fun {x y} => ih (fun b hb => hrun b (List.mem_cons_of_mem _ hb)) (s := x) (t := y)
    simp only [List.map_cons, runAll]
    generalize (f a).run v s = x at ha
    generalize (h a).run w t = y at ha
    obtain ⟨flow, x⟩ := x
    obtain ⟨_, y⟩ := y
    obtain ⟨rfl, hxy⟩ := ha
    cases flow with
    | next => exact hrest hxy
    | stop => exact ⟨rfl, hxy⟩
    | skip => exact hrest hxy

theorem Parallel.run (hp : Parallel g v w R) (n : Node) (p : Path) {s : σ} {t : τ}
    (hst : R s t) : Alike R ((n.tree p).run v s) (((g n).tree p).run w t) := by
  -- On the tree of the node: the children of the image are the images of the children.
  induction n using Node.childInduction generalizing p s t with
  | step n ih =>
    have hbelow : ∀ x y, R x y → Alike R (runAll v (n.children.map (Child.tree p)) x)
        (runAll w ((g n).children.map (Child.tree p)) y) := by
      intro x y hxy
      rw [hp.children, List.map_map]
      exact alike_runAll (fun c hc _ _ h => ih c hc _ h) hxy
    have he := hp.enter n p s t hst
    rw [Node.tree_eq, Node.tree_eq]
    simp only [Tree.run]
    generalize v.enter n p s = x at he
    generalize w.enter (g n) p t = y at he
    obtain ⟨flow, x⟩ := x
    obtain ⟨_, y⟩ := y
    obtain ⟨rfl, hxy⟩ := he
    cases flow with
    | next =>
      have hb := hbelow x y hxy
      simp only
      generalize runAll v (n.children.map (Child.tree p)) x = x' at hb
      generalize runAll w ((g n).children.map (Child.tree p)) y = y' at hb
      obtain ⟨flow, x'⟩ := x'
      obtain ⟨_, y'⟩ := y'
      obtain ⟨rfl, hxy⟩ := hb
      cases flow with
      | next => exact hp.leave n p x' y' hxy
      | stop => exact ⟨rfl, hxy⟩
      | skip => exact hp.leave n p x' y' hxy
    | stop => exact ⟨rfl, hxy⟩
    | skip => exact ⟨rfl, hxy⟩

end

end Tree

/-- What a second run has in the place of the nodes, the diagnostics and the frames of the first. -/
structure Change where
  node : Node → Node
  report : Diagnostic → Diagnostic
  frame : Frame → Frame → Prop

structure Visit.Follows (k : Change) (v v' : Visit) : Prop where
  phase : v'.phase = v.phase
  node : v'.node = k.node v.node
  path : v'.path = v.path
  frame : k.frame v.frame v'.frame
  depth : v'.depth = v.depth

structure Reaction.Follows {σ : Type} (k : Change) (same : σ → σ → Prop) (x x' : Reaction σ) :
    Prop where
  state : same x.state x'.state
  reports : x'.reports = x.reports.map k.report
  flow : x'.flow = x.flow
  failure : x'.failure = x.failure

/-- From states that correspond a rule goes to states that correspond. -/
def Rule.Follows (k : Change) (subject subject' : Subject) (r : Rule)
    (same : r.State → r.State → Prop) : Prop :=
  ∀ v v' s s', Visit.Follows k v v' → same s s' →
    Reaction.Follows k same (r.react subject v s) (r.react subject' v' s')

def Rule.Steady (k : Change) (subject subject' : Subject) (r : Rule) : Prop :=
  ∃ same : r.State → r.State → Prop, same r.start r.start ∧ r.Follows k subject subject' same

theorem Rule.steady_stateless {k : Change} {subject subject' : Subject} {handlers : Handlers}
    {reports : Subject → Visit → List Diagnostic}
    (h : ∀ v v', Visit.Follows k v v' →
      reports subject' v' = (reports subject v).map k.report) :
    (Rule.stateless handlers reports).Steady k subject subject' :=
  ⟨fun _ _ => True, trivial, fun v v' _ _ hv _ => ⟨trivial, h v v' hv, rfl, rfl⟩⟩

inductive ActiveRule.Follows (k : Change) (subject subject' : Subject) :
    ActiveRule → ActiveRule → Prop
  | intro {position : Nat} {r : Rule} {same : r.State → r.State → Prop} {s s' : r.State}
    (hblind : r.Blind) (hr : r.Follows k subject subject' same) (hs : same s s') :
    Follows k subject subject' ⟨position, r, s⟩ ⟨position, r, s'⟩

/-- A change that keeps the classes of nodes and the nodes below them, that is in keeping with
limit and paths, and that frames follow from the frame of the node above. -/
structure Change.Lawful (k : Change) (settings : Settings) (subject subject' : Subject) :
    Prop where
  document : k.node (.document subject.document) = .document subject'.document
  classOf : ∀ n, (k.node n).classOf = n.classOf
  children : ∀ n : Node, (k.node n).children = n.children.map fun c => ⟨c.steps, k.node c.node⟩
  limit : k.report .limit = .limit
  attachPath : ∀ p d, k.report (d.attachPath p) = (k.report d).attachPath p
  empty : k.frame .empty .empty
  enter : ∀ f f' n, k.frame f f' →
    k.frame (f.enter settings.provider subject.schema n)
      (f'.enter settings.provider subject'.schema (k.node n))

def Findings.map (report : Diagnostic → Diagnostic) (f : Findings) : Findings :=
  ⟨f.latest.map report, f.aborted⟩

@[simp]
theorem Findings.aborted_map (report : Diagnostic → Diagnostic) (f : Findings) :
    (f.map report).aborted = f.aborted := rfl

namespace Run

variable {k : Change} {settings : Settings} {subject subject' : Subject}

theorem map_report (hk : k.Lawful settings subject subject') (f : Findings) (d : Diagnostic) :
    (f.map k.report).report settings (k.report d) = (f.report settings d).map k.report := by
  simp only [Findings.report, Findings.map, List.length_map]
  split
  · rfl
  split
  · rw [List.map_cons, hk.limit]
  · rfl

theorem map_reportAll (hk : k.Lawful settings subject subject') (f : Findings)
    (ds : List Diagnostic) :
    (f.map k.report).reportAll settings (ds.map k.report) =
      (f.reportAll settings ds).map k.report := by
  induction ds generalizing f with
  | nil => rfl
  | cons d ds ih =>
    simp only [Findings.reportAll, List.map_cons, List.foldl_cons, map_report hk] at ih ⊢
    exact ih _

structure Round.Follows (k : Change) (subject subject' : Subject) (x x' : Round) : Prop where
  rules : List.Forall₂ (ActiveRule.Follows k subject subject') x.rules x'.rules
  findings : x'.findings = x.findings.map k.report
  failures : x'.calls.map Call.failure = x.calls.map Call.failure
  skip : x'.skip = x.skip

structure Follows (k : Change) (subject subject' : Subject) (r r' : Run) : Prop where
  frames : List.Forall₂ k.frame r.tracker.frames r'.tracker.frames
  rules : List.Forall₂ (ActiveRule.Follows k subject subject') r.rules r'.rules
  findings : r'.findings = r.findings.map k.report
  failures : r'.calls.map Call.failure = r.calls.map Call.failure

structure Answer.Follows (k : Change) (subject subject' : Subject) (x x' : Answer) : Prop where
  rule : ActiveRule.Follows k subject subject' x.rule x'.rule
  reports : x'.call.reports = x.call.reports.map k.report
  failure : x'.call.failure = x.call.failure
  passes : x'.call.passes = x.call.passes

theorem follows_answer (hk : k.Lawful settings subject subject') {v v' : Visit}
    (hv : v.Follows k v') {a a' : ActiveRule} (ha : a.Follows k subject subject' a')
    (seen seen' : List Diagnostic) :
    Answer.Follows k subject subject' (answer settings ⟨subject, seen⟩ v a)
      (answer settings ⟨subject', seen'⟩ v' a') := by
  cases ha with
  | @intro position r same s s' hblind hr hs =>
    have hreact := hr v v' s s' hv hs
    rw [answer_blind settings hblind ⟨subject, seen⟩, answer_blind settings hblind ⟨subject', seen'⟩]
    refine ⟨.intro hblind hr hreact.state, ?_, hreact.failure, ?_⟩
    · rw [reports_answer, reports_answer, hv.path, hreact.reports]
      split
      · simp only [List.map_map]
        exact List.map_congr_left fun d _ => (hk.attachPath v.path d).symm
      · rfl
    · simp only [answer, respond, Call.attached, hv.phase, hreact.flow]

theorem follows_callEach (hk : k.Lawful settings subject subject') {v v' : Visit}
    (hv : v.Follows k v') {rules rules' : List ActiveRule}
    (hrules : List.Forall₂ (ActiveRule.Follows k subject subject') rules rules')
    (seen seen' : List Diagnostic) (findings : Findings) {calls calls' : List Call}
    (hcalls : calls'.map Call.failure = calls.map Call.failure) :
    Round.Follows k subject subject' (callEach settings subject v rules seen findings calls)
      (callEach settings subject' v' rules' seen' (findings.map k.report) calls') := by
  induction hrules generalizing seen seen' findings calls calls' with
  | nil => exact ⟨.nil, rfl, hcalls, rfl⟩
  | @cons a a' rest rest' ha hrest ih =>
    have hslot : v'.slot = v.slot := by
      rw [Visit.slot, Visit.slot, hv.phase, hv.node, hk.classOf]
    have hrule : a'.rule = a.rule := by cases ha; rfl
    simp only [callEach, hslot, hrule]
    split
    · have hx := follows_answer hk hv ha seen seen'
      generalize answer settings ⟨subject, seen⟩ v a = x at hx
      generalize answer settings ⟨subject', seen'⟩ v' a' = x' at hx
      have hfindings : (findings.map k.report).reportAll settings x'.call.reports =
          (findings.reportAll settings x.call.reports).map k.report := by
        rw [hx.reports, map_reportAll hk]
      have hcalls : (x'.call :: calls').map Call.failure = (x.call :: calls).map Call.failure := by
        rw [List.map_cons, List.map_cons, hx.failure, hcalls]
      simp only [hfindings, Findings.aborted_map]
      split
      · exact ⟨.cons hx.rule hrest, rfl, hcalls, rfl⟩
      · have hround := ih (seen ++ (respond ⟨subject, seen⟩ v a).call.reports)
          (seen' ++ (respond ⟨subject', seen'⟩ v' a').call.reports)
          (findings.reportAll settings x.call.reports) hcalls
        exact ⟨.cons hx.rule hround.rules, hround.findings, hround.failures,
          by rw [hround.skip, hx.passes]⟩
    · have hround := ih seen seen' findings hcalls
      exact ⟨.cons ha hround.rules, hround.findings, hround.failures, hround.skip⟩

theorem frame_top (hk : k.Lawful settings subject subject') {t t' : Tracker}
    (h : List.Forall₂ k.frame t.frames t'.frames) : k.frame t.top t'.top := by
  obtain ⟨frames⟩ := t
  obtain ⟨frames'⟩ := t'
  cases h with
  | nil => exact hk.empty
  | cons h _ => exact h

theorem frames_enter (hk : k.Lawful settings subject subject') {t t' : Tracker}
    (h : List.Forall₂ k.frame t.frames t'.frames) (n : Node) :
    List.Forall₂ k.frame (t.enter settings.provider subject.schema n).frames
      (t'.enter settings.provider subject'.schema (k.node n)).frames :=
  .cons (hk.enter _ _ n (frame_top hk h)) h

theorem frames_leave {t t' : Tracker} (h : List.Forall₂ k.frame t.frames t'.frames) :
    List.Forall₂ k.frame t.leave.frames t'.leave.frames := by
  obtain ⟨frames⟩ := t
  obtain ⟨frames'⟩ := t'
  cases h with
  | nil => exact .nil
  | cons _ h => exact h

theorem follows_visitNow (hk : k.Lawful settings subject subject') {t t' : Tracker}
    (h : List.Forall₂ k.frame t.frames t'.frames) (phase : Phase) (n : Node) (p : Path) :
    (visitNow phase n p t).Follows k (visitNow phase (k.node n) p t') :=
  ⟨rfl, rfl, rfl, frame_top hk h, h.length_eq.symm⟩

theorem follows_enter (hk : k.Lawful settings subject subject') (n : Node) (p : Path)
    {r r' : Run} (h : r.Follows k subject subject' r') :
    Tree.Alike (Follows k subject subject') (enter settings subject n p r)
      (enter settings subject' (k.node n) p r') := by
  have hframes := frames_enter hk h.frames n
  have hround := follows_callEach hk (follows_visitNow hk hframes .enter n p) h.rules
    r.findings.diagnostics (r.findings.map k.report).diagnostics r.findings h.failures
  simp only [enter_eq, Round.entered, h.findings, hround.findings, hround.skip,
    Findings.aborted_map]
  split
  · exact ⟨rfl, h⟩
  split
  · exact ⟨rfl, hframes, hround.rules, rfl, hround.failures⟩
  split
  · exact ⟨rfl, frames_leave hframes, hround.rules, rfl, hround.failures⟩
  · exact ⟨rfl, hframes, hround.rules, rfl, hround.failures⟩

theorem follows_leave (hk : k.Lawful settings subject subject') (n : Node) (p : Path)
    {r r' : Run} (h : r.Follows k subject subject' r') :
    Tree.Alike (Follows k subject subject') (leave settings subject n p r)
      (leave settings subject' (k.node n) p r') := by
  have hround := follows_callEach hk (follows_visitNow hk h.frames .leave n p)
    (List.rel_reverse h.rules) r.findings.diagnostics (r.findings.map k.report).diagnostics
    r.findings h.failures
  have hrules := List.rel_reverse hround.rules
  simp only [leave_eq, Round.left, h.findings, hround.findings, Findings.aborted_map]
  split
  · exact ⟨rfl, h⟩
  split
  · exact ⟨rfl, h.frames, hrules, rfl, hround.failures⟩
  · exact ⟨rfl, frames_leave h.frames, hrules, rfl, hround.failures⟩

theorem follows_start {rules : List Rule} (hblind : ∀ r ∈ rules, r.Blind)
    (h : ∀ r ∈ rules, r.Steady k subject subject') :
    (start rules).Follows k subject subject' (start rules) := by
  refine ⟨.nil, List.forall₂_same.2 fun a ha => ?_, rfl, rfl⟩
  obtain ⟨i, hi, rfl⟩ := List.mem_mapIdx.1 ha
  obtain ⟨same, hstart, hr⟩ := h _ (List.getElem_mem hi)
  exact .intro (hblind _ (List.getElem_mem hi)) hr hstart

theorem follows_ofDocument (hk : k.Lawful settings subject subject') {rules : List Rule}
    (hblind : ∀ r ∈ rules, r.Blind) (h : ∀ r ∈ rules, r.Steady k subject subject') :
    (ofDocument settings subject rules).Follows k subject subject'
      (ofDocument settings subject' rules) := by
  have hp : Tree.Parallel k.node (visitor settings subject) (visitor settings subject')
      (Follows k subject subject') :=
    ⟨hk.children, fun n p _ _ => follows_enter hk n p, fun n p _ _ => follows_leave hk n p⟩
  rw [ofDocument_eq_run, ofDocument_eq_run, ← hk.document]
  exact (hp.run (.document subject.document) .root (follows_start hblind h)).2

theorem failure?_eq (r : Run) : r.failure? = (r.calls.map Call.failure).reverse.findSome? id := by
  rw [failure?, trace, ← List.map_reverse, List.findSome?_map]
  rfl

/-- A run of steady rules has the image of the other run's diagnostics as its result. -/
theorem result_of_steady (hk : k.Lawful settings subject subject') {rules : List Rule}
    (hblind : ∀ r ∈ rules, r.Blind) (h : ∀ r ∈ rules, r.Steady k subject subject') :
    (ofDocument settings subject' rules).result =
      (ofDocument settings subject rules).result.map (List.map k.report) := by
  have hrun := follows_ofDocument hk hblind h
  have hdiagnostics : (ofDocument settings subject' rules).findings.diagnostics =
      (ofDocument settings subject rules).findings.diagnostics.map k.report := by
    rw [hrun.findings]
    exact List.map_reverse.symm
  rw [result, result, failure?_eq, failure?_eq, hrun.failures, hdiagnostics]
  split <;> rfl

end Run
end GraphQLCheck
