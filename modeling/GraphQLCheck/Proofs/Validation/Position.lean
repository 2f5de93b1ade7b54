import GraphQLCheck.Proofs.Traversal.Invariant
import GraphQLCheck.Proofs.Validation.Rounds
import Mathlib.Data.List.Induction

/-!
The types and definitions that a rule sees at a node hang on the nodes above it and on nothing
else. Frames come and go with the nodes on the way from the root: a node that is left, and one
that is passed over, takes its frame with it, so the tracker in front of a node is always that of
the nodes above it.
-/
namespace GraphQLCheck

namespace Tracker

def along (p : Provider) (s : Schema) (ns : List Node) : Tracker :=
  ns.foldl (enter p s) .empty

theorem along_concat (p : Provider) (s : Schema) (ns : List Node) (n : Node) :
    along p s (ns ++ [n]) = (along p s ns).enter p s n := by
  simp [along]

theorem depth_along (p : Provider) (s : Schema) (ns : List Node) :
    (along p s ns).depth = ns.length := by
  induction ns using List.reverseRecOn with
  | nil => rfl
  | append_singleton ns n ih => simp [along_concat, ih]

theorem top_along (p : Provider) (s : Schema) (ns : List Node) :
    (along p s ns).top = ns.foldl (Frame.enter p s) .empty := by
  induction ns using List.reverseRecOn with
  | nil => rfl
  | append_singleton ns n ih => simp [along_concat, ih]

end Tracker

def Visit.Placed (p : Provider) (s : Schema) (root : Node) (v : Visit) : Prop :=
  ∃ above, Leads root v.path.segments above v.node ∧
    v.depth = (above ++ [v.node]).length ∧
    v.frame = (above ++ [v.node]).foldl (Frame.enter p s) .empty

namespace Run

variable (settings : Settings) (subject : Subject)

theorem call_of_mem_callEach {visit : Visit} {rules : List ActiveRule} {seen : List Diagnostic}
    {findings : Findings} {calls : List Call} {c : Call}
    (h : c ∈ (callEach settings subject visit rules seen findings calls).calls) :
    c ∈ calls ∨ ∃ a ∈ rules, a.rule.handlers.has visit.slot ∧
      ∃ seen, c = (answer settings ⟨subject, seen⟩ visit a).call := by
  induction rules generalizing seen findings calls with
  | nil => exact .inl h
  | cons a rest ih =>
    have hlater : (∃ b ∈ rest, b.rule.handlers.has visit.slot ∧
          ∃ seen, c = (answer settings ⟨subject, seen⟩ visit b).call) →
        ∃ b ∈ a :: rest, b.rule.handlers.has visit.slot ∧
          ∃ seen, c = (answer settings ⟨subject, seen⟩ visit b).call :=
      fun ⟨b, hb, hcall⟩ => ⟨b, List.mem_cons_of_mem _ hb, hcall⟩
    simp only [callEach] at h
    split at h
    · next hhas =>
      have hnew : c ∈ (answer settings ⟨subject, seen⟩ visit a).call :: calls →
          c ∈ calls ∨ ∃ b ∈ a :: rest, b.rule.handlers.has visit.slot ∧
            ∃ seen, c = (answer settings ⟨subject, seen⟩ visit b).call := by
        intro hc
        rcases List.mem_cons.1 hc with rfl | hc
        · exact .inr ⟨a, List.mem_cons_self, hhas, seen, rfl⟩
        · exact .inl hc
      split at h
      · exact hnew h
      · exact (ih h).elim hnew fun hrest => .inr (hlater hrest)
    · exact (ih h).imp_right hlater

theorem visit_of_mem_callEach {visit : Visit} {rules : List ActiveRule} {seen : List Diagnostic}
    {findings : Findings} {calls : List Call} {c : Call}
    (h : c ∈ (callEach settings subject visit rules seen findings calls).calls) :
    c ∈ calls ∨ c.visit = visit := by
  rcases call_of_mem_callEach settings subject h with hc | ⟨a, -, -, seen, rfl⟩
  · exact .inl hc
  · exact .inr rfl

theorem calls_entered (round : Round) (t : Tracker) : (round.entered t).2.calls = round.calls := by
  rw [Round.entered]
  split
  · rfl
  · split
    · rfl
    · rfl

theorem calls_left (round : Round) (t : Tracker) : (round.left t).2.calls = round.calls := by
  rw [Round.left]
  split
  · rfl
  · rfl

theorem rules_entered (round : Round) (t : Tracker) : (round.entered t).2.rules = round.rules := by
  rw [Round.entered]
  split
  · rfl
  · split
    · rfl
    · rfl

theorem rules_left (round : Round) (t : Tracker) :
    (round.left t).2.rules = round.rules.reverse := by
  rw [Round.left]
  split
  · rfl
  · rfl

theorem findings_entered (round : Round) (t : Tracker) :
    (round.entered t).2.findings = round.findings := by
  rw [Round.entered]
  split
  · rfl
  · split
    · rfl
    · rfl

theorem findings_left (round : Round) (t : Tracker) :
    (round.left t).2.findings = round.findings := by
  rw [Round.left]
  split
  · rfl
  · rfl

def InPlaces (places : List Rule) (rules : List ActiveRule) : Prop :=
  ∀ a ∈ rules, places[a.position]? = some a.rule

section
variable {places : List Rule} {rules : List ActiveRule}

theorem InPlaces.reverse (h : InPlaces places rules) : InPlaces places rules.reverse :=
  fun a ha => h a (List.mem_reverse.1 ha)

theorem InPlaces.callEach (h : InPlaces places rules) (visit : Visit) (seen : List Diagnostic)
    (findings : Findings) (calls : List Call) :
    InPlaces places (callEach settings subject visit rules seen findings calls).rules := by
  induction rules generalizing seen findings calls with
  | nil => exact h
  | cons a rest ih =>
    have ha : places[a.position]? = some a.rule := h a List.mem_cons_self
    have hrest : InPlaces places rest := fun b hb => h b (List.mem_cons_of_mem _ hb)
    simp only [Run.callEach]
    split
    · split
      · exact List.forall_mem_cons.2 ⟨ha, hrest⟩
      · exact List.forall_mem_cons.2 ⟨ha, ih hrest _ _ _⟩
    · exact List.forall_mem_cons.2 ⟨ha, ih hrest _ _ _⟩

theorem InPlaces.enter {r : Run} (h : InPlaces places r.rules) (n : Node) (p : Path) :
    InPlaces places (Run.enter settings subject n p r).2.rules := by
  rw [enter_eq]
  split
  · exact h
  · rw [rules_entered]
    exact h.callEach settings subject _ _ _ _

theorem InPlaces.leave {r : Run} (h : InPlaces places r.rules) (n : Node) (p : Path) :
    InPlaces places (Run.leave settings subject n p r).2.rules := by
  rw [leave_eq]
  split
  · exact h
  · rw [rules_left]
    exact (h.reverse.callEach settings subject _ _ _ _).reverse

theorem inPlaces_start (rules : List Rule) : InPlaces rules (start rules).rules := by
  intro a ha
  obtain ⟨i, hi, rfl⟩ := List.mem_mapIdx.1 ha
  exact List.getElem?_eq_getElem hi

end

/-- In front of a node the tracker is that of the nodes above, and every call so far was at the
node that its path leads to. -/
structure Placed (root : Node) (above : List Node) (r : Run) : Prop where
  going : r.findings.aborted = false
  tracker : r.tracker = .along settings.provider subject.schema above
  calls : ∀ c ∈ r.calls, c.visit.Placed settings.provider subject.schema root

structure Halted (root : Node) (r : Run) : Prop where
  aborted : r.findings.aborted = true
  calls : ∀ c ∈ r.calls, c.visit.Placed settings.provider subject.schema root

variable {settings subject} {root n : Node} {p : Path} {above : List Node} {r : Run}

theorem placed_visitNow (hn : Leads root p.segments above n) (phase : Phase) :
    (visitNow phase n p (.along settings.provider subject.schema (above ++ [n]))).Placed
      settings.provider subject.schema root :=
  ⟨above, hn, Tracker.depth_along _ _ _, Tracker.top_along _ _ _⟩

theorem placed_callEach (hn : Leads root p.segments above n)
    (hr : ∀ c ∈ r.calls, c.visit.Placed settings.provider subject.schema root) (phase : Phase)
    (rules : List ActiveRule) :
    ∀ c ∈ (callEach settings subject
        (visitNow phase n p (.along settings.provider subject.schema (above ++ [n]))) rules
        r.findings.diagnostics r.findings r.calls).calls,
      c.visit.Placed settings.provider subject.schema root := by
  intro c hc
  rcases visit_of_mem_callEach settings subject hc with hc | hc
  · exact hr c hc
  · rw [hc]
    exact placed_visitNow hn phase

theorem Placed.enter (hn : Leads root p.segments above n)
    (h : Placed settings subject root above r) :
    Tree.Ends (Halted settings subject root) (Placed settings subject root above)
      (Placed settings subject root (above ++ [n])) (Run.enter settings subject n p r) := by
  have ht : r.tracker.enter settings.provider subject.schema n =
      .along settings.provider subject.schema (above ++ [n]) := by
    rw [h.tracker, Tracker.along_concat]
  have hcalls := placed_callEach hn h.calls .enter r.rules
  simp only [enter_eq, Round.entered, h.going, ht, Bool.false_eq_true, if_false]
  split
  · rename_i ha
    exact ⟨ha, hcalls⟩
  · rename_i ha
    split
    -- A node that is passed over takes its frame with it, as no call on the way out will.
    · refine ⟨by simpa using ha, ?_, hcalls⟩
      rw [Tracker.along_concat, Tracker.leave_enter]
    · exact ⟨by simpa using ha, rfl, hcalls⟩

theorem Placed.leave (hn : Leads root p.segments above n)
    (h : Placed settings subject root (above ++ [n]) r) :
    Tree.Ends (Halted settings subject root) (Placed settings subject root above)
      (Placed settings subject root above) (Run.leave settings subject n p r) := by
  have hcalls := placed_callEach hn h.calls .leave r.rules.reverse
  simp only [leave_eq, Round.left, h.going, h.tracker, Bool.false_eq_true, if_false]
  split
  · rename_i ha
    exact ⟨ha, hcalls⟩
  · rename_i ha
    refine ⟨by simpa using ha, ?_, hcalls⟩
    rw [Tracker.along_concat, Tracker.leave_enter]

theorem placed_start (rules : List Rule) : Placed settings subject root [] (start rules) :=
  ⟨rfl, rfl, by simp [start]⟩

theorem ofDocument_eq_run (settings : Settings) (subject : Subject) (rules : List Rule) :
    ofDocument settings subject rules =
      (((Node.document subject.document).tree .root).run (visitor settings subject)
        (start rules)).2 :=
  congrArg Prod.snd (start_visitDocument subject.document (start rules))

theorem ends_ofDocument (settings : Settings) (subject : Subject) (rules : List Rule) :
    Halted settings subject (.document subject.document) (ofDocument settings subject rules) ∨
      Placed settings subject (.document subject.document) []
        (ofDocument settings subject rules) := by
  have h := Tree.ends_run (v := visitor settings subject) Placed.enter Placed.leave
    (.document subject.document) (p := .root) (.here _) (placed_start rules)
  rw [ofDocument_eq_run]
  generalize ((Node.document subject.document).tree .root).run (visitor settings subject)
    (start rules) = result at h
  rcases result with ⟨_ | _ | _, r⟩
  · exact .inr h
  · exact .inl h
  · exact .inr h

/-- Every call of a rule is at a node that its path leads to, by the nodes `above` and no others.
What the rule sees there comes from these nodes alone, so that neither other nodes nor the list of
rules nor what they passed over has a part in it; and at the end of a run nothing is left. -/
theorem calls_placed (settings : Settings) (subject : Subject) (rules : List Rule) :
    (∀ c ∈ (ofDocument settings subject rules).trace, ∃ above,
      (∀ as m, Leads (.document subject.document) c.visit.path.segments as m ↔
        as = above ∧ m = c.visit.node) ∧
      c.visit.depth = (above ++ [c.visit.node]).length ∧
      c.visit.frame = (above ++ [c.visit.node]).foldl
        (Frame.enter settings.provider subject.schema) .empty) ∧
    ((ofDocument settings subject rules).findings.aborted = false →
      (ofDocument settings subject rules).tracker.depth = 0) := by
  have h := ends_ofDocument settings subject rules
  refine ⟨fun c hc => ?_, fun hgoing => ?_⟩
  · have hcalls := h.elim Halted.calls Placed.calls
    obtain ⟨above, hleads, hdepth, hframe⟩ := hcalls c (List.mem_reverse.1 hc)
    refine ⟨above, fun as m => ⟨fun hm => ?_, ?_⟩, hdepth, hframe⟩
    · exact hm.unique hleads
    · rintro ⟨rfl, rfl⟩
      exact hleads
  · rcases h with h | h
    · exact absurd (h.aborted.symm.trans hgoing) (by simp)
    · rw [h.tracker]
      rfl

def skipping : Rule where
  State := Unit
  start := ()
  handlers := .all
  react _ visit _ :=
    ⟨(), [], if visit.node.classOf = .selectionSet then .skip else .next, none⟩

def oneQuery : Subject :=
  ⟨.empty, ⟨[.operation ⟨.query, none, [], [], [.field ⟨none, "a", [], [], [], none⟩], none⟩], 3⟩⟩

theorem calls_placed_oneQuery :
    ∃ c ∈ (ofDocument .standard oneQuery [skipping]).trace,
      c.visit.node.classOf = .operation ∧ c.visit.phase = .leave ∧ c.visit.depth = 2 ∧
      (∃ above, c.visit.depth = (above ++ [c.visit.node]).length ∧
        c.visit.frame = (above ++ [c.visit.node]).foldl
          (Frame.enter .standard oneQuery.schema) .empty) ∧
      (ofDocument .standard oneQuery [skipping]).findings.aborted = false ∧
      (ofDocument .standard oneQuery [skipping]).tracker.depth = 0 := by
  have hgoing : (ofDocument .standard oneQuery [skipping]).findings.aborted = false := by
    decide +kernel
  have hleft : ∃ c ∈ (ofDocument .standard oneQuery [skipping]).trace,
      c.visit.node.classOf = .operation ∧ c.visit.phase = .leave ∧ c.visit.depth = 2 := by
    decide +kernel
  obtain ⟨hcalls, hdepth⟩ := calls_placed .standard oneQuery [skipping]
  obtain ⟨c, hc, hclass, hphase, htwo⟩ := hleft
  obtain ⟨above, -, hplaced⟩ := hcalls c hc
  exact ⟨c, hc, hclass, hphase, htwo, ⟨above, hplaced⟩, hgoing, hdepth hgoing⟩

end Run
end GraphQLCheck
