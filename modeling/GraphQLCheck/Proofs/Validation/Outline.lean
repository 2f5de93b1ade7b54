import GraphQLCheck.Proofs.Traversal.Places
import GraphQLCheck.Proofs.Validation.Silent

/-!
Rules that look at a document and its definitions, and at nothing below them. Such a rule reports
in a whole run what it reports along the outline of the document, in which every definition is
entered and left (`result_outline`): visits at which a rule is not called drop out, and whether
diagnostics get paths makes no difference to what is reported, and where.
-/
namespace GraphQLCheck

namespace Diagnostic

def withoutPath (d : Diagnostic) : Diagnostic := { d with path := none }

theorem withoutPath_attachPath (p : Path) (d : Diagnostic) :
    (d.attachPath p).withoutPath = d.withoutPath := by
  rw [attachPath]
  split
  · rfl
  · rfl

end Diagnostic

theorem ActiveRule.reports_trace (settings : Settings) (subject : Subject) (visits : List Visit)
    (a : ActiveRule) :
    ((a.trace settings subject visits).flatMap Call.reports).map Diagnostic.withoutPath =
      (a.rule.reported subject visits a.state).map Diagnostic.withoutPath := by
  induction visits generalizing a with
  | nil => rfl
  | cons v vs ih =>
    have hcalls : ((a.calls settings subject v).flatMap Call.reports).map Diagnostic.withoutPath =
        (a.rule.reports subject v a.state).map Diagnostic.withoutPath := by
      rw [calls, Rule.reports]
      split
      · rw [List.flatMap_singleton, Run.reports_answer]
        split
        · simp [Diagnostic.withoutPath_attachPath]
        · rfl
      · rfl
    rw [trace, List.flatMap_append, List.map_append, hcalls, ih, step_eq, Rule.reported,
      List.map_append]

namespace Rule

variable (r : Rule) (subject : Subject)

/-- Two lists of visits leave the rule in the same state, with the same reports. -/
def Alike (vs ws : List Visit) : Prop :=
  ∀ state, r.after subject vs state = r.after subject ws state ∧
    r.reported subject vs state = r.reported subject ws state

variable {r subject}

theorem Alike.append {vs ws xs ys : List Visit} (h : r.Alike subject vs ws)
    (h' : r.Alike subject xs ys) : r.Alike subject (vs ++ xs) (ws ++ ys) := by
  intro state
  obtain ⟨hafter, hreported⟩ := h state
  obtain ⟨hafter', hreported'⟩ := h' (r.after subject ws state)
  constructor
  · rw [Rule.after, Rule.after, List.foldl_append, List.foldl_append]
    exact (congrArg _ hafter).trans hafter'
  · rw [reported_append, reported_append, hafter, hreported, hreported']

theorem alike_nil {visits : List Visit} (h : ∀ v ∈ visits, r.handlers.has v.slot = false) :
    r.Alike subject visits [] := by
  induction visits with
  | nil => exact fun _ => ⟨rfl, rfl⟩
  | cons v vs ih =>
    have hv : r.Alike subject [v] [] := by
      intro state
      simp [after, reported, next, reports, h v List.mem_cons_self]
    exact hv.append (ih fun w hw => h w (List.mem_cons_of_mem _ hw))

end Rule

def Visit.bare (phase : Phase) (n : Node) : Visit := ⟨phase, n, .root, .empty, 0⟩

/-- The rule is called at the document and its definitions at most, looks at the nodes only, and
never fails. Where it is not called it would do nothing. -/
structure Rule.Outlining (r : Rule) : Prop where
  asks : ∀ slot, r.handlers.has slot → slot.node.level ≤ 1
  blind : r.Blind
  reads : ∀ (subject : Subject) visit state,
    r.react subject visit state = r.react subject (.bare visit.phase visit.node) state
  idle : ∀ (subject : Subject) visit state, r.handlers.has visit.slot = false →
    r.react subject visit state = .next state []
  unfailing : ∀ (subject : Subject) visit state, (r.react subject visit state).failure = none

def Definition.outline (x : Definition) : List Visit := [.bare .enter x.node, .bare .leave x.node]

def Document.outline (d : Document) : List Visit :=
  [.bare .enter (.document d)]
    ++ (d.definitions.flatMap Definition.outline ++ [.bare .leave (.document d)])

theorem Node.level_of_mem_visits {p : Provider} {s : Schema} (n : Node) {q : Path} {t : Tracker}
    {v : Visit} (h : v ∈ (n.tree q).visits p s t) : n.level ≤ v.node.level := by
  induction n using childInduction generalizing q t with
  | step n ih =>
    rcases mem_visits.1 h with rfl | ⟨c, hc, hv⟩ | rfl
    · exact Nat.le_refl _
    · have hchild := level_child hc
      have hbelow := ih c hc hv
      omega
    · exact Nat.le_refl _

namespace Rule.Outlining

variable {r : Rule} {subject : Subject}

theorem next_eq (h : r.Outlining) (visit : Visit) (state : r.State) :
    r.next subject visit state = (r.react subject visit state).state := by
  rw [next]
  split
  · rfl
  · rename_i hhas
    rw [h.idle subject visit state (Bool.eq_false_iff.2 hhas)]
    rfl

theorem reports_eq (h : r.Outlining) (visit : Visit) (state : r.State) :
    r.reports subject visit state = (r.react subject visit state).reports := by
  rw [reports]
  split
  · rfl
  · rename_i hhas
    rw [h.idle subject visit state (Bool.eq_false_iff.2 hhas)]
    rfl

variable (subject) in
theorem after_cons (h : r.Outlining) (x : Definition) (xs : List Definition) (state : r.State) :
    r.after subject ((x :: xs).flatMap Definition.outline) state =
      r.after subject (xs.flatMap Definition.outline)
        (r.react subject (.bare .leave x.node)
          (r.react subject (.bare .enter x.node) state).state).state := by
  rw [← h.next_eq, ← h.next_eq]
  rfl

variable (subject) in
theorem reported_cons (h : r.Outlining) (x : Definition) (xs : List Definition) (state : r.State) :
    r.reported subject ((x :: xs).flatMap Definition.outline) state =
      (r.react subject (.bare .enter x.node) state).reports ++
        ((r.react subject (.bare .leave x.node)
            (r.react subject (.bare .enter x.node) state).state).reports ++
          r.reported subject (xs.flatMap Definition.outline)
            (r.react subject (.bare .leave x.node)
              (r.react subject (.bare .enter x.node) state).state).state) := by
  rw [← h.next_eq, ← h.next_eq, ← h.reports_eq, ← h.reports_eq]
  rfl

variable (subject) in
theorem reported_cons_of_enter (h : r.Outlining) (x : Definition) (xs : List Definition)
    {state next : r.State} {reports : List Diagnostic}
    (henter : r.react subject (.bare .enter x.node) state = .next next reports)
    (hleave : r.react subject (.bare .leave x.node) next = .next next []) :
    r.reported subject ((x :: xs).flatMap Definition.outline) state =
      reports ++ r.reported subject (xs.flatMap Definition.outline) next := by
  rw [h.reported_cons, henter]
  simp [Reaction.next, hleave]

variable (subject) in
theorem reported_document (h : r.Outlining) (d : Document) (state : r.State) :
    r.reported subject d.outline state =
      (r.react subject (.bare .enter (.document d)) state).reports ++
        (r.reported subject (d.definitions.flatMap Definition.outline)
            (r.react subject (.bare .enter (.document d)) state).state ++
          (r.react subject (.bare .leave (.document d))
            (r.after subject (d.definitions.flatMap Definition.outline)
              (r.react subject (.bare .enter (.document d)) state).state)).reports) := by
  rw [← h.next_eq, ← h.reports_eq, ← h.reports_eq, Document.outline, reported_append,
    reported_append]
  simp only [reported, List.append_nil]
  rfl

theorem alike_bare (h : r.Outlining) (visit : Visit) :
    r.Alike subject [visit] [.bare visit.phase visit.node] := by
  intro state
  simp only [after, reported, List.foldl_cons, List.foldl_nil, h.next_eq, h.reports_eq,
    h.reads subject visit state, and_self]

theorem alike_definition (h : r.Outlining) (p : Provider) (s : Schema) (x : Definition) (q : Path)
    (t : Tracker) : r.Alike subject ((x.node.tree q).visits p s t) x.outline := by
  have hbelow : r.Alike subject
      (Tree.visitsAll p s (t.enter p s x.node) (x.node.children.map (Child.tree q))) [] := by
    refine alike_nil fun v hv => ?_
    obtain ⟨c, hc, hv⟩ := Node.mem_visitsAll.1 hv
    have hchild := Node.level_child hc
    have hlevel := c.node.level_of_mem_visits hv
    rw [Node.level_definition] at hchild
    refine Bool.eq_false_iff.2 fun hhas => ?_
    have hasks : v.node.level ≤ 1 := h.asks _ hhas
    omega
  rw [Node.visits_tree]
  exact (h.alike_bare _).append (hbelow.append (h.alike_bare _))

theorem alike_definitions (h : r.Outlining) (p : Provider) (s : Schema) (xs : List Definition)
    (part : List Segment) (i : Nat) (q : Path) (t : Tracker) :
    r.Alike subject
      (Tree.visitsAll p s t ((Child.items part Definition.node i xs).map (Child.tree q)))
      (xs.flatMap Definition.outline) := by
  induction xs generalizing i with
  | nil => exact fun _ => ⟨rfl, rfl⟩
  | cons x xs ih => exact (h.alike_definition p s x _ t).append (ih (i + 1))

theorem alike_outline (h : r.Outlining) (p : Provider) :
    r.Alike subject (Run.allVisits p subject) subject.document.outline := by
  rw [Run.allVisits, Node.visits_tree]
  exact (h.alike_bare _).append
    ((h.alike_definitions p _ _ [] 0 _ _).append (h.alike_bare _))

theorem result_outline (h : r.Outlining) (hcontinues : r.Continues) (settings : Settings)
    (subject : Subject) :
    ∃ E, (Run.ofDocument (settings.upTo none) subject [r]).result = .ok E ∧
      E.map Diagnostic.withoutPath =
        (r.reported subject subject.document.outline r.start).map Diagnostic.withoutPath := by
  have hrules : ∀ x ∈ [r], x.Continues := by simpa using hcontinues
  have hblind : ∀ x ∈ [r], x.Blind := by simpa using h.blind
  have hunfailing : ∀ x ∈ [r], ∀ (c : RuleContext) visit state,
      (x.react c visit state).failure = none := by
    intro x hx c visit state
    obtain rfl := List.mem_singleton.1 hx
    rw [h.blind c]
    exact h.unfailing c.toSubject visit state
  refine ⟨_, Run.result_full settings subject hunfailing, ?_⟩
  have hstart : (Run.start [r]).rules = [⟨0, r, r.start⟩] := rfl
  rw [Run.trace_full hrules hblind, hstart, Run.callsAlong_singleton, ActiveRule.reports_trace,
    (h.alike_outline settings.provider r.start).2]

end Rule.Outlining
end GraphQLCheck
