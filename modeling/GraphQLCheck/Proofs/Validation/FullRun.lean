import GraphQLCheck.Proofs.Validation.Blind

/-!
Runs without a limit in which no rule passes over a node. Such a run makes the visits of the whole
tree, in their order, whatever the rules are (`course_full`); if its rules are blind, each goes
through all of them with its own state, and the calls of the run are theirs, visit by visit.
-/
namespace GraphQLCheck

def Rule.Continues (r : Rule) : Prop :=
  ∀ (c : RuleContext) visit state, (r.react c visit state).flow = .next

namespace Run

variable {settings : Settings} {subject : Subject} {rules : List ActiveRule} {s : Standing}

def Continue (rules : List ActiveRule) : Prop := ∀ a ∈ rules, a.rule.Continues

theorem Continue.next (h : Continue s.rules) (visit : Visit) :
    Continue (s.next settings subject visit).rules := by
  intro a ha
  obtain ⟨b, hb, hrule, -⟩ := Standing.mem_rules_next ha
  rw [hrule]
  exact h b hb

theorem Continue.after (h : Continue s.rules) (visits : List Visit) :
    Continue (s.after settings subject visits).rules := by
  induction visits generalizing s with
  | nil => exact h
  | cons v vs ih => exact ih (h.next v)

theorem Continue.passes (h : Continue s.rules) (visit : Visit) :
    ¬ s.passes settings subject visit := by
  simp only [Standing.passes, List.any_eq_true, not_exists, not_and]
  intro c hc
  obtain ⟨a, ha, -, seen, rfl⟩ := Standing.mem_calls hc
  have hflow : (a.rule.react ⟨subject, seen⟩ visit a.state).flow = .next := h a ha _ _ _
  simp [answer, respond, Call.attached, hflow]

mutual

theorem course_full : ∀ (t : Tree) {s : Standing} (tracker : Tracker), Continue s.rules →
    t.course settings subject s tracker = t.visits settings.provider subject.schema tracker
  | .mk p n below, s, tracker, h => by
    rw [Tree.course, Tree.visits, if_neg (h.passes _), courseAll_full below _ (h.next _)]

theorem courseAll_full : ∀ (ts : List Tree) {s : Standing} (tracker : Tracker),
    Continue s.rules → Tree.courseAll settings subject s tracker ts =
      Tree.visitsAll settings.provider subject.schema tracker ts
  | [], _, _, _ => rfl
  | t :: ts, s, tracker, h => by
    rw [Tree.courseAll, Tree.visitsAll, courseAll_full ts _ (h.after _), course_full t _ h]

end

def allVisits (p : Provider) (s : Subject) : List Visit :=
  ((Node.document s.document).tree .root).visits p s.schema .empty

theorem continue_start {rules : List Rule} (h : ∀ r ∈ rules, r.Continues) :
    Continue (start rules).rules := by
  intro a ha
  obtain ⟨i, hi, rfl⟩ := List.mem_mapIdx.1 ha
  exact h _ (List.getElem_mem hi)

theorem blind_start {rules : List Rule} (h : ∀ r ∈ rules, r.Blind) :
    ∀ a ∈ (start rules).rules, a.rule.Blind := by
  intro a ha
  obtain ⟨i, hi, rfl⟩ := List.mem_mapIdx.1 ha
  exact h _ (List.getElem_mem hi)

theorem callsAlong_upTo (limit : Option Nat) (rules : List ActiveRule) (visits : List Visit) :
    callsAlong (settings.upTo limit) subject rules visits =
      callsAlong settings subject rules visits := by
  induction visits generalizing rules with
  | nil => rfl
  | cons v vs ih =>
    rw [callsAlong, callsAlong, ih]
    rfl

theorem trace_full {rules : List Rule} (h : ∀ r ∈ rules, r.Continues)
    (hblind : ∀ r ∈ rules, r.Blind) :
    (ofDocument (settings.upTo none) subject rules).trace =
      callsAlong settings subject (start rules).rules (allVisits settings.provider subject) := by
  rw [trace_of_going (told_ofDocument settings subject rules).going, course,
    course_full _ _ (continue_start h),
    Standing.callsAlong_of_blind (blind_start hblind), callsAlong_upTo]
  rfl

theorem mem_callsAt {visit : Visit} {c : Call} :
    c ∈ callsAt settings subject rules visit ↔
      ∃ a ∈ rules, a.rule.handlers.has visit.slot ∧ c = (answer settings subject visit a).call := by
  have hcalls : ∀ a : ActiveRule, c ∈ a.calls settings subject visit ↔
      a.rule.handlers.has visit.slot ∧ c = (answer settings subject visit a).call := by
    intro a
    rw [ActiveRule.calls]
    split
    · rename_i h
      simp [h]
    · rename_i h
      simp [h]
  simp only [callsAt, List.mem_flatMap, Phase.mem_order, hcalls]

variable (settings subject) in
theorem mem_callsAlong_of_has {visits : List Visit} {a : ActiveRule} (ha : a ∈ rules)
    {visit : Visit} (hvisit : visit ∈ visits) (hhas : a.rule.handlers.has visit.slot) :
    ∃ state, (answer settings subject visit ⟨a.position, a.rule, state⟩).call ∈
      callsAlong settings subject rules visits := by
  induction visits generalizing rules a with
  | nil => simp at hvisit
  | cons v vs ih =>
    rcases List.mem_cons.1 hvisit with rfl | hvisit
    · exact ⟨a.state, List.mem_append_left _ (mem_callsAt.2 ⟨a, ha, hhas, rfl⟩)⟩
    · have hstep := List.mem_map_of_mem (f := fun a => a.step settings subject v) ha
      rw [ActiveRule.step_eq] at hstep
      obtain ⟨state, hstate⟩ := ih hstep hvisit hhas
      exact ⟨state, List.mem_append_right _ hstate⟩

variable (settings subject) in
theorem result_full {rules : List Rule}
    (hfail : ∀ r ∈ rules, ∀ (c : RuleContext) visit state, (r.react c visit state).failure = none) :
    (ofDocument (settings.upTo none) subject rules).result =
      .ok ((ofDocument (settings.upTo none) subject rules).trace.flatMap Call.reports) := by
  have htold := told_ofDocument settings subject rules
  refine result_eq_ok.2 ⟨fun c hc => ?_, htold.diagnostics⟩
  obtain ⟨r, hr, -, -, state, seen, hc⟩ := answer_of_mem_trace htold.going hc
  rw [hc]
  exact hfail r (List.mem_of_getElem? hr) _ _ _

theorem callsAlong_singleton (a : ActiveRule) (visits : List Visit) :
    callsAlong settings subject [a] visits = a.trace settings subject visits := by
  induction visits generalizing a with
  | nil => rfl
  | cons v vs ih =>
    have hat : callsAt settings subject [a] v = a.calls settings subject v := by
      rw [callsAt]
      cases v.phase with
      | enter => simp [Phase.order]
      | leave => simp [Phase.order]
    rw [callsAlong, hat, List.map_singleton, ih, ActiveRule.trace]

variable (settings subject) in
theorem exists_reports_below {rule : Rule} (hrule : rule.Continues) (hblind : rule.Blind)
    {p : List Segment} {above : List Node} {n : Node} (h : Leads (.document subject.document) p above n) :
    ∃ before, Approach settings.provider subject.schema above before ∧
      ((∃ c ∈ (ofDocument (settings.upTo none) subject [rule]).trace,
          p <+: c.visit.path.segments ∧ c.reports ≠ []) ↔
        rule.reported subject ((n.tree ⟨p⟩).visits settings.provider subject.schema
          (.along settings.provider subject.schema above))
          (rule.after subject before rule.start) ≠ []) := by
  obtain ⟨before, after, hvisits, happroach, houtside⟩ :=
    h.visits_split (p := settings.provider) (s := subject.schema) .root .empty
  have htrace : (ofDocument (settings.upTo none) subject [rule]).trace =
      ActiveRule.trace settings subject (allVisits settings.provider subject)
        ⟨0, rule, rule.start⟩ := by
    rw [trace_full (by simpa using hrule) (by simpa using hblind), ← callsAlong_singleton]
    rfl
  have hroot : Path.root.append p = ⟨p⟩ := rfl
  rw [hroot] at hvisits houtside
  refine ⟨before, happroach, ?_⟩
  have hbelow := ActiveRule.exists_reports settings subject
    ((n.tree ⟨p⟩).visits settings.provider subject.schema
      (.along settings.provider subject.schema above))
    ⟨0, rule, rule.after subject before rule.start⟩
  rw [htrace, allVisits, hvisits, ActiveRule.trace_append, ActiveRule.trace_append,
    ActiveRule.after_eq, ActiveRule.after_eq, ← hbelow]
  constructor
  · rintro ⟨c, hc, hprefix, hreports⟩
    rcases List.mem_append.1 hc with hc | hc
    · rcases List.mem_append.1 hc with hc | hc
      · have hvisit := (ActiveRule.visit_of_mem_trace hc).1
        exact absurd hprefix (houtside _ (List.mem_append_left _ hvisit))
      · exact ⟨c, hc, hreports⟩
    · have hvisit := (ActiveRule.visit_of_mem_trace hc).1
      exact absurd hprefix (houtside _ (List.mem_append_right _ hvisit))
  · rintro ⟨c, hc, hreports⟩
    exact ⟨c, List.mem_append_left _ (List.mem_append_right _ hc),
      n.prefix_of_mem_visits (ActiveRule.visit_of_mem_trace hc).1, hreports⟩

end Run
end GraphQLCheck
