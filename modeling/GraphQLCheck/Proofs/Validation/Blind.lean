import GraphQLCheck.Proofs.Validation.Course
import Mathlib.Data.List.Basic

/-!
Rules that make no use of what was reported before. Such a rule goes through visits with its own
state, whatever the others report (`Rule.after`, `ActiveRule.trace`), and what it does in a run can
be worked out as if nothing had been collected. So the calls of blind rules in a run are those of
each of them, visit by visit, whatever rules there are beside them (`Standing.filter_callsAlong`).
-/
namespace GraphQLCheck

namespace Rule

variable (r : Rule) (subject : Subject)

def next (visit : Visit) (state : r.State) : r.State :=
  if r.handlers.has visit.slot then (r.react subject visit state).state else state

def reports (visit : Visit) (state : r.State) : List Diagnostic :=
  if r.handlers.has visit.slot then (r.react subject visit state).reports else []

def after (visits : List Visit) (state : r.State) : r.State :=
  visits.foldl (fun state visit => r.next subject visit state) state

def reported : List Visit → r.State → List Diagnostic
  | [], _ => []
  | visit :: visits, state =>
    r.reports subject visit state ++ reported visits (r.next subject visit state)

variable {r subject}

theorem reported_append (vs ws : List Visit) (state : r.State) :
    r.reported subject (vs ++ ws) state =
      r.reported subject vs state ++ r.reported subject ws (r.after subject vs state) := by
  induction vs generalizing state with
  | nil => rfl
  | cons v vs ih =>
    simp only [List.cons_append, reported, ih, List.append_assoc]
    rfl

end Rule

namespace ActiveRule

variable (settings : Settings) (subject : Subject)

def step (visit : Visit) (a : ActiveRule) : ActiveRule :=
  if a.rule.handlers.has visit.slot then (Run.answer settings subject visit a).rule else a

def calls (visit : Visit) (a : ActiveRule) : List Call :=
  if a.rule.handlers.has visit.slot then [(Run.answer settings subject visit a).call] else []

def after (visits : List Visit) (a : ActiveRule) : ActiveRule :=
  visits.foldl (fun a visit => a.step settings subject visit) a

def trace : List Visit → ActiveRule → List Call
  | [], _ => []
  | visit :: visits, a =>
    a.calls settings subject visit ++ trace visits (a.step settings subject visit)

variable {settings subject}

theorem after_append (vs ws : List Visit) (a : ActiveRule) :
    a.after settings subject (vs ++ ws) = (a.after settings subject vs).after settings subject ws :=
  List.foldl_append

theorem trace_append (vs ws : List Visit) (a : ActiveRule) :
    a.trace settings subject (vs ++ ws) =
      a.trace settings subject vs ++ (a.after settings subject vs).trace settings subject ws := by
  induction vs generalizing a with
  | nil => rfl
  | cons v vs ih =>
    simp only [List.cons_append, trace, ih, List.append_assoc]
    rfl

theorem step_eq (visit : Visit) (a : ActiveRule) :
    a.step settings subject visit = ⟨a.position, a.rule, a.rule.next subject visit a.state⟩ := by
  rw [step, Rule.next]
  split
  · rfl
  · rfl

theorem after_eq (visits : List Visit) (a : ActiveRule) :
    a.after settings subject visits =
      ⟨a.position, a.rule, a.rule.after subject visits a.state⟩ := by
  induction visits generalizing a with
  | nil => rfl
  | cons v vs ih =>
    have hcons : a.after settings subject (v :: vs) =
        (a.step settings subject v).after settings subject vs := rfl
    rw [hcons, step_eq]
    exact ih _

variable (settings subject) in
theorem exists_reports (visits : List Visit) (a : ActiveRule) :
    (∃ c ∈ a.trace settings subject visits, c.reports ≠ []) ↔
      a.rule.reported subject visits a.state ≠ [] := by
  induction visits generalizing a with
  | nil => simp [trace, Rule.reported]
  | cons v vs ih =>
    have hcall : (∃ c ∈ a.calls settings subject v, c.reports ≠ []) ↔
        a.rule.reports subject v a.state ≠ [] := by
      rw [calls, Rule.reports]
      split
      · simp only [List.mem_singleton, exists_eq_left, Run.reports_answer]
        split
        · simp
        · rfl
      · simp
    have hrest := ih ⟨a.position, a.rule, a.rule.next subject v a.state⟩
    rw [trace, step_eq, Rule.reported, ne_eq, List.append_eq_nil_iff, not_and_or]
    simp only [List.mem_append, or_and_right, exists_or]
    exact or_congr hcall hrest

theorem rule_step (visit : Visit) (a : ActiveRule) :
    (a.step settings subject visit).rule = a.rule := by
  rw [step]
  split
  · rfl
  · rfl

theorem visit_of_mem_trace {vs : List Visit} {a : ActiveRule} {c : Call}
    (h : c ∈ a.trace settings subject vs) : c.visit ∈ vs ∧ a.rule.handlers.has c.visit.slot := by
  induction vs generalizing a with
  | nil => simp [trace] at h
  | cons v vs ih =>
    rcases List.mem_append.1 h with h | h
    · rw [calls] at h
      split at h
      · next hhas =>
        obtain rfl := List.mem_singleton.1 h
        exact ⟨List.mem_cons_self, hhas⟩
      · simp at h
    · obtain ⟨hvisit, hhas⟩ := ih h
      rw [rule_step] at hhas
      exact ⟨List.mem_cons_of_mem _ hvisit, hhas⟩

theorem position_step (visit : Visit) (a : ActiveRule) :
    (a.step settings subject visit).position = a.position := by
  rw [step_eq]

theorem rule_of_mem_calls {visit : Visit} {a : ActiveRule} {c : Call}
    (h : c ∈ a.calls settings subject visit) : c.rule = a.position := by
  rw [calls] at h
  split at h
  · obtain rfl := List.mem_singleton.1 h
    rfl
  · simp at h

end ActiveRule

namespace Run

variable (settings : Settings) (subject : Subject)

def callsAt (rules : List ActiveRule) (visit : Visit) : List Call :=
  (visit.phase.order rules).flatMap (·.calls settings subject visit)

def callsAlong : List ActiveRule → List Visit → List Call
  | _, [] => []
  | rules, visit :: visits =>
    callsAt settings subject rules visit
      ++ callsAlong (rules.map (·.step settings subject visit)) visits

variable {settings subject} {visit : Visit} {rules : List ActiveRule} {keep : Nat → Bool}

theorem filter_turns (hblind : ∀ a ∈ rules, keep a.position → a.rule.Blind)
    (seen : List Diagnostic) :
    (turns settings subject visit rules seen).filter (keep ·.rule.position) =
      (rules.filter (keep ·.position)).map fun a =>
        ⟨a.step settings subject visit, a.calls settings subject visit⟩ := by
  induction rules generalizing seen with
  | nil => rfl
  | cons a rest ih =>
    obtain ⟨ha, hrest⟩ := List.forall_mem_cons.1 hblind
    have hturn : ∃ t more, turns settings subject visit (a :: rest) seen =
          t :: turns settings subject visit rest more ∧ t.rule.position = a.position ∧
        (a.rule.Blind → t = ⟨a.step settings subject visit, a.calls settings subject visit⟩) := by
      rw [turns, ActiveRule.step, ActiveRule.calls]
      split
      · refine ⟨_, _, rfl, rfl, fun h => ?_⟩
        rw [answer_blind settings h]
      · exact ⟨_, _, rfl, rfl, fun _ => rfl⟩
    obtain ⟨t, more, hcons, hposition, hself⟩ := hturn
    rw [hcons, List.filter_cons, List.filter_cons, hposition, ih hrest]
    split
    · next hkeep => rw [List.map_cons, hself (ha hkeep)]
    · rfl

end Run

namespace Standing

variable {settings : Settings} {subject : Subject} {s : Standing} {keep : Nat → Bool}

theorem filter_turns (hblind : ∀ a ∈ s.rules, keep a.position → a.rule.Blind) (visit : Visit) :
    (s.turns settings subject visit).filter (keep ·.rule.position) =
      (visit.phase.order (s.rules.filter (keep ·.position))).map fun a =>
        ⟨a.step settings subject visit, a.calls settings subject visit⟩ := by
  rw [turns, Run.filter_turns fun a ha => hblind a ((Phase.mem_order _).1 ha),
    Phase.filter_order]

theorem filter_calls (hblind : ∀ a ∈ s.rules, keep a.position → a.rule.Blind) (visit : Visit) :
    (s.calls settings subject visit).filter (keep ·.rule) =
      Run.callsAt settings subject (s.rules.filter (keep ·.position)) visit := by
  have hturns : ∀ ts : List Turn, (∀ t ∈ ts, ∀ c ∈ t.calls, c.rule = t.rule.position) →
      (ts.flatMap Turn.calls).filter (keep ·.rule) =
        (ts.filter (keep ·.rule.position)).flatMap Turn.calls := by
    intro ts hts
    induction ts with
    | nil => rfl
    | cons t ts ih =>
      obtain ⟨ht, hts⟩ := List.forall_mem_cons.1 hts
      rw [List.flatMap_cons, List.filter_append, ih hts, List.filter_cons]
      split
      · next hkeep =>
        rw [List.flatMap_cons, List.filter_eq_self.2 fun c hc => by rwa [ht c hc]]
      · next hkeep =>
        rw [List.filter_eq_nil_iff.2 fun c hc => by rwa [ht c hc], List.nil_append]
  have hcalls := hturns (s.turns settings subject visit) fun t ht c hc => by
    obtain ⟨a, -, -, hposition, hanswers⟩ := Run.exists_of_mem_turns ht
    obtain ⟨-, seen, rfl⟩ := hanswers c hc
    exact hposition.symm
  rw [calls, hcalls, filter_turns hblind, List.flatMap_map]
  rfl

theorem filter_rules_next (hblind : ∀ a ∈ s.rules, keep a.position → a.rule.Blind)
    (visit : Visit) :
    (s.next settings subject visit).rules.filter (keep ·.position) =
      (s.rules.filter (keep ·.position)).map (·.step settings subject visit) := by
  have hrules : (s.next settings subject visit).rules =
      visit.phase.order ((s.turns settings subject visit).map Turn.rule) := rfl
  have hkept := congrArg (List.map Turn.rule) (@filter_turns settings subject s keep hblind visit)
  rw [List.map_map] at hkept
  rw [hrules, Phase.filter_order, List.filter_map]
  refine (congrArg visit.phase.order hkept).trans ?_
  rw [Phase.map_order, Phase.order_order]
  rfl

theorem blind_next (hblind : ∀ a ∈ s.rules, keep a.position → a.rule.Blind) (visit : Visit) :
    ∀ a ∈ (s.next settings subject visit).rules, keep a.position → a.rule.Blind := by
  intro a ha hkeep
  obtain ⟨b, hb, hrule, hposition⟩ := mem_rules_next ha
  rw [hrule]
  exact hblind b hb (hposition ▸ hkeep)

/-- The calls of some blind rules in a run are those that these rules get without the others. -/
theorem filter_callsAlong (hblind : ∀ a ∈ s.rules, keep a.position → a.rule.Blind)
    (visits : List Visit) :
    (s.callsAlong settings subject visits).filter (keep ·.rule) =
      Run.callsAlong settings subject (s.rules.filter (keep ·.position)) visits := by
  induction visits generalizing s with
  | nil => rfl
  | cons v vs ih =>
    rw [callsAlong, List.filter_append, filter_calls hblind, ih (blind_next hblind v),
      filter_rules_next hblind, Run.callsAlong]

theorem callsAlong_of_blind (hblind : ∀ a ∈ s.rules, a.rule.Blind) (visits : List Visit) :
    s.callsAlong settings subject visits = Run.callsAlong settings subject s.rules visits := by
  have hall := @filter_callsAlong settings subject s (fun _ => true) (fun a ha _ => hblind a ha)
    visits
  rwa [List.filter_true, List.filter_true] at hall

end Standing
end GraphQLCheck
