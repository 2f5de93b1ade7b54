import GraphQLCheck.Proofs.Validation.Limit
import GraphQLCheck.Proofs.Validation.Visits

/-!
The course of a run: the visits that it makes. What is called at a visit, and what comes of it,
hangs on the rules in their states and on what was collected before (`Standing`): each rule that
asked for the visit answers out of its state, and sees what was reported so far, by the rules before
it at the visit too (`turns`). The nodes below a node are passed over if a call on the way in asks
for that (`Tree.course`). A run makes its whole course unless the limit ends it (`ends_course`).
-/
namespace GraphQLCheck

universe u v

def Phase.order {α : Type u} : Phase → List α → List α
  | enter, as => as
  | leave, as => as.reverse

section
variable {α : Type u} (phase : Phase)

@[simp]
theorem Phase.order_order (as : List α) : phase.order (phase.order as) = as := by
  cases phase with
  | enter => rfl
  | leave => exact List.reverse_reverse as

@[simp]
theorem Phase.mem_order {a : α} {as : List α} : a ∈ phase.order as ↔ a ∈ as := by
  cases phase with
  | enter => rfl
  | leave => exact List.mem_reverse

theorem Phase.map_order {β : Type v} (f : α → β) (as : List α) :
    (phase.order as).map f = phase.order (as.map f) := by
  cases phase with
  | enter => rfl
  | leave => exact List.map_reverse

theorem Phase.filter_order (keep : α → Bool) (as : List α) :
    (phase.order as).filter keep = phase.order (as.filter keep) := by
  cases phase with
  | enter => rfl
  | leave => exact List.filter_reverse

end

structure Standing where
  rules : List ActiveRule
  collected : List Diagnostic

/-- A rule after a visit, with the call that it got there if it asked for one. -/
structure Turn where
  rule : ActiveRule
  calls : List Call

namespace Run

variable (settings : Settings) (subject : Subject)

def turns (visit : Visit) : List ActiveRule → List Diagnostic → List Turn
  | [], _ => []
  | a :: rest, seen =>
    if a.rule.handlers.has visit.slot then
      let x := answer settings ⟨subject, seen⟩ visit a
      let seen := seen ++ (respond ⟨subject, seen⟩ visit a).call.reports
      ⟨x.rule, [x.call]⟩ :: turns visit rest seen
    else ⟨a, []⟩ :: turns visit rest seen

def standing (r : Run) : Standing := ⟨r.rules, r.findings.diagnostics⟩

variable {settings subject} in
theorem exists_of_mem_turns {visit : Visit} {rules : List ActiveRule} {seen : List Diagnostic}
    {t : Turn} (h : t ∈ turns settings subject visit rules seen) :
    ∃ a ∈ rules, t.rule.rule = a.rule ∧ t.rule.position = a.position ∧
      ∀ c ∈ t.calls, a.rule.handlers.has visit.slot ∧
        ∃ seen, c = (answer settings ⟨subject, seen⟩ visit a).call := by
  induction rules generalizing seen with
  | nil => simp [turns] at h
  | cons a rest ih =>
    have hlater : ∀ seen, t ∈ turns settings subject visit rest seen →
        ∃ b ∈ a :: rest, t.rule.rule = b.rule ∧ t.rule.position = b.position ∧
          ∀ c ∈ t.calls, b.rule.handlers.has visit.slot ∧
            ∃ seen, c = (answer settings ⟨subject, seen⟩ visit b).call := by
      intro seen ht
      obtain ⟨b, hb, hturn⟩ := ih ht
      exact ⟨b, List.mem_cons_of_mem _ hb, hturn⟩
    rw [turns] at h
    split at h
    · next hhas =>
      rcases List.mem_cons.1 h with rfl | h
      · refine ⟨a, List.mem_cons_self, rfl, rfl, fun c hc => ⟨hhas, seen, ?_⟩⟩
        exact List.mem_singleton.1 hc
      · exact hlater _ h
    · rcases List.mem_cons.1 h with rfl | h
      · exact ⟨a, List.mem_cons_self, rfl, rfl, by simp⟩
      · exact hlater _ h

end Run

namespace Standing

variable (settings : Settings) (subject : Subject)

def turns (s : Standing) (visit : Visit) : List Turn :=
  Run.turns settings subject visit (visit.phase.order s.rules) s.collected

def calls (s : Standing) (visit : Visit) : List Call :=
  (s.turns settings subject visit).flatMap Turn.calls

def next (s : Standing) (visit : Visit) : Standing :=
  ⟨visit.phase.order ((s.turns settings subject visit).map Turn.rule),
    s.collected ++ (s.calls settings subject visit).flatMap Call.reports⟩

def passes (s : Standing) (visit : Visit) : Bool := (s.calls settings subject visit).any Call.passes

def after (s : Standing) (visits : List Visit) : Standing :=
  visits.foldl (fun s visit => s.next settings subject visit) s

def callsAlong : Standing → List Visit → List Call
  | _, [] => []
  | s, visit :: visits =>
    s.calls settings subject visit ++ callsAlong (s.next settings subject visit) visits

variable {settings subject}

theorem mem_calls {s : Standing} {visit : Visit} {c : Call}
    (h : c ∈ s.calls settings subject visit) :
    ∃ a ∈ s.rules, a.rule.handlers.has visit.slot ∧
      ∃ seen, c = (Run.answer settings ⟨subject, seen⟩ visit a).call := by
  obtain ⟨t, ht, hc⟩ := List.mem_flatMap.1 h
  obtain ⟨a, ha, -, -, hcalls⟩ := Run.exists_of_mem_turns ht
  exact ⟨a, (Phase.mem_order _).1 ha, hcalls c hc⟩

theorem mem_rules_next {s : Standing} {visit : Visit} {a : ActiveRule}
    (h : a ∈ (s.next settings subject visit).rules) :
    ∃ b ∈ s.rules, a.rule = b.rule ∧ a.position = b.position := by
  obtain ⟨t, ht, rfl⟩ := List.mem_map.1 ((Phase.mem_order _).1 h)
  obtain ⟨b, hb, hrule, hposition, -⟩ := Run.exists_of_mem_turns ht
  exact ⟨b, (Phase.mem_order _).1 hb, hrule, hposition⟩

theorem after_append (s : Standing) (vs ws : List Visit) :
    s.after settings subject (vs ++ ws) = (s.after settings subject vs).after settings subject ws :=
  List.foldl_append

theorem callsAlong_append (s : Standing) (vs ws : List Visit) :
    s.callsAlong settings subject (vs ++ ws) =
      s.callsAlong settings subject vs
        ++ (s.after settings subject vs).callsAlong settings subject ws := by
  induction vs generalizing s with
  | nil => rfl
  | cons v vs ih =>
    rw [List.cons_append, callsAlong, callsAlong, ih, List.append_assoc]
    rfl

theorem mem_callsAlong {s : Standing} {visits : List Visit} {c : Call}
    (h : c ∈ s.callsAlong settings subject visits) :
    ∃ a ∈ s.rules, ∃ visit ∈ visits, a.rule.handlers.has visit.slot ∧ ∃ state seen,
      c = (Run.answer settings ⟨subject, seen⟩ visit ⟨a.position, a.rule, state⟩).call := by
  induction visits generalizing s with
  | nil => simp [callsAlong] at h
  | cons v vs ih =>
    rcases List.mem_append.1 h with h | h
    · obtain ⟨a, ha, hhas, seen, hc⟩ := mem_calls h
      exact ⟨a, ha, v, List.mem_cons_self, hhas, a.state, seen, hc⟩
    · obtain ⟨⟨position, rule, start⟩, hb, w, hw, hanswer⟩ := ih h
      obtain ⟨a, ha, rfl, rfl⟩ := mem_rules_next hb
      exact ⟨a, ha, w, List.mem_cons_of_mem _ hw, hanswer⟩

theorem collected_after (s : Standing) (visits : List Visit) :
    (s.after settings subject visits).collected =
      s.collected ++ (s.callsAlong settings subject visits).flatMap Call.reports := by
  induction visits generalizing s with
  | nil => simp [after, callsAlong]
  | cons v vs ih =>
    have hnext : (s.next settings subject v).collected =
        s.collected ++ (s.calls settings subject v).flatMap Call.reports := rfl
    rw [callsAlong, List.flatMap_append, ← List.append_assoc, ← hnext]
    exact ih _

end Standing

namespace Tree

variable (settings : Settings) (subject : Subject)

mutual

/-- The visits that are made of a tree, where `t` is the tracker in front of it. -/
def course (s : Standing) (t : Tracker) : Tree → List Visit
  | .mk path n below =>
    let inner := t.enter settings.provider subject.schema n
    let entering := Run.visitNow .enter n path inner
    if s.passes settings subject entering then [entering]
    else
      entering :: (courseAll (s.next settings subject entering) inner below
        ++ [Run.visitNow .leave n path inner])

def courseAll (s : Standing) (t : Tracker) : List Tree → List Visit
  | [] => []
  | tree :: trees =>
    let visits := course s t tree
    visits ++ courseAll (s.after settings subject visits) t trees

end

end Tree

namespace Run

variable (settings : Settings) (subject : Subject)

def along (r : Run) (t : Tracker) (visits : List Visit) : Run :=
  let calls := (r.standing.callsAlong settings subject visits).reverse ++ r.calls
  ⟨t, (r.standing.after settings subject visits).rules, ⟨(reported calls).reverse, false⟩, calls⟩

theorem told_along (r : Run) (t : Tracker) (visits : List Visit) :
    Told (along settings subject r t visits).findings (along settings subject r t visits).calls :=
  rfl

variable {settings subject} {rules : List ActiveRule} {r : Run}

theorem Told.collected (h : Told r.findings r.calls) : r.standing.collected = reported r.calls := by
  rw [Told] at h
  rw [standing, Findings.diagnostics, h, List.reverse_reverse]

theorem standing_along (h : Told r.findings r.calls) (t : Tracker) (visits : List Visit) :
    (along settings subject r t visits).standing = r.standing.after settings subject visits := by
  have hcollected : (along settings subject r t visits).standing.collected =
      (r.standing.after settings subject visits).collected := by
    rw [(told_along settings subject r t visits).collected, Standing.collected_after, h.collected,
      along, reported, List.reverse_append, List.reverse_reverse, List.flatMap_append]
    rfl
  exact congrArg (Standing.mk (r.standing.after settings subject visits).rules) hcollected

theorem along_append (h : Told r.findings r.calls) (t u : Tracker) (vs ws : List Visit) :
    along settings subject (along settings subject r t vs) u ws =
      along settings subject r u (vs ++ ws) := by
  have hcalls : ((along settings subject r t vs).standing.callsAlong settings subject ws).reverse ++
        (along settings subject r t vs).calls =
      (r.standing.callsAlong settings subject (vs ++ ws)).reverse ++ r.calls := by
    rw [standing_along h, Standing.callsAlong_append, List.reverse_append, List.append_assoc]
    rfl
  have hrules : ((along settings subject r t vs).standing.after settings subject ws).rules =
      (r.standing.after settings subject (vs ++ ws)).rules := by
    rw [standing_along h, Standing.after_append]
  rw [along, hcalls, hrules]
  rfl

theorem along_nil (h : Told r.findings r.calls) : along settings subject r r.tracker [] = r := by
  rw [Told] at h
  simp [along, Standing.callsAlong, Standing.after, standing, ← h]

theorem along_singleton (r : Run) (t : Tracker) (visit : Visit) :
    along settings subject r t [visit] =
      let calls := (r.standing.calls settings subject visit).reverse ++ r.calls
      ⟨t, (r.standing.next settings subject visit).rules, ⟨(reported calls).reverse, false⟩,
        calls⟩ := by
  simp [along, Standing.callsAlong, Standing.after]

theorem Told.of_going {findings : Findings} {calls : List Call} (h : Told findings calls) {c : Call}
    (hgoing : (findings.reportAll settings c.reports).aborted = false) :
    Told (findings.reportAll settings c.reports) (c :: calls) := by
  rw [Told] at h ⊢
  rw [h] at hgoing ⊢
  rw [Findings.reportAll_of_going hgoing, reported_cons, List.reverse_append]

theorem callEach_of_going {visit : Visit} {seen : List Diagnostic} {findings : Findings}
    {calls : List Call} (htold : Told findings calls)
    (hgoing : (callEach settings subject visit rules seen findings calls).findings.aborted =
      false) :
    callEach settings subject visit rules seen findings calls =
      let new := (turns settings subject visit rules seen).flatMap Turn.calls
      ⟨(turns settings subject visit rules seen).map Turn.rule,
        ⟨(reported (new.reverse ++ calls)).reverse, false⟩, new.reverse ++ calls,
        new.any Call.passes⟩ := by
  induction rules generalizing seen findings calls with
  | nil =>
    rw [htold]
    rfl
  | cons a rest ih =>
    rw [callEach, turns]
    rw [callEach] at hgoing
    by_cases hhas : a.rule.handlers.has visit.slot
    · simp only [hhas, if_true] at hgoing ⊢
      by_cases hfull : (findings.reportAll settings
          (answer settings ⟨subject, seen⟩ visit a).call.reports).aborted
      · simp [hfull] at hgoing
      · have htold' := htold.of_going (by simpa using hfull)
        simp only [hfull, Bool.false_eq_true, if_false] at hgoing ⊢
        rw [ih htold' hgoing]
        simp
    · simp only [hhas, Bool.false_eq_true, if_false] at hgoing ⊢
      rw [ih htold hgoing]
      simp

variable (settings subject) in
theorem ends_enter (htold : Told r.findings r.calls) (n : Node) (p : Path) {inner : Tracker}
    (hinner : inner = r.tracker.enter settings.provider subject.schema n) :
    Tree.Ends (·.findings.aborted)
      (fun x => r.standing.passes settings subject (visitNow .enter n p inner) ∧
        x = along settings subject r r.tracker [visitNow .enter n p inner])
      (fun x => ¬ r.standing.passes settings subject (visitNow .enter n p inner) ∧
        x = along settings subject r inner [visitNow .enter n p inner])
      ((visitor settings subject).enter n p r) := by
  simp only [visitor, enter_eq, htold.going, Bool.false_eq_true, if_false, ← hinner]
  by_cases hround : (callEach settings subject (visitNow .enter n p inner) r.rules
      r.findings.diagnostics r.findings r.calls).findings.aborted
  · rw [Round.entered, if_pos hround]
    exact hround
  · have hgoing := callEach_of_going htold (by simpa using hround)
    rw [hgoing, Round.entered, if_neg (by simp)]
    have hleave : inner.leave = r.tracker := by rw [hinner, Tracker.leave_enter]
    split
    · next hskip => exact ⟨hskip, by rw [along_singleton, hleave]; rfl⟩
    · next hskip => exact ⟨hskip, by rw [along_singleton]; rfl⟩

variable (settings subject) in
theorem ends_leave (htold : Told r.findings r.calls) (n : Node) (p : Path) :
    Tree.Ends (·.findings.aborted) (fun _ => False)
      (· = along settings subject r r.tracker.leave [visitNow .leave n p r.tracker])
      ((visitor settings subject).leave n p r) := by
  simp only [visitor, leave_eq, htold.going, Bool.false_eq_true, if_false]
  by_cases hround : (callEach settings subject (visitNow .leave n p r.tracker) r.rules.reverse
      r.findings.diagnostics r.findings r.calls).findings.aborted
  · rw [Round.left, if_pos hround]
    exact hround
  · have hgoing := callEach_of_going htold (by simpa using hround)
    rw [hgoing, Round.left, if_neg (by simp), along_singleton]
    rfl

variable (settings subject) in
mutual

/-- A run makes the course of a tree, or the limit ends it. -/
theorem ends_course : ∀ (t : Tree) {r : Run}, Told r.findings r.calls →
    Tree.Ends (·.findings.aborted)
      (· = along settings subject r r.tracker (t.course settings subject r.standing r.tracker))
      (· = along settings subject r r.tracker (t.course settings subject r.standing r.tracker))
      (t.run (visitor settings subject) r)
  | .mk p n below, r, htold => by
    have henter := ends_enter settings subject htold n p rfl
    rw [Tree.run, Tree.course]
    generalize (visitor settings subject).enter n p r = entered at henter
    rcases entered with ⟨_ | _ | _, x⟩
    · obtain ⟨hpasses, hx⟩ := henter
      have hbelow := ends_courseAll below (r := x) (hx ▸ told_along _ _ _ _ _)
      rw [if_neg hpasses]
      simp only
      generalize Tree.runAll (visitor settings subject) below x = result at hbelow
      rcases result with ⟨_ | _ | _, y⟩
      · have hleave := ends_leave settings subject (r := y) (hbelow ▸ told_along _ _ _ _ _) n p
        simp only
        generalize (visitor settings subject).leave n p y = left at hleave
        -- The run in front of what comes next is as it would be after all visits made so far.
        rcases left with ⟨_ | _ | _, z⟩
        · rw [hx, standing_along htold, along_append htold] at hbelow
          rw [hbelow, along_append htold] at hleave
          exact hleave
        · exact hleave
        · exact hleave.elim
      · exact hbelow
      · exact hbelow.elim
    · exact henter
    · obtain ⟨hpasses, rfl⟩ := henter
      rw [if_pos hpasses]
      rfl

theorem ends_courseAll : ∀ (ts : List Tree) {r : Run}, Told r.findings r.calls →
    Tree.Ends (·.findings.aborted) (fun _ => False)
      (· = along settings subject r r.tracker
        (Tree.courseAll settings subject r.standing r.tracker ts))
      (Tree.runAll (visitor settings subject) ts r)
  | [], r, htold => by
    rw [Tree.runAll, Tree.courseAll, along_nil htold]
    rfl
  | t :: ts, r, htold => by
    have ht := ends_course t htold
    rw [Tree.runAll, Tree.courseAll]
    generalize t.run (visitor settings subject) r = result at ht
    have hrest : ∀ x, x = along settings subject r r.tracker
          (t.course settings subject r.standing r.tracker) →
        Tree.Ends (·.findings.aborted) (fun _ => False)
          (· = along settings subject r r.tracker
            (t.course settings subject r.standing r.tracker ++ Tree.courseAll settings subject
              (r.standing.after settings subject
                (t.course settings subject r.standing r.tracker)) r.tracker ts))
          (Tree.runAll (visitor settings subject) ts x) := by
      rintro x rfl
      have hts := ends_courseAll ts (told_along settings subject r
        r.tracker (t.course settings subject r.standing r.tracker))
      rwa [along_append htold, standing_along htold] at hts
    rcases result with ⟨_ | _ | _, x⟩
    · exact hrest x ht
    · exact ht
    · exact hrest x ht

end

variable (settings subject) in
def course (rules : List Rule) : List Visit :=
  ((Node.document subject.document).tree .root).course settings subject (start rules).standing
    .empty

theorem ofDocument_eq_along {rules : List Rule}
    (hgoing : (ofDocument settings subject rules).findings.aborted = false) :
    ofDocument settings subject rules =
      along settings subject (start rules) .empty (course settings subject rules) := by
  have hrun := ends_course settings subject ((Node.document subject.document).tree .root)
    (told_start rules)
  rw [ofDocument_eq_run] at hgoing ⊢
  generalize ((Node.document subject.document).tree .root).run (visitor settings subject)
    (start rules) = result at hrun hgoing
  rcases result with ⟨_ | _ | _, r⟩
  · exact hrun
  · exact absurd (hgoing.symm.trans hrun) (by decide)
  · exact hrun

theorem trace_of_going {rules : List Rule}
    (hgoing : (ofDocument settings subject rules).findings.aborted = false) :
    (ofDocument settings subject rules).trace =
      (start rules).standing.callsAlong settings subject (course settings subject rules) := by
  rw [ofDocument_eq_along hgoing]
  simp [trace, along, start]

theorem answer_of_mem_trace {rules : List Rule}
    (hgoing : (ofDocument settings subject rules).findings.aborted = false) {c : Call}
    (hc : c ∈ (ofDocument settings subject rules).trace) :
    ∃ r, rules[c.rule]? = some r ∧ c.visit ∈ course settings subject rules ∧
      r.handlers.has c.visit.slot ∧ ∃ state seen,
        c = (answer settings ⟨subject, seen⟩ c.visit ⟨c.rule, r, state⟩).call := by
  rw [trace_of_going hgoing] at hc
  obtain ⟨a, ha, visit, hvisit, hhas, state, seen, hc⟩ := Standing.mem_callsAlong hc
  obtain ⟨i, hi, rfl⟩ := List.mem_mapIdx.1 ha
  obtain rfl : c.rule = i := congrArg Call.rule hc
  obtain rfl : c.visit = visit := congrArg Call.visit hc
  exact ⟨rules[c.rule], List.getElem?_eq_getElem hi, hvisit, hhas, state, seen, hc⟩

end Run
end GraphQLCheck
