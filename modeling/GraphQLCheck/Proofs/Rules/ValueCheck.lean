import GraphQLCheck.Proofs.Validation.FullRun
import GraphQLCheck.Validation.Rules.Values

/-!
`Rules.valuesOfCorrectType` as a machine that sees one visit after the other. What it ignores in
front of a node it ignores behind it too (`ignored_after`), and below what it ignores it reports
nothing (`reported_of_ignored`).
-/
namespace GraphQLCheck

namespace Rules

theorem handlers_valuesOfCorrectType (slot : Slot) :
    valuesOfCorrectType.handlers.has slot =
      [.variableDefinition, .argument, .objectField, .value].contains slot.node := by
  obtain ⟨phase, node⟩ := slot
  cases phase <;> cases node <;> rfl

theorem failure_valuesOfCorrectType (subject : RuleContext) (visit : Visit)
    (c : valuesOfCorrectType.State) :
    (valuesOfCorrectType.react subject visit c).failure = none := by
  obtain ⟨phase, node, path, frame, depth⟩ := visit
  cases phase with
  | enter =>
    cases node with
    | value v =>
      simp only [valuesOfCorrectType]
      split
      · rfl
      · rfl
    | _ => rfl
  | leave => cases node <;> rfl

namespace ValueCheck

variable (subject : Subject)

def next (visit : Visit) (c : ValueCheck) : ValueCheck :=
  (valuesOfCorrectType.react subject visit c).state

def reports (visit : Visit) (c : ValueCheck) : List Diagnostic :=
  (valuesOfCorrectType.react subject visit c).reports

def after (visits : List Visit) (c : ValueCheck) : ValueCheck :=
  visits.foldl (fun c visit => c.next subject visit) c

def reported : List Visit → ValueCheck → List Diagnostic
  | [], _ => []
  | visit :: visits, c => c.reports subject visit ++ reported visits (c.next subject visit)

variable {subject}

theorem next_rule (visit : Visit) (c : ValueCheck) :
    valuesOfCorrectType.next subject visit c = c.next subject visit := by
  obtain ⟨phase, node, path, frame, depth⟩ := visit
  simp only [Rule.next, handlers_valuesOfCorrectType]
  cases phase <;> cases node <;> rfl

theorem reports_rule (visit : Visit) (c : ValueCheck) :
    valuesOfCorrectType.reports subject visit c = c.reports subject visit := by
  obtain ⟨phase, node, path, frame, depth⟩ := visit
  simp only [Rule.reports, handlers_valuesOfCorrectType]
  cases phase <;> cases node <;> rfl

theorem after_rule (visits : List Visit) (c : ValueCheck) :
    valuesOfCorrectType.after subject visits c = c.after subject visits := by
  induction visits generalizing c with
  | nil => rfl
  | cons v vs ih =>
    have h : valuesOfCorrectType.after subject (v :: vs) c =
        valuesOfCorrectType.after subject vs (valuesOfCorrectType.next subject v c) := rfl
    rw [h, next_rule]
    exact ih _

theorem reported_rule (visits : List Visit) (c : ValueCheck) :
    valuesOfCorrectType.reported subject visits c = c.reported subject visits := by
  induction visits generalizing c with
  | nil => rfl
  | cons v vs ih =>
    have h : valuesOfCorrectType.reported subject (v :: vs) c =
        valuesOfCorrectType.reports subject v c ++
          valuesOfCorrectType.reported subject vs (valuesOfCorrectType.next subject v c) := rfl
    rw [h, next_rule, reports_rule, ih]
    rfl

theorem after_append (vs ws : List Visit) (c : ValueCheck) :
    c.after subject (vs ++ ws) = (c.after subject vs).after subject ws :=
  List.foldl_append

theorem reported_append (vs ws : List Visit) (c : ValueCheck) :
    c.reported subject (vs ++ ws) =
      c.reported subject vs ++ (c.after subject vs).reported subject ws := by
  have hrule : valuesOfCorrectType.reported subject (vs ++ ws) c =
      valuesOfCorrectType.reported subject vs c ++
        valuesOfCorrectType.reported subject ws (valuesOfCorrectType.after subject vs c) :=
    Rule.reported_append (r := valuesOfCorrectType) vs ws c
  rwa [after_rule, reported_rule, reported_rule, reported_rule] at hrule

variable {p : Provider} {d : Document} {s : Schema} {q : Path} {t : Tracker} {c : ValueCheck}

theorem enterValueCheck_state (visit : Visit) (v : Value) (c : ValueCheck) :
    (enterValueCheck s visit v c).1 = c ∨
      (enterValueCheck s visit v c).1 = c.ignore visit.path := by
  cases v with
  | list items loc =>
    simp only [enterValueCheck]
    split
    · exact .inl rfl
    · exact .inr rfl
  | object fields loc =>
    simp only [enterValueCheck]
    split
    · exact .inl rfl
    · exact .inr rfl
  | _ => exact .inl rfl

theorem ignored_enter (n : Node) :
    (c.next ⟨s, d⟩ (Run.visitNow .enter n q t)).ignored = c.ignored ∨
      c.ignored = none ∧ (∃ v, n = .value v) ∧
        (c.next ⟨s, d⟩ (Run.visitNow .enter n q t)).ignored = some q := by
  cases n with
  | value v =>
    cases hc : c.ignored with
    | some i =>
      left
      simp [next, valuesOfCorrectType, Run.visitNow, hc, Reaction.next]
    | none =>
      have hnext : c.next ⟨s, d⟩ (Run.visitNow .enter (.value v) q t) =
          (enterValueCheck s (Run.visitNow .enter (.value v) q t) v c).1 := by
        simp [next, valuesOfCorrectType, Run.visitNow, hc, Reaction.next]
      rw [hnext]
      rcases enterValueCheck_state (s := s) (Run.visitNow .enter (.value v) q t) v c with h | h
      · left
        rw [h, hc]
      · right
        rw [h]
        exact ⟨rfl, ⟨v, rfl⟩, rfl⟩
  | _ => exact .inl rfl

theorem ignored_leave (n : Node) (h : c.ignored ≠ some q) :
    (c.next ⟨s, d⟩ (Run.visitNow .leave n q t)).ignored = c.ignored := by
  cases n with
  | value v => simp [next, valuesOfCorrectType, Run.visitNow, h, Reaction.next]
  | _ => rfl

theorem ignored_leave_value (v : Value) (h : c.ignored = some q) :
    (c.next ⟨s, d⟩ (Run.visitNow .leave (.value v) q t)).ignored = none := by
  simp [next, valuesOfCorrectType, Run.visitNow, h, Reaction.next]

theorem reports_leave (n : Node) : c.reports ⟨s, d⟩ (Run.visitNow .leave n q t) = [] := by
  cases n <;> rfl

theorem after_tree (n : Node) :
    c.after ⟨s, d⟩ ((n.tree q).visits p s t) =
      (((c.next ⟨s, d⟩ (Run.visitNow .enter n q (t.enter p s n))).after ⟨s, d⟩
        (Tree.visitsAll p s (t.enter p s n) (n.children.map (Child.tree q)))).next
          ⟨s, d⟩ (Run.visitNow .leave n q (t.enter p s n))) := by
  rw [Node.visits_tree, ← List.cons_append, after_append]
  rfl

theorem reported_tree (n : Node) :
    c.reported ⟨s, d⟩ ((n.tree q).visits p s t) =
      c.reports ⟨s, d⟩ (Run.visitNow .enter n q (t.enter p s n)) ++
        (c.next ⟨s, d⟩ (Run.visitNow .enter n q (t.enter p s n))).reported ⟨s, d⟩
          (Tree.visitsAll p s (t.enter p s n)
            (n.children.map (Child.tree q))) := by
  rw [Node.visits_tree, reported, reported_append, reported, reported, reports_leave]
  simp

/-- What is ignored in front of a node is elsewhere: not at the node and not below it. -/
def Elsewhere (q : Path) (c : ValueCheck) : Prop :=
  ∀ i, c.ignored = some i → ¬ q.segments <+: i.segments

/-- What is ignored in front of the nodes below a node is not among them. -/
def NotBelow (q : Path) (c : ValueCheck) : Prop :=
  ∀ i, c.ignored = some i → i = q ∨ ¬ q.segments <+: i.segments

theorem NotBelow.elsewhere {n : Node} {x : Child} (hx : x ∈ n.children) (h : NotBelow q c) :
    Elsewhere (q.append x.steps) c := by
  intro i hi hprefix
  rcases h i hi with rfl | hq
  · have hlength := hprefix.length_le
    have hsteps := List.length_pos_iff.2 (Node.child_smaller hx).1
    rw [Path.segments_append, List.length_append] at hlength
    omega
  · exact hq ((List.prefix_append _ _).trans hprefix)

theorem elsewhere_of_none (h : c.ignored = none) : Elsewhere q c := by
  intro i hi
  exact absurd (h.symm.trans hi) (by simp)

theorem Elsewhere.ne (h : Elsewhere q c) : c.ignored ≠ some q :=
  fun hq => h q hq List.prefix_rfl

theorem Elsewhere.enter (h : Elsewhere q c) (n : Node) :
    NotBelow q (c.next ⟨s, d⟩ (Run.visitNow .enter n q t)) := by
  intro i hi
  rcases ignored_enter n with hsame | ⟨-, -, hq⟩
  · exact .inr (h i (hsame.symm.trans hi))
  · exact .inl (Option.some.inj (hi.symm.trans hq))

theorem ignored_afterAll {n : Node}
    (ih : ∀ x ∈ n.children, ∀ {q : Path} {t : Tracker} {c : ValueCheck}, Elsewhere q c →
      (c.after ⟨s, d⟩ ((x.node.tree q).visits p s t)).ignored = c.ignored)
    {xs : List Child} (hxs : ∀ x ∈ xs, x ∈ n.children) {c : ValueCheck} (h : NotBelow q c) :
    (c.after ⟨s, d⟩ (Tree.visitsAll p s t (xs.map (Child.tree q)))).ignored =
      c.ignored := by
  induction xs generalizing c with
  | nil => rfl
  | cons x xs ihxs =>
    have hx := hxs x List.mem_cons_self
    have hfirst := ih x hx (t := t) (h.elsewhere hx)
    have hrest : NotBelow q
        (c.after ⟨s, d⟩ ((x.node.tree (q.append x.steps)).visits p s t)) := by
      intro i hi
      exact h i (hfirst.symm.trans hi)
    rw [List.map_cons, Tree.visitsAll, after_append]
    exact (ihxs (fun y hy => hxs y (List.mem_cons_of_mem _ hy)) hrest).trans hfirst

theorem ignored_after (n : Node) (h : Elsewhere q c) :
    (c.after ⟨s, d⟩ ((n.tree q).visits p s t)).ignored = c.ignored := by
  induction n using Node.childInduction generalizing q t c with
  | step n ih =>
    have hbelow := ignored_afterAll (q := q) (t := t.enter p s n) ih (fun _ hx => hx)
      (h.enter (s := s) (d := d) (t := t.enter p s n) n)
    rw [after_tree]
    rcases ignored_enter (s := s) (d := d) (t := t.enter p s n) (c := c) (q := q) n with
      hsame | ⟨hnone, ⟨v, rfl⟩, hq⟩
    · rw [ignored_leave]
      · exact hbelow.trans hsame
      · rw [hbelow, hsame]
        exact h.ne
    -- What was ignored from here on is no longer once the value is left.
    · rw [ignored_leave_value v (hbelow.trans hq), hnone]

theorem reports_of_ignored {visit : Visit} {i : Path} (hi : c.ignored = some i) :
    c.reports ⟨s, d⟩ visit = [] := by
  obtain ⟨phase, node, path, frame, depth⟩ := visit
  cases phase <;> cases node <;> simp [reports, valuesOfCorrectType, hi, Reaction.next]

theorem reportedAll_of_ignored {n : Node}
    (ih : ∀ x ∈ n.children, ∀ {q : Path} {t : Tracker} {c : ValueCheck} {i : Path},
      c.ignored = some i →
      ¬ q.segments <+: i.segments →
      c.reported ⟨s, d⟩ ((x.node.tree q).visits p s t) = [])
    {xs : List Child} (hxs : ∀ x ∈ xs, x ∈ n.children) {c : ValueCheck} {i : Path}
    (hi : c.ignored = some i) (h : NotBelow q c) :
    c.reported ⟨s, d⟩ (Tree.visitsAll p s t (xs.map (Child.tree q))) = [] := by
  induction xs generalizing c with
  | nil => rfl
  | cons x xs ihxs =>
    have hx := hxs x List.mem_cons_self
    have hafter := ignored_after (p := p) (s := s) (d := d) (t := t) x.node (h.elsewhere hx)
    rw [List.map_cons, Tree.visitsAll, reported_append, List.append_eq_nil_iff]
    refine ⟨ih x hx hi (h.elsewhere hx i hi), ?_⟩
    refine ihxs (fun y hy => hxs y (List.mem_cons_of_mem _ hy)) (hafter.trans hi) ?_
    intro j hj
    exact h j (hafter.symm.trans hj)

theorem reported_of_ignored (n : Node) {i : Path} (hi : c.ignored = some i)
    (h : ¬ q.segments <+: i.segments) :
    c.reported ⟨s, d⟩ ((n.tree q).visits p s t) = [] := by
  induction n using Node.childInduction generalizing q t c i with
  | step n ih =>
    have helsewhere : Elsewhere q c := by
      intro j hj
      obtain rfl := Option.some.inj (hi.symm.trans hj)
      exact h
    rw [reported_tree, List.append_eq_nil_iff]
    refine ⟨reports_of_ignored hi, ?_⟩
    rcases ignored_enter (s := s) (d := d) (t := t.enter p s n) (c := c) (q := q) n with
      hsame | ⟨hnone, -, -⟩
    · exact reportedAll_of_ignored ih (fun _ hx => hx) (hsame.trans hi) (helsewhere.enter n)
    · exact absurd (hnone.symm.trans hi) (by simp)

end ValueCheck
end Rules
end GraphQLCheck
