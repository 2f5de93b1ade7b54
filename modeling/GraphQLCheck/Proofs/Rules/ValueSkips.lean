import GraphQLCheck.Proofs.Rules.ValueCheck
import GraphQLCheck.Proofs.Validation.Skipping

/-!
What passing over nodes does to `Rules.valuesOfCorrectType`. The rule changes its state when a value
or what encloses it is entered, and changes it back when that is left, which does not happen at a
node that is passed over. This does no harm as long as no literal that is checked as a whole is
passed over, and no object field within a list (`Harmless`): the rule then ignores the same values
(`kept_tree`), and the place that it gives a `null` is the same.
-/
namespace GraphQLCheck

def Node.encloses : Node → Option (Option Location)
  | .variableDefinition d => some d.loc
  | .argument a => some a.loc
  | .objectField f => some f.loc
  | _ => none

namespace Node

def isList : Node → Bool
  | .value (.list _ _) => true
  | _ => false

theorem classOf_of_isList {n : Node} (h : n.isList) : n.classOf = .value := by
  cases n with
  | value v => rfl
  | _ => simp [isList] at h

theorem classOf_of_mem_items {α : Type} {part : List Segment} {node : α → Node} {i : Nat}
    {as : List α} {c : Child} (h : c ∈ Child.items part node i as)
    (hnode : ∀ a, (node a).classOf ≠ .value) : c.node.classOf ≠ .value := by
  obtain ⟨_, a, -, -, rfl⟩ := Child.mem_items h
  exact hnode a

theorem classOf_child {n : Node} (hencloses : n.encloses = none)
    (hlist : ¬ n.isList) {x : Child} (hx : x ∈ n.children) :
    x.node.classOf ≠ .value := by
  have hcarries := carries_child hx
  generalize x.node = m at hcarries ⊢
  cases hcarries with
  | definition d y => cases y <;> simp [Definition.node, classOf]
  | selection ss y => cases y <;> simp [Selection.node, classOf]
  | defaultValue d v => simp [encloses] at hencloses
  | argumentValue a v => simp [encloses] at hencloses
  | fieldValue f v => simp [encloses] at hencloses
  | item vs loc v => exact absurd rfl hlist
  | _ => simp [classOf]

theorem classOf_tail {n : Node} (hlist : ¬ n.isList) {x : Child}
    (hx : x ∈ n.children.tail) : x.node.classOf ≠ .value := by
  cases n with
  | variableDefinition d =>
    have hdirective : x ∈ Child.items [.directives] .directive 0 d.directives := by
      rw [children] at hx
      cases hdefault : d.defaultValue with
      | none =>
        rw [hdefault] at hx
        exact List.mem_of_mem_tail hx
      | some v =>
        rw [hdefault] at hx
        exact hx
    exact classOf_of_mem_items hdirective fun _ => by simp [classOf]
  | argument a => simp [children] at hx
  | objectField f => simp [children] at hx
  | _ => exact classOf_child rfl hlist (List.mem_of_mem_tail hx)

theorem classOf_of_encloses {n : Node} (hlevel : 6 ≤ n.level) (h : n.encloses.isSome) :
    n.classOf = .objectField := by
  cases n with
  | variableDefinition d => exact absurd hlevel (by decide : ¬ 6 ≤ 2)
  | argument a => exact absurd hlevel (by decide : ¬ 6 ≤ 5)
  | objectField f => rfl
  | _ => simp [encloses] at h

end Node

namespace Rules

/-- A literal that is checked as a whole: a list where no list is expected, or an object where no
input object is. -/
def whole (s : Schema) (v : Visit) : Bool :=
  match v.node with
  | .value (.list _ _) => (v.frame.parentInput.bind TypeRef.listItem?).isNone
  | .value (.object _ _) => (inputObject? s v.frame.input).isNone
  | _ => false

/-- Neither a literal that is checked as a whole is passed over nor an object field in a list. -/
structure Harmless (s : Schema) (passed : List Path) (visits : List Visit) : Prop where
  literals : ∀ v ∈ visits, v.phase = .enter → v.path ∈ passed → whole s v = false
  fields : ∀ v ∈ visits, v.node.isList → ∀ w ∈ visits, w.phase = .enter → w.path ∈ passed →
    w.node.classOf = .objectField → ¬ v.path.IsAbove w.path

theorem whole_of_classOf {s : Schema} {v : Visit} (h : v.node.classOf ≠ .value) :
    whole s v = false := by
  rw [whole]
  split
  · next heq => simp [heq, Node.classOf] at h
  · next heq => simp [heq, Node.classOf] at h
  · rfl

theorem harmless_of_handlers {settings : Settings} {subject : Subject}
    {before after : List StandardRule} {r : Rule} (hvalue : ¬ r.handlers.has ⟨.enter, .value⟩)
    (hfield : ¬ r.handlers.has ⟨.enter, .objectField⟩) :
    Harmless subject.schema (Run.passedBy settings subject before r after)
      (Run.allVisits settings.provider subject) where
  literals v hv hphase hpassed := by
    refine whole_of_classOf fun hclass => hvalue ?_
    have hhas := Run.has_of_mem_passedBy hv hphase hpassed
    rwa [Visit.slot, hphase, hclass] at hhas
  fields v _ _ w hw hphase hpassed hclass := by
    refine absurd ?_ hfield
    have hhas := Run.has_of_mem_passedBy hw hphase hpassed
    rwa [Visit.slot, hphase, hclass] at hhas

theorem Harmless.subset {s : Schema} {passed : List Path} {vs ws : List Visit}
    (h : Harmless s passed ws) (hsubset : ∀ v ∈ vs, v ∈ ws) : Harmless s passed vs where
  literals v hv := h.literals v (hsubset v hv)
  fields v hv hlist w hw := h.fields v (hsubset v hv) hlist w (hsubset w hw)

namespace ValueCheck

variable {p : Provider} {s : Schema} {d : Document} {q : Path} {t : Tracker} {c c' : ValueCheck}
  {passed : List Path}

theorem places_enter (n : Node) :
    (c.next ⟨s, d⟩ (Run.visitNow .enter n q t)).places = n.encloses.toList ++ c.places := by
  cases n with
  | value v =>
    simp only [next, valuesOfCorrectType, Run.visitNow]
    split
    · rfl
    · rcases enterValueCheck_state (s := s) (Run.visitNow .enter (.value v) q t) v c with h | h
      · exact (congrArg places h).trans rfl
      · exact (congrArg places h).trans rfl
  | _ => rfl

theorem places_leave (n : Node) :
    (c.next ⟨s, d⟩ (Run.visitNow .leave n q t)).places =
      c.places.drop n.encloses.toList.length := by
  cases n with
  | value v =>
    simp only [next, valuesOfCorrectType, Run.visitNow]
    split
    · rfl
    · rfl
  | variableDefinition d => exact List.drop_one.symm
  | argument a => exact List.drop_one.symm
  | objectField f => exact List.drop_one.symm
  | _ => rfl

theorem ignored_enter_eq (n : Node) :
    (c.next ⟨s, d⟩ (Run.visitNow .enter n q t)).ignored =
      if c.ignored = none ∧ whole s (Run.visitNow .enter n q t) then some q else c.ignored := by
  cases n with
  | value v =>
    cases hc : c.ignored with
    | some i => simp [next, valuesOfCorrectType, Run.visitNow, hc, Reaction.next]
    | none =>
      have hnext : (c.next ⟨s, d⟩ (Run.visitNow .enter (.value v) q t)).ignored =
          (enterValueCheck s (Run.visitNow .enter (.value v) q t) v c).1.ignored := by
        simp [next, valuesOfCorrectType, Run.visitNow, hc, Reaction.next]
      rw [hnext]
      cases v with
      | list items loc =>
        obtain h | ⟨item, h⟩ := (t.top.parentInput.bind TypeRef.listItem?).eq_none_or_eq_some
        · simp [enterValueCheck, whole, Run.visitNow, h, ignore]
        · simp [enterValueCheck, whole, Run.visitNow, h, hc]
      | object fields loc =>
        obtain h | ⟨i, h⟩ := (inputObject? s t.top.input).eq_none_or_eq_some
        · simp [enterValueCheck, whole, Run.visitNow, h, ignore]
        · simp [enterValueCheck, whole, Run.visitNow, h, hc]
      | _ => simpa [whole, Run.visitNow, enterValueCheck] using hc
  | _ => simp [next, valuesOfCorrectType, whole, Run.visitNow, Reaction.next, enclose]

theorem ignored_leave_eq (n : Node) :
    (c.next ⟨s, d⟩ (Run.visitNow .leave n q t)).ignored =
      if c.ignored = some q ∧ n.classOf = .value then none else c.ignored := by
  cases n with
  | value v =>
    simp only [next, valuesOfCorrectType, Run.visitNow, Reaction.next, Node.classOf, and_true]
    split
    · rfl
    · rfl
  | _ => simp [next, valuesOfCorrectType, Run.visitNow, Reaction.next, Node.classOf, close]

theorem reports_enter (n : Node) (hignored : c'.ignored = c.ignored)
    (hplace : n.classOf = .value → c'.places.headD none = c.places.headD none) :
    c'.reports ⟨s, d⟩ (Run.visitNow .enter n q t) =
      c.reports ⟨s, d⟩ (Run.visitNow .enter n q t) := by
  cases n with
  | value v =>
    have hhead := hplace rfl
    simp only [reports, valuesOfCorrectType, Run.visitNow, hignored]
    split
    · rfl
    · cases v with
      | null => simp only [enterValueCheck, hhead, Reaction.next]
      | list items loc =>
        simp only [enterValueCheck, Reaction.next]
        split
        · rfl
        · rfl
      | object fields loc =>
        simp only [enterValueCheck, Reaction.next]
        split
        · rfl
        · rfl
      | _ => rfl
  | objectField f => simp only [reports, valuesOfCorrectType, Run.visitNow, hignored, Reaction.next]
  | _ => rfl

theorem agrees_of_reports {subject : Subject} {visit : Visit}
    (h : c'.reports subject visit = c.reports subject visit) :
    valuesOfCorrectType.Agrees subject visit c c' := fun _ =>
  ⟨h.symm, (failure_valuesOfCorrectType subject visit c).trans
    (failure_valuesOfCorrectType subject visit c').symm⟩

theorem places_afterAll {xs : List Child}
    (h : ∀ x ∈ xs, ∀ c : ValueCheck, (c.after ⟨s, d⟩
      (((x.tree q).visits p s t).filter (Visit.spared passed))).places = c.places)
    (c : ValueCheck) :
    (c.after ⟨s, d⟩ ((Tree.visitsAll p s t (xs.map (Child.tree q))).filter
      (Visit.spared passed))).places = c.places := by
  induction xs generalizing c with
  | nil => rfl
  | cons x xs ih =>
    rw [List.map_cons, Tree.visitsAll, List.filter_append, after_append,
      ih fun y hy => h y (List.mem_cons_of_mem _ hy)]
    exact h x List.mem_cons_self c

theorem places_after (n : Node)
    (h : ∀ v ∈ (n.tree q).visits p s t, v.phase = .enter → v.path ∈ passed →
      v.node.encloses = none) :
    (c.after ⟨s, d⟩ (((n.tree q).visits p s t).filter (Visit.spared passed))).places =
      c.places := by
  induction n using Node.childInduction generalizing q t c with
  | step n ih =>
    rcases n.spared_cases passed q t (p := p) (s := s) with hhidden | ⟨henter, hq⟩ | hspared
    · rw [List.filter_eq_nil_iff.2 hhidden]
      rfl
    · have hnone : n.encloses = none := h _ (Node.mem_visits.2 (.inl rfl)) rfl hq
      rw [Node.filter_visits_of_mem henter hq]
      exact (places_enter n).trans (by rw [hnone]; rfl)
    · have hbelow : ∀ c : ValueCheck, (c.after ⟨s, d⟩ ((Tree.visitsAll p s (t.enter p s n)
          (n.children.map (Child.tree q))).filter (Visit.spared passed))).places = c.places :=
        places_afterAll fun x hx c => ih x hx fun v hv => h v (Node.mem_visits_of_child hx hv)
      rw [Node.filter_visits_of_spared hspared, ← List.cons_append, after_append]
      refine (places_leave n).trans ?_
      have hplaces := (hbelow _).trans (places_enter (s := s) (d := d) (q := q)
        (t := t.enter p s n) (c := c) n)
      refine (congrArg _ hplaces).trans ?_
      exact List.drop_left

theorem places_after_visits (n : Node) :
    (c.after ⟨s, d⟩ ((n.tree q).visits p s t)).places = c.places := by
  have h : (c.after ⟨s, d⟩ (((n.tree q).visits p s t).filter (Visit.spared []))).places =
      c.places := places_after n (by simp)
  have hall : ((n.tree q).visits p s t).filter (Visit.spared []) = (n.tree q).visits p s t :=
    List.filter_eq_self.2 fun _ _ => rfl
  rwa [hall] at h

theorem places_child {n : Node} {x : Child} (hx : x ∈ n.children) (hvalue : x.node.classOf = .value)
    (hplace : n.classOf = .value → c'.places.headD none = c.places.headD none) :
    (c'.next ⟨s, d⟩ (Run.visitNow .enter n q t)).places.headD none =
      (c.next ⟨s, d⟩ (Run.visitNow .enter n q t)).places.headD none := by
  rw [places_enter, places_enter]
  cases hencloses : n.encloses with
  | some loc => rfl
  | none =>
    by_cases hlist : n.isList
    · exact hplace (Node.classOf_of_isList hlist)
    · exact absurd hvalue (Node.classOf_child hencloses hlist hx)

theorem encloses_of_harmless {n : Node} (h : Harmless s passed ((n.tree q).visits p s t))
    {y : Child} (hy : y ∈ n.children.tail) (hvalue : y.node.classOf = .value)
    {x : Child} (hx : x ∈ n.children) {v : Visit} (hv : v ∈ (x.tree q).visits p s (t.enter p s n))
    (hphase : v.phase = .enter) (hpassed : v.path ∈ passed) : v.node.encloses = none := by
  by_contra hencloses
  by_cases hlist : n.isList
  · have hlevel : 6 ≤ v.node.level := by
      have hchild := Node.level_child hx
      have hbelow := x.node.level_of_mem_visits hv
      have hn : n.level = 6 := congrArg NodeClass.level (Node.classOf_of_isList hlist)
      omega
    have hfield := Node.classOf_of_encloses hlevel (Option.isSome_iff_ne_none.2 hencloses)
    have hvisit := Node.mem_visits_of_child hx hv
    exact h.fields _ (Node.mem_visits.2 (.inl rfl)) hlist v hvisit hphase hpassed hfield
      (Child.isAbove_of_mem_children hx (x.node.prefix_of_mem_visits hv))
  · exact Node.classOf_tail hlist hy hvalue

/-- The rule makes the same of all visits of a tree as of those that are spared. -/
def Kept (d : Document) (s : Schema) (passed : List Path) (visits : List Visit)
    (c c' : ValueCheck) : Prop :=
  valuesOfCorrectType.Unmoved ⟨s, d⟩ passed visits c c' ∧
    (c'.after ⟨s, d⟩ (visits.filter (Visit.spared passed))).ignored = c.ignored

theorem kept_all {n : Node}
    (ih : ∀ x ∈ n.children, ∀ {q : Path} {t : Tracker} {c c' : ValueCheck},
      Harmless s passed ((x.node.tree q).visits p s t) → c'.ignored = c.ignored → Elsewhere q c →
      (x.node.classOf = .value → c'.places.headD none = c.places.headD none) →
      Kept d s passed ((x.node.tree q).visits p s t) c c')
    {xs : List Child} (hxs : ∀ x ∈ xs, x ∈ n.children)
    (hharmless : ∀ x ∈ xs, Harmless s passed ((x.tree q).visits p s t))
    (hbalanced : ∀ y ∈ xs.tail, y.node.classOf = .value → ∀ x ∈ xs,
      ∀ v ∈ (x.tree q).visits p s t, v.phase = .enter → v.path ∈ passed → v.node.encloses = none)
    {c c' : ValueCheck} (hignored : c'.ignored = c.ignored) (hc : NotBelow q c)
    (hplace : ∀ x ∈ xs, x.node.classOf = .value → c'.places.headD none = c.places.headD none) :
    Kept d s passed (Tree.visitsAll p s t (xs.map (Child.tree q))) c c' := by
  induction xs generalizing c c' with
  | nil => exact ⟨trivial, hignored⟩
  | cons x xs ihxs =>
    have hx := hxs x List.mem_cons_self
    obtain ⟨hunmoved, hkept⟩ := ih x hx (hharmless x List.mem_cons_self) hignored (hc.elsewhere hx)
      (hplace x List.mem_cons_self)
    have hfull := ignored_after (p := p) (s := s) (d := d) (t := t) x.node (hc.elsewhere hx)
    have hrest := ihxs (fun y hy => hxs y (List.mem_cons_of_mem _ hy))
      (fun y hy => hharmless y (List.mem_cons_of_mem _ hy))
      (fun y hy hvalue z hz =>
        hbalanced y (List.mem_of_mem_tail hy) hvalue z (List.mem_cons_of_mem _ hz))
      (hkept.trans hfull.symm) (fun i hi => hc i (hfull.symm.trans hi)) ?_
    · rw [List.map_cons, Tree.visitsAll]
      refine ⟨hunmoved.append ?_, ?_⟩
      · rw [after_rule, after_rule]
        exact hrest.1
      · rw [List.filter_append, after_append]
        exact hrest.2.trans hfull
    -- A value behind `x` finds the places that were there in front of `x`.
    · intro y hy hvalue
      rw [places_after_visits, places_after x.node (hbalanced y hy hvalue x List.mem_cons_self)]
      exact hplace y (List.mem_cons_of_mem _ hy) hvalue

theorem kept_tree (n : Node) {c c' : ValueCheck}
    (hharmless : Harmless s passed ((n.tree q).visits p s t)) (hignored : c'.ignored = c.ignored)
    (hc : Elsewhere q c)
    (hplace : n.classOf = .value → c'.places.headD none = c.places.headD none) :
    Kept d s passed ((n.tree q).visits p s t) c c' := by
  induction n using Node.childInduction generalizing q t c c' with
  | step n ih =>
    have hagrees : valuesOfCorrectType.Agrees ⟨s, d⟩
        (Run.visitNow .enter n q (t.enter p s n)) c c' :=
      agrees_of_reports (reports_enter n hignored hplace)
    rcases n.spared_cases passed q t (p := p) (s := s) with hhidden | ⟨henter, hq⟩ | hspared
    · refine ⟨Rule.unmoved_of_hidden hhidden, ?_⟩
      rw [List.filter_eq_nil_iff.2 hhidden]
      exact hignored
    · constructor
      · rw [Node.visits_tree]
        exact Rule.unmoved_cons henter hagrees
          (Rule.unmoved_of_hidden fun v hv => (Node.within_of_mem hv).not_spared hq)
      · have hwhole : whole s (Run.visitNow .enter n q (t.enter p s n)) = false :=
          hharmless.literals _ (Node.mem_visits.2 (.inl rfl)) rfl hq
        rw [Node.filter_visits_of_mem henter hq]
        exact (ignored_enter_eq n).trans (by simp [hwhole, hignored])
    · have hentered : (c'.next ⟨s, d⟩ (Run.visitNow .enter n q (t.enter p s n))).ignored =
          (c.next ⟨s, d⟩ (Run.visitNow .enter n q (t.enter p s n))).ignored := by
        rw [ignored_enter_eq, ignored_enter_eq, hignored]
      have hbelow := hc.enter (s := s) (d := d) (t := t.enter p s n) n
      obtain ⟨hunmoved, hkept⟩ := kept_all (d := d) (p := p) (t := t.enter p s n) ih
        (fun _ hx => hx)
        (fun x hx => hharmless.subset fun v hv => Node.mem_visits_of_child hx hv)
        (fun y hy hvalue x hx v hv => encloses_of_harmless hharmless hy hvalue hx hv)
        hentered hbelow (fun x hx hvalue => places_child hx hvalue hplace)
      have hfull := ignored_afterAll (p := p) (s := s) (d := d) (t := t.enter p s n) (n := n)
        (fun x _ => ignored_after x.node) (fun _ hx => hx) hbelow
      constructor
      · have hleft : ∀ e e' : ValueCheck, valuesOfCorrectType.Unmoved ⟨s, d⟩ passed
            [Run.visitNow .leave n q (t.enter p s n)] e e' := fun e e' =>
          Rule.unmoved_cons (hspared .leave)
            (agrees_of_reports ((reports_leave n).trans (reports_leave n).symm)) trivial
        rw [Node.visits_tree]
        refine Rule.unmoved_cons (hspared .enter) hagrees ?_
        rw [next_rule, next_rule]
        exact hunmoved.append (hleft _ _)
      · rw [Node.filter_visits_of_spared hspared, ← List.cons_append, after_append]
        refine Eq.trans ?_ (ignored_after (p := p) (s := s) (d := d) (t := t) n hc)
        rw [after_tree]
        refine (ignored_leave_eq n).trans (Eq.trans ?_ (ignored_leave_eq n).symm)
        rw [hfull]
        exact congrArg (fun i => if i = some q ∧ n.classOf = .value then none else i) hkept

end ValueCheck
end Rules
end GraphQLCheck
