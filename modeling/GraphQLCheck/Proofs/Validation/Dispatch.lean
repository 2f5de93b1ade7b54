import GraphQLCheck.Proofs.Traversal.Nesting
import GraphQLCheck.Proofs.Validation.FullRun

/-!
Which rules a run calls, and in which order. A run that the limit does not end makes the visits of
the whole tree, but for those within a node that was passed over (`course_eq_filter`); a node is
passed over if one of the rules called on the way in asks for it, and all of them are called before
that counts. At each visit the rules are called that want to be, in their order on the way in and
in the reverse order on the way out, where what they answer about the nodes below has no effect
(`dispatched`).
-/
namespace GraphQLCheck

namespace Visit

/-- Below the node that a path leads to, or on the way out of it. -/
def Within (v : Visit) (p : Path) : Prop := p.IsAbove v.path ∨ v.phase = .leave ∧ v.path = p

instance (v : Visit) (p : Path) : Decidable (v.Within p) := inferInstanceAs (Decidable (_ ∨ _))

def spared (passed : List Path) (v : Visit) : Bool := passed.all fun p => ¬ v.Within p

def key (v : Visit) : Phase × Path := (v.phase, v.path)

variable {v : Visit} {p : Path} {passed : List Path}

theorem Within.isPrefix (h : v.Within p) : p.segments <+: v.path.segments := by
  rcases h with h | ⟨-, rfl⟩
  · exact h.1
  · exact List.prefix_rfl

theorem spared_of_not_prefix (h : ∀ p ∈ passed, ¬ p.segments <+: v.path.segments) :
    v.spared passed := by
  simp only [spared, List.all_eq_true, decide_eq_true_eq]
  exact fun p hp hwithin => h p hp hwithin.isPrefix

theorem Within.not_spared (h : v.Within p) (hp : p ∈ passed) : ¬ v.spared passed := by
  simp only [spared, List.all_eq_true, decide_eq_true_eq]
  exact fun hspared => hspared p hp h

theorem spared_append (ps qs : List Path) : v.spared (ps ++ qs) = (v.spared ps && v.spared qs) := by
  simp [spared]

end Visit

namespace Node

variable {p : Provider} {s : Schema}

theorem exists_of_mem_visitsAll {cs : List Child} {q : Path} {t : Tracker} {w : Visit}
    (h : w ∈ Tree.visitsAll p s t (cs.map (Child.tree q))) :
    ∃ c ∈ cs, (q.append c.steps).segments <+: w.path.segments := by
  obtain ⟨c, hc, hw⟩ := mem_visitsAll.1 h
  exact ⟨c, hc, c.node.prefix_of_mem_visits hw⟩

theorem isAbove_of_mem_visitsAll {n : Node} {q : Path} {t : Tracker} {w : Visit}
    (h : w ∈ Tree.visitsAll p s t (n.children.map (Child.tree q))) : q.IsAbove w.path := by
  obtain ⟨c, hc, hextends⟩ := exists_of_mem_visitsAll h
  exact Child.isAbove_of_mem_children hc hextends

theorem within_of_mem {n : Node} {q : Path} {t u : Tracker} {w : Visit}
    (h : w ∈ Tree.visitsAll p s t (n.children.map (Child.tree q)) ++ [Run.visitNow .leave n q u]) :
    w.Within q := by
  rcases List.mem_append.1 h with h | h
  · exact .inl (isAbove_of_mem_visitsAll h)
  · obtain rfl := List.mem_singleton.1 h
    exact .inr ⟨rfl, rfl⟩

theorem nodup_key_visitsAll {cs : List Child} (hcs : cs.Pairwise Child.Apart) {q : Path}
    {t : Tracker} (htree : ∀ c ∈ cs, (((c.tree q).visits p s t).map Visit.key).Nodup) :
    ((Tree.visitsAll p s t (cs.map (Child.tree q))).map Visit.key).Nodup := by
  induction cs with
  | nil => exact .nil
  | cons c cs ih =>
    obtain ⟨hapart, hcs⟩ := List.pairwise_cons.1 hcs
    rw [List.map_cons, Tree.visitsAll, List.map_append, List.nodup_append]
    refine ⟨htree c List.mem_cons_self, ih hcs fun d hd => htree d (List.mem_cons_of_mem _ hd), ?_⟩
    intro x hx y hy hxy
    obtain ⟨v, hv, rfl⟩ := List.mem_map.1 hx
    obtain ⟨w, hw, rfl⟩ := List.mem_map.1 hy
    obtain ⟨d, hd, hextends⟩ := exists_of_mem_visitsAll hw
    have hpath : v.path = w.path := congrArg Prod.snd hxy
    exact Child.Apart.not_prefix (hapart d hd) q.segments (c.node.prefix_of_mem_visits hv)
      hextends (hpath ▸ List.prefix_rfl)

theorem nodup_key_visits (n : Node) (q : Path) (t : Tracker) :
    (((n.tree q).visits p s t).map Visit.key).Nodup := by
  induction n using Node.childInduction generalizing q t with
  | step n ih =>
    have hbelow := nodup_key_visitsAll n.pairwise_children (q := q)
      fun c hc => ih c hc _ (t.enter p s n)
    have hinside : ∀ phase, (phase, q) ∉
        (Tree.visitsAll p s (t.enter p s n) (n.children.map (Child.tree q))).map Visit.key := by
      intro phase hmem
      obtain ⟨v, hv, hkey⟩ := List.mem_map.1 hmem
      exact (isAbove_of_mem_visitsAll hv).2 (congrArg Prod.snd hkey).symm
    rw [visits_tree, List.map_cons, List.map_append, List.map_singleton, List.nodup_cons,
      List.nodup_append]
    refine ⟨?_, hbelow, List.nodup_singleton _, ?_⟩
    · simpa [Visit.key, Run.visitNow] using hinside .enter
    · rintro x hx y hy rfl
      obtain rfl := List.mem_singleton.1 hy
      exact hinside .leave hx

end Node

namespace Tree

variable {settings : Settings} {subject : Subject}

mutual

theorem course_sublist : ∀ (t : Tree) (s : Standing) (tracker : Tracker),
    (t.course settings subject s tracker).Sublist
      (t.visits settings.provider subject.schema tracker)
  | .mk p n below, s, tracker => by
    rw [course, visits]
    split
    · exact (List.nil_sublist _).cons_cons _
    · exact ((courseAll_sublist below _ _).append_right _).cons_cons _

theorem courseAll_sublist : ∀ (ts : List Tree) (s : Standing) (tracker : Tracker),
    (courseAll settings subject s tracker ts).Sublist
      (visitsAll settings.provider subject.schema tracker ts)
  | [], _, _ => .slnil
  | t :: ts, s, tracker =>
    (course_sublist t s tracker).append (courseAll_sublist ts _ tracker)

end

end Tree

namespace Run

def passedOver (calls : List Call) : List Path :=
  (calls.filter Call.passes).map fun c => c.visit.path

theorem passedOver_append (cs ds : List Call) :
    passedOver (cs ++ ds) = passedOver cs ++ passedOver ds := by
  simp [passedOver]

variable {settings : Settings} {subject : Subject} {s : Standing}

theorem exists_of_mem_passedOver {vs : List Visit} {p : Path}
    (h : p ∈ passedOver (s.callsAlong settings subject vs)) :
    ∃ v ∈ vs, v.phase = .enter ∧ v.path = p := by
  obtain ⟨c, hc, rfl⟩ := List.mem_map.1 h
  obtain ⟨hc, hpasses⟩ := List.mem_filter.1 hc
  obtain ⟨a, -, v, hv, -, state, seen, rfl⟩ := Standing.mem_callsAlong hc
  exact ⟨v, hv, (of_decide_eq_true hpasses).1, rfl⟩

theorem passedOver_calls_of_not {v : Visit} (h : ¬ s.passes settings subject v) :
    passedOver (s.calls settings subject v) = [] := by
  rw [passedOver, List.filter_eq_nil_iff.2 fun c hc hpasses => ?_, List.map_nil]
  exact h (List.any_eq_true.2 ⟨c, hc, hpasses⟩)

theorem not_passes_of_leave {v : Visit} (h : v.phase = .leave) :
    ¬ s.passes settings subject v := by
  rw [Standing.passes, List.any_eq_true]
  rintro ⟨c, hc, hpasses⟩
  obtain ⟨a, -, -, seen, rfl⟩ := Standing.mem_calls hc
  exact absurd (h.symm.trans (of_decide_eq_true hpasses).1) (by decide)

theorem mem_passedOver_calls {v : Visit} (h : s.passes settings subject v) {p : Path} :
    p ∈ passedOver (s.calls settings subject v) ↔ p = v.path := by
  have hvisit : ∀ c ∈ s.calls settings subject v, c.visit = v := by
    intro c hc
    obtain ⟨a, -, -, seen, rfl⟩ := Standing.mem_calls hc
    rfl
  constructor
  · intro hp
    obtain ⟨c, hc, rfl⟩ := List.mem_map.1 hp
    rw [hvisit c (List.mem_of_mem_filter hc)]
  · rintro rfl
    obtain ⟨c, hc, hpasses⟩ := List.any_eq_true.1 h
    exact List.mem_map.2 ⟨c, List.mem_filter.2 ⟨hc, hpasses⟩, by rw [hvisit c hc]⟩

theorem spared_beside {cs : List Child} {d : Child} (hapart : ∀ c ∈ cs, Child.Apart c d) {q : Path}
    {vs : List Visit} (hvs : ∀ w ∈ vs, ∃ c ∈ cs, (q.append c.steps).segments <+: w.path.segments)
    {v : Visit} (hv : (q.append d.steps).segments <+: v.path.segments) :
    v.spared (passedOver (s.callsAlong settings subject vs)) := by
  refine Visit.spared_of_not_prefix fun p hp => ?_
  obtain ⟨w, hw, -, rfl⟩ := exists_of_mem_passedOver hp
  obtain ⟨c, hc, hextends⟩ := hvs w hw
  exact Child.Apart.not_prefix (hapart c hc) q.segments hextends hv

theorem courseAll_eq_filter {cs : List Child} (hcs : cs.Pairwise Child.Apart) (q : Path)
    (t : Tracker)
    (htree : ∀ c ∈ cs, ∀ s : Standing, (c.tree q).course settings subject s t =
      ((c.tree q).visits settings.provider subject.schema t).filter
        (Visit.spared (passedOver (s.callsAlong settings subject
          ((c.tree q).course settings subject s t)))))
    (s : Standing) :
    Tree.courseAll settings subject s t (cs.map (Child.tree q)) =
      (Tree.visitsAll settings.provider subject.schema t (cs.map (Child.tree q))).filter
        (Visit.spared (passedOver (s.callsAlong settings subject
          (Tree.courseAll settings subject s t (cs.map (Child.tree q)))))) := by
  induction cs generalizing s with
  | nil => rfl
  | cons c cs ih =>
    obtain ⟨hapart, hcs⟩ := List.pairwise_cons.1 hcs
    have hrest := ih hcs (fun d hd => htree d (List.mem_cons_of_mem _ hd))
      (s.after settings subject ((c.tree q).course settings subject s t))
    have hnow := htree c List.mem_cons_self s
    rw [List.map_cons, Tree.courseAll, Tree.visitsAll, Standing.callsAlong_append,
      passedOver_append, List.filter_append]
    refine congrArg₂ _ (hnow.trans (List.filter_congr fun v hv => ?_))
      (hrest.trans (List.filter_congr fun v hv => ?_))
    · have hlater : ∀ w ∈ Tree.courseAll settings subject
          (s.after settings subject ((c.tree q).course settings subject s t)) t
          (cs.map (Child.tree q)), ∃ d ∈ cs, (q.append d.steps).segments <+: w.path.segments :=
        fun w hw => Node.exists_of_mem_visitsAll ((Tree.courseAll_sublist _ _ _).subset hw)
      rw [Visit.spared_append, spared_beside (fun d hd => symm (hapart d hd)) hlater
        (c.node.prefix_of_mem_visits hv), Bool.and_true]
    · have hearlier : ∀ w ∈ (c.tree q).course settings subject s t,
          ∃ d ∈ [c], (q.append d.steps).segments <+: w.path.segments := fun w hw =>
        ⟨c, List.mem_singleton_self c,
          c.node.prefix_of_mem_visits ((Tree.course_sublist _ _ _).subset hw)⟩
      obtain ⟨d, hd, hextends⟩ := Node.exists_of_mem_visitsAll hv
      rw [Visit.spared_append, spared_beside (by simpa using hapart d hd) hearlier hextends,
        Bool.true_and]

variable (settings subject) in
/-- A run makes the visits of a tree that are not within what its calls pass over. -/
theorem course_eq_filter (n : Node) (q : Path) (t : Tracker) (s : Standing) :
    (n.tree q).course settings subject s t =
      ((n.tree q).visits settings.provider subject.schema t).filter
        (Visit.spared (passedOver (s.callsAlong settings subject
          ((n.tree q).course settings subject s t)))) := by
  induction n using Node.childInduction generalizing q t s with
  | step n ih =>
    rw [Node.visits_tree, Node.tree_eq, Tree.course]
    have hbelow := courseAll_eq_filter n.pairwise_children q
      (t.enter settings.provider subject.schema n) (fun c hc => ih c hc _ _)
      (s.next settings subject (visitNow .enter n q (t.enter settings.provider subject.schema n)))
    generalize t.enter settings.provider subject.schema n = inner at hbelow
    split
    · next hpasses =>
      have hself : q ∈ passedOver (s.calls settings subject (visitNow .enter n q inner)) :=
        (mem_passedOver_calls hpasses).2 rfl
      have hentered : (visitNow .enter n q inner).spared
          (passedOver (s.calls settings subject (visitNow .enter n q inner))) := by
        simp only [Visit.spared, List.all_eq_true, mem_passedOver_calls hpasses]
        rintro p rfl
        simp [Visit.Within, Path.IsAbove, visitNow]
      rw [Standing.callsAlong, Standing.callsAlong, List.append_nil,
        List.filter_cons_of_pos hentered,
        List.filter_eq_nil_iff.2 fun v hv => (Node.within_of_mem hv).not_spared hself]
    · next hpasses =>
      generalize Tree.courseAll settings subject
        (s.next settings subject (visitNow .enter n q inner)) inner
        (n.children.map (Child.tree q)) = below at hbelow
      have hpassed : passedOver (s.callsAlong settings subject
            (visitNow .enter n q inner :: (below ++ [visitNow .leave n q inner]))) =
          passedOver ((s.next settings subject (visitNow .enter n q inner)).callsAlong settings
            subject below) := by
        have hleave : ∀ s : Standing,
            passedOver (s.calls settings subject (visitNow .leave n q inner)) = [] :=
          fun s => passedOver_calls_of_not (not_passes_of_leave rfl)
        rw [Standing.callsAlong, Standing.callsAlong_append, passedOver_append, passedOver_append,
          passedOver_calls_of_not hpasses, Standing.callsAlong, Standing.callsAlong,
          List.append_nil, hleave, List.append_nil, List.nil_append]
      -- What is passed over is further in than `n`, and so `n` is entered and left.
      have hself : ∀ phase, (visitNow phase n q inner).spared (passedOver
          ((s.next settings subject (visitNow .enter n q inner)).callsAlong settings subject
            below)) := by
        refine fun phase => Visit.spared_of_not_prefix fun p hp hextends => ?_
        obtain ⟨w, hw, -, rfl⟩ := exists_of_mem_passedOver hp
        have habove := Node.isAbove_of_mem_visitsAll (List.mem_of_mem_filter (hbelow ▸ hw))
        exact habove.2 (congrArg Path.mk (habove.1.eq_of_length_le hextends.length_le))
      rw [hpassed, List.filter_cons_of_pos (hself .enter), List.filter_append,
        List.filter_cons_of_pos (hself .leave), List.filter_nil, ← hbelow]

def callees (rules : List Rule) (v : Visit) : List Nat :=
  let called := (rules.zipIdx.filter fun x => x.1.handlers.has v.slot).map Prod.snd
  match v.phase with
  | .enter => called
  | .leave => called.reverse

def Stand (rules : List Rule) (active : List ActiveRule) : Prop :=
  active.map (fun a => (a.rule, a.position)) = rules.zipIdx

theorem map_rule_turns (active : List ActiveRule) (v : Visit) (seen : List Diagnostic) :
    (turns settings subject v active seen).map (fun t => (t.rule.rule, t.rule.position)) =
      active.map fun a => (a.rule, a.position) := by
  induction active generalizing seen with
  | nil => rfl
  | cons a active ih =>
    rw [turns]
    split
    · rw [List.map_cons, ih]
      rfl
    · rw [List.map_cons, ih]
      rfl

theorem Stand.next {rules : List Rule} (h : Stand rules s.rules) (v : Visit) :
    Stand rules (s.next settings subject v).rules := by
  have hturns : (s.turns settings subject v).map (fun t => (t.rule.rule, t.rule.position)) =
      (v.phase.order s.rules).map fun a => (a.rule, a.position) := map_rule_turns _ v _
  rw [Stand, ← h, Standing.next, Phase.map_order, List.map_map]
  refine (congrArg v.phase.order hturns).trans ?_
  rw [Phase.map_order, Phase.order_order]

theorem map_calls_turns (active : List ActiveRule) (v : Visit) (seen : List Diagnostic) :
    ((turns settings subject v active seen).flatMap Turn.calls).map
        (fun c => (c.visit, c.rule)) =
      ((active.filter (·.rule.handlers.has v.slot)).map ActiveRule.position).map (v, ·) := by
  induction active generalizing seen with
  | nil => rfl
  | cons a active ih =>
    rw [turns, List.filter_cons]
    split
    · rw [List.flatMap_cons, List.map_append, ih]
      rfl
    · rw [List.flatMap_cons, List.map_append, ih]
      rfl

theorem Stand.calls {rules : List Rule} (h : Stand rules s.rules) (v : Visit) :
    (s.calls settings subject v).map (fun c => (c.visit, c.rule)) =
      (callees rules v).map (v, ·) := by
  have hcalled : (rules.zipIdx.filter fun x => x.1.handlers.has v.slot).map Prod.snd =
      (s.rules.filter (·.rule.handlers.has v.slot)).map ActiveRule.position := by
    rw [← h, List.filter_map, List.map_map]
    rfl
  have hcallees : callees rules v =
      v.phase.order ((s.rules.filter (·.rule.handlers.has v.slot)).map ActiveRule.position) := by
    rw [callees, hcalled]
    cases v.phase with
    | enter => rfl
    | leave => rfl
  rw [Standing.calls, Standing.turns, map_calls_turns, Phase.filter_order, Phase.map_order,
    hcallees]

theorem Stand.callsAlong {rules : List Rule} (h : Stand rules s.rules) (visits : List Visit) :
    (s.callsAlong settings subject visits).map (fun c => (c.visit, c.rule)) =
      visits.flatMap fun v => (callees rules v).map (v, ·) := by
  induction visits generalizing s with
  | nil => rfl
  | cons v vs ih =>
    rw [Standing.callsAlong, List.map_append, h.calls, ih (h.next v), List.flatMap_cons]

end Run

def Rule.leavingWith (flow : (r : Rule) → RuleContext → Visit → r.State → Flow) (r : Rule) :
    Rule :=
  { r with react := fun c visit state =>
      { r.react c visit state with
        flow := match visit.phase with
          | .enter => (r.react c visit state).flow
          | .leave => flow r c visit state } }

namespace Run

variable {settings : Settings} {subject : Subject}
  (flow : (r : Rule) → RuleContext → Visit → r.State → Flow)

def activeLeavingWith (a : ActiveRule) : ActiveRule :=
  ⟨a.position, a.rule.leavingWith flow, a.state⟩

def leavingWith (r : Run) : Run := { r with rules := r.rules.map (activeLeavingWith flow) }

def Round.leavingWith (round : Round) : Round :=
  { round with rules := round.rules.map (activeLeavingWith flow) }

end Run
end GraphQLCheck
