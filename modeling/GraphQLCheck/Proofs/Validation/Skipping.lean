import GraphQLCheck.Proofs.Validation.Dispatch
import GraphQLCheck.Proofs.Validation.Interleaving
import GraphQLCheck.Proofs.Validation.Outline

/-!
What a rule loses when nodes are passed over. It is `Unmoved` if it answers the visits that are
left as it would answer them had it seen all visits. A rule that changes its state only where the
document or a definition is entered is unmoved whatever is passed over (`Shallow.unmoved`), and
rules that are unmoved make in a run beside a rule that passes over nodes the calls that they make
without it, but for those within these nodes (`callsBeside_trace`).
-/
namespace GraphQLCheck

namespace Rule

variable (r : Rule) (subject : Subject) (passed : List Path)

def Agrees (v : Visit) (full kept : r.State) : Prop :=
  r.handlers.has v.slot →
    (r.react subject v full).reports = (r.react subject v kept).reports ∧
      (r.react subject v full).failure = (r.react subject v kept).failure

/-- At the visits that are spared the rule has the same to say whether it sees all visits, from the
state `full` on, or only these, from the state `kept` on. -/
def Unmoved : List Visit → r.State → r.State → Prop
  | [], _, _ => True
  | v :: vs, full, kept =>
    if v.spared passed then
      r.Agrees subject v full kept ∧
        Unmoved vs (r.next subject v full) (r.next subject v kept)
    else Unmoved vs (r.next subject v full) kept

variable {r subject passed} {full kept : r.State}

theorem unmoved_cons {v : Visit} {vs : List Visit} (hspared : v.spared passed)
    (hagrees : r.Agrees subject v full kept)
    (h : r.Unmoved subject passed vs (r.next subject v full) (r.next subject v kept)) :
    r.Unmoved subject passed (v :: vs) full kept := by
  rw [Unmoved, if_pos hspared]
  exact ⟨hagrees, h⟩

theorem unmoved_of_hidden {vs : List Visit} (h : ∀ v ∈ vs, ¬ v.spared passed) :
    r.Unmoved subject passed vs full kept := by
  induction vs generalizing full with
  | nil => trivial
  | cons v vs ih =>
    rw [Unmoved, if_neg (h v List.mem_cons_self)]
    exact ih fun w hw => h w (List.mem_cons_of_mem _ hw)

theorem Unmoved.append {vs ws : List Visit} (hvs : r.Unmoved subject passed vs full kept)
    (hws : r.Unmoved subject passed ws (r.after subject vs full)
      (r.after subject (vs.filter (Visit.spared passed)) kept)) :
    r.Unmoved subject passed (vs ++ ws) full kept := by
  induction vs generalizing full kept with
  | nil => exact hws
  | cons v vs ih =>
    rw [List.cons_append, Unmoved]
    rw [Unmoved] at hvs
    rw [List.filter_cons] at hws
    split at hvs
    · next hspared =>
      rw [if_pos hspared] at hws ⊢
      exact ⟨hvs.1, ih hvs.2 hws⟩
    · next hspared =>
      rw [if_neg hspared] at hws ⊢
      exact ih hvs hws

theorem unmoved_self {vs : List Visit} (state : r.State)
    (h : ∀ v ∈ vs, ¬ v.spared passed → ∀ state, r.next subject v state = state) :
    r.Unmoved subject passed vs state state := by
  induction vs generalizing state with
  | nil => trivial
  | cons v vs ih =>
    have hrest := fun state => ih state fun w hw => h w (List.mem_cons_of_mem _ hw)
    rw [Unmoved]
    split
    · exact ⟨fun _ => ⟨rfl, rfl⟩, hrest _⟩
    · next hspared =>
      rw [h v List.mem_cons_self hspared]
      exact hrest state

end Rule

namespace Run

variable {settings : Settings} {subject : Subject} {passed : List Path}

theorem calls_of_agrees {p : Nat} {r : Rule} (hr : r.Continues) {v : Visit} {full kept : r.State}
    (h : r.Agrees subject v full kept) :
    ActiveRule.calls settings subject v ⟨p, r, full⟩ =
      ActiveRule.calls settings subject v ⟨p, r, kept⟩ := by
  rw [ActiveRule.calls, ActiveRule.calls]
  split
  · next hhas =>
    obtain ⟨hreports, hfailure⟩ := h hhas
    simp only [answer, respond, Call.attached, hreports, hfailure, hr subject v]
  · rfl

theorem callsAt_congr {active : List ActiveRule} {v : Visit} {f g : ActiveRule → ActiveRule}
    (h : ∀ a ∈ active, (f a).calls settings subject v = (g a).calls settings subject v) :
    callsAt settings subject (active.map f) v = callsAt settings subject (active.map g) v := by
  rw [callsAt, callsAt, ← Phase.map_order, ← Phase.map_order, List.flatMap_map, List.flatMap_map]
  exact List.flatMap_congr fun a ha => h a ((Phase.mem_order _).1 ha)

theorem filter_spared_callsAt (active : List ActiveRule) (v : Visit) :
    (callsAt settings subject active v).filter (·.visit.spared passed) =
      if v.spared passed then callsAt settings subject active v else [] := by
  have hvisit : ∀ c ∈ callsAt settings subject active v, c.visit = v := by
    intro c hc
    obtain ⟨a, -, -, rfl⟩ := mem_callsAt.1 hc
    rfl
  split
  · next hspared => exact List.filter_eq_self.2 fun c hc => by rwa [hvisit c hc]
  · next hspared => exact List.filter_eq_nil_iff.2 fun c hc => by rwa [hvisit c hc]

variable (settings) in
/-- Rules that are unmoved make the calls at the visits that are spared, and no others. -/
theorem callsAlong_filter {active : List ActiveRule} (hactive : Continue active)
    (before : List Visit) {visits : List Visit}
    (h : ∀ a ∈ active, a.rule.Unmoved subject passed visits (a.rule.after subject before a.state)
      (a.rule.after subject (before.filter (Visit.spared passed)) a.state)) :
    callsAlong settings subject
        (active.map (·.after settings subject (before.filter (Visit.spared passed))))
        (visits.filter (Visit.spared passed)) =
      (callsAlong settings subject (active.map (·.after settings subject before)) visits).filter
        (·.visit.spared passed) := by
  induction visits generalizing before with
  | nil => rfl
  | cons v vs ih =>
    have hstep : ∀ ws : List Visit, (active.map (·.after settings subject ws)).map
        (·.step settings subject v) = active.map (·.after settings subject (ws ++ [v])) := by
      intro ws
      rw [List.map_map]
      exact List.map_congr_left fun a _ => (ActiveRule.after_append ws [v] a).symm
    have hconcat : ∀ (r : Rule) (ws : List Visit) (state : r.State),
        r.next subject v (r.after subject ws state) = r.after subject (ws ++ [v]) state := by
      intro r ws state
      rw [Rule.after, Rule.after, List.foldl_concat]
    simp only [Rule.Unmoved, hconcat] at h
    have hrest := ih (before ++ [v])
    rw [callsAlong, List.filter_append, filter_spared_callsAt, hstep]
    by_cases hspared : v.spared passed
    · have hkept : (before ++ [v]).filter (Visit.spared passed) =
          before.filter (Visit.spared passed) ++ [v] := by
        rw [List.filter_append, List.filter_cons_of_pos hspared, List.filter_nil]
      simp only [if_pos hspared] at h ⊢
      rw [hkept] at hrest
      rw [← hrest fun a ha => (h a ha).2, List.filter_cons_of_pos hspared, callsAlong, hstep]
      congr 1
      refine callsAt_congr fun a ha => ?_
      rw [ActiveRule.after_eq, ActiveRule.after_eq]
      exact (calls_of_agrees (hactive a ha) (h a ha).1).symm
    · have hkept : (before ++ [v]).filter (Visit.spared passed) =
          before.filter (Visit.spared passed) := by
        rw [List.filter_append, List.filter_cons_of_neg hspared, List.filter_nil, List.append_nil]
      simp only [if_neg hspared] at h ⊢
      rw [hkept] at hrest
      rw [← hrest h, List.filter_cons_of_neg hspared, List.nil_append]

theorem filter_rule_flatMap_calls (keep : Nat → Bool) (active : List ActiveRule) (v : Visit) :
    (active.flatMap (·.calls settings subject v)).filter (keep ·.rule) =
      (active.filter (keep ·.position)).flatMap (·.calls settings subject v) := by
  induction active with
  | nil => rfl
  | cons a active ih =>
    rw [List.flatMap_cons, List.filter_append, ih, List.filter_cons]
    split
    · next hkeep =>
      rw [List.flatMap_cons, List.filter_eq_self.2 fun c hc => by
        rwa [ActiveRule.rule_of_mem_calls hc]]
    · next hkeep =>
      rw [List.filter_eq_nil_iff.2 fun c hc => by rwa [ActiveRule.rule_of_mem_calls hc],
        List.nil_append]

theorem filter_rule_callsAlong (keep : Nat → Bool) (active : List ActiveRule)
    (visits : List Visit) :
    (callsAlong settings subject active visits).filter (keep ·.rule) =
      callsAlong settings subject (active.filter (keep ·.position)) visits := by
  induction visits generalizing active with
  | nil => rfl
  | cons v vs ih =>
    have hat : (callsAt settings subject active v).filter (keep ·.rule) =
        callsAt settings subject (active.filter (keep ·.position)) v := by
      rw [callsAt, callsAt, filter_rule_flatMap_calls, Phase.filter_order]
    have hstep : (active.map (·.step settings subject v)).filter (keep ·.position) =
        (active.filter (keep ·.position)).map (·.step settings subject v) := by
      rw [List.filter_map]
      congr 2
      funext a
      rw [Function.comp_apply, ActiveRule.position_step]
    rw [callsAlong, List.filter_append, hat, ih, hstep, callsAlong]

def moved (f : Nat → Nat) (a : ActiveRule) : ActiveRule := { a with position := f a.position }

theorem callsAlong_moved (f : Nat → Nat) (active : List ActiveRule) (visits : List Visit) :
    callsAlong settings subject (active.map (moved f)) visits =
      (callsAlong settings subject active visits).map fun c => { c with rule := f c.rule } := by
  have hcalls : ∀ (v : Visit) (as : List ActiveRule),
      (as.map (moved f)).flatMap (·.calls settings subject v) =
        (as.flatMap (·.calls settings subject v)).map fun c => { c with rule := f c.rule } := by
    intro v as
    rw [List.flatMap_map, List.map_flatMap]
    refine List.flatMap_congr fun a _ => ?_
    have hhandlers : (moved f a).rule.handlers = a.rule.handlers := rfl
    rw [ActiveRule.calls, ActiveRule.calls, hhandlers]
    split
    · rfl
    · rfl
  induction visits generalizing active with
  | nil => rfl
  | cons v vs ih =>
    have hat : callsAt settings subject (active.map (moved f)) v =
        (callsAt settings subject active v).map fun c => { c with rule := f c.rule } := by
      rw [callsAt, callsAt, ← Phase.map_order, hcalls]
    have hstep : (active.map (moved f)).map (·.step settings subject v) =
        (active.map (·.step settings subject v)).map (moved f) := by
      rw [List.map_map, List.map_map]
      refine List.map_congr_left fun a _ => ?_
      rw [Function.comp_apply, Function.comp_apply, ActiveRule.step_eq, ActiveRule.step_eq]
      rfl
    rw [callsAlong, hat, hstep, ih, callsAlong, List.map_append]

def without (k i : Nat) : Nat := if i < k then i else i - 1

/-- The calls of the other rules than the one at `k`, at the positions that they have without it. -/
def callsBeside (k : Nat) (calls : List Call) : List Call :=
  (calls.filter (·.rule ≠ k)).map fun c => { c with rule := without k c.rule }

theorem start_without (before after : List Rule) (r : Rule) :
    ((start (before ++ r :: after)).rules.filter (·.position ≠ before.length)).map
        (moved (without before.length)) =
      (start (before ++ after)).rules := by
  have hbefore : (before.mapIdx fun i r => (⟨i, r, r.start⟩ : ActiveRule)).filter
      (·.position ≠ before.length) = before.mapIdx fun i r => ⟨i, r, r.start⟩ := by
    refine List.filter_eq_self.2 fun a ha => ?_
    obtain ⟨i, hi, rfl⟩ := List.mem_mapIdx.1 ha
    simpa using Nat.ne_of_lt hi
  have hafter : (after.mapIdx fun i r =>
        (⟨i + 1 + before.length, r, r.start⟩ : ActiveRule)).filter (·.position ≠ before.length) =
      after.mapIdx fun i r => ⟨i + 1 + before.length, r, r.start⟩ := by
    refine List.filter_eq_self.2 fun a ha => ?_
    obtain ⟨i, hi, rfl⟩ := List.mem_mapIdx.1 ha
    simp
  simp only [start, List.mapIdx_append, List.mapIdx_cons, List.filter_append, hbefore]
  rw [List.filter_cons_of_neg (by simp), hafter, List.map_append]
  refine congrArg₂ _ ?_ ?_
  · refine List.ext_getElem (by simp) fun i hi _ => ?_
    have hlt : i < before.length := by simpa using hi
    rw [List.getElem_map, List.getElem_mapIdx]
    exact congrArg (ActiveRule.mk · before[i] before[i].start) (if_pos hlt)
  · refine List.ext_getElem (by simp) fun i hi _ => ?_
    have hlt : i < after.length := by simpa using hi
    have hposition : without before.length (i + 1 + before.length) = i + before.length := by
      rw [without, if_neg (by omega)]
      omega
    rw [List.getElem_map, List.getElem_mapIdx, List.getElem_mapIdx]
    exact congrArg (ActiveRule.mk · after[i] after[i].start) hposition

theorem mem_beside {before after : List Rule} {r x : Rule} {i : Nat}
    (h : (before ++ r :: after)[i]? = some x) (hi : i ≠ before.length) : x ∈ before ++ after := by
  rw [List.getElem?_append] at h
  split at h
  · exact List.mem_append_left _ (List.mem_of_getElem? h)
  · next hle =>
    obtain ⟨j, hj⟩ : ∃ j, i - before.length = j + 1 := ⟨i - before.length - 1, by omega⟩
    rw [hj, List.getElem?_cons_succ] at h
    exact List.mem_append_right _ (List.mem_of_getElem? h)

theorem callsBeside_callsAlong {before after : List Rule}
    (hblind : ∀ x ∈ before ++ after, x.Blind) (r : Rule) (visits : List Visit) :
    callsBeside before.length ((start (before ++ r :: after)).standing.callsAlong settings subject
        visits) =
      callsAlong settings subject (start (before ++ after)).rules visits := by
  have hkept := @Standing.filter_callsAlong settings subject
    (start (before ++ r :: after)).standing (· ≠ before.length)
    (fun a ha hkeep => hblind a.rule
      (mem_beside (inPlaces_start _ a ha) (of_decide_eq_true hkeep))) visits
  rw [callsBeside, ← start_without before after r, callsAlong_moved]
  exact congrArg _ hkept

end Run

/-- The state changes only where the document or a definition is entered. -/
def Rule.Shallow (r : Rule) : Prop :=
  ∀ subject visit state, (visit.phase = .enter → 2 ≤ visit.node.level) →
    (r.react subject visit state).state = state

namespace Rules

theorem shallow_uniqueOperationNames : uniqueOperationNames.Shallow := by
  rintro subject ⟨phase, node, path, frame, depth⟩ known hdeep
  cases phase with
  | enter =>
    cases node with
    | operation o => exact absurd (hdeep rfl) (by decide : ¬ 2 ≤ 1)
    | _ => rfl
  | leave => rfl

theorem shallow_loneAnonymousOperation : loneAnonymousOperation.Shallow := by
  rintro subject ⟨phase, node, path, frame, depth⟩ count hdeep
  cases phase with
  | enter =>
    cases node with
    | document d => exact absurd (hdeep rfl) (by decide : ¬ 2 ≤ 0)
    | _ => rfl
  | leave => rfl

theorem shallow_uniqueFragmentNames : uniqueFragmentNames.Shallow := by
  rintro subject ⟨phase, node, path, frame, depth⟩ known hdeep
  cases phase with
  | enter =>
    cases node with
    | fragment f => exact absurd (hdeep rfl) (by decide : ¬ 2 ≤ 1)
    | _ => rfl
  | leave => rfl

theorem shallow_noUnusedFragments : noUnusedFragments.Shallow := by
  rintro subject ⟨phase, node, path, frame, depth⟩ entered hdeep
  cases phase with
  | enter =>
    cases node with
    | operation o => exact absurd (hdeep rfl) (by decide : ¬ 2 ≤ 1)
    | fragment f => exact absurd (hdeep rfl) (by decide : ¬ 2 ≤ 1)
    | _ => rfl
  | leave => cases node <;> rfl

theorem shallow_noFragmentCycles : noFragmentCycles.Shallow := by
  rintro subject ⟨phase, node, path, frame, depth⟩ searched hdeep
  cases phase with
  | enter =>
    cases node with
    | fragment f => exact absurd (hdeep rfl) (by decide : ¬ 2 ≤ 1)
    | _ => rfl
  | leave => rfl

end Rules

theorem StandardRule.shallow {r : StandardRule} (h : r ≠ .valuesOfCorrectType) :
    r.rule.Shallow := by
  cases r with
  | uniqueOperationNames => exact Rules.shallow_uniqueOperationNames
  | loneAnonymousOperation => exact Rules.shallow_loneAnonymousOperation
  | uniqueFragmentNames => exact Rules.shallow_uniqueFragmentNames
  | noUnusedFragments => exact Rules.shallow_noUnusedFragments
  | noFragmentCycles => exact Rules.shallow_noFragmentCycles
  | valuesOfCorrectType => exact absurd rfl h
  | _ => exact fun _ _ _ _ => rfl

namespace Node

variable {p : Provider} {s : Schema}

theorem spared_cases (passed : List Path) (n : Node) (q : Path) (t : Tracker) :
    (∀ v ∈ (n.tree q).visits p s t, ¬ v.spared passed) ∨
      (Run.visitNow .enter n q (t.enter p s n)).spared passed ∧ q ∈ passed ∨
      ∀ phase, (Run.visitNow phase n q (t.enter p s n)).spared passed := by
  by_cases habove : ∃ p' ∈ passed, p'.IsAbove q
  · obtain ⟨p', hp', hextends, hne⟩ := habove
    refine .inl fun v hv => Visit.Within.not_spared (.inl ⟨hextends.trans ?_, ?_⟩) hp'
    · exact n.prefix_of_mem_visits hv
    · rintro rfl
      have hq := n.prefix_of_mem_visits hv
      exact hne (congrArg Path.mk (hextends.eq_of_length_le hq.length_le))
  · have hspared : ∀ phase, (phase = .leave → q ∉ passed) →
        (Run.visitNow phase n q (t.enter p s n)).spared passed := by
      intro phase hleave
      simp only [Visit.spared, List.all_eq_true, decide_eq_true_eq]
      rintro p' hp' (hextends | ⟨hphase, rfl⟩)
      · exact habove ⟨p', hp', hextends⟩
      · exact hleave hphase hp'
    by_cases hq : q ∈ passed
    · exact .inr (.inl ⟨hspared .enter (by simp), hq⟩)
    · exact .inr (.inr fun phase => hspared phase fun _ => hq)

variable {passed : List Path} {n : Node} {q : Path} {t : Tracker}

theorem filter_visits_of_mem (henter : (Run.visitNow .enter n q (t.enter p s n)).spared passed)
    (hq : q ∈ passed) :
    ((n.tree q).visits p s t).filter (Visit.spared passed) =
      [Run.visitNow .enter n q (t.enter p s n)] := by
  rw [visits_tree, List.filter_cons_of_pos henter, List.filter_eq_nil_iff.2 fun v hv =>
    (within_of_mem hv).not_spared hq]

theorem filter_visits_of_spared
    (h : ∀ phase, (Run.visitNow phase n q (t.enter p s n)).spared passed) :
    ((n.tree q).visits p s t).filter (Visit.spared passed) =
      Run.visitNow .enter n q (t.enter p s n) ::
        ((Tree.visitsAll p s (t.enter p s n) (n.children.map (Child.tree q))).filter
            (Visit.spared passed)
          ++ [Run.visitNow .leave n q (t.enter p s n)]) := by
  rw [visits_tree, List.filter_cons_of_pos (h .enter), List.filter_append,
    List.filter_cons_of_pos (h .leave), List.filter_nil]

theorem length_le_of_mem_visits (d : Document) {t : Tracker} {v : Visit}
    (hv : v ∈ ((Node.document d).tree .root).visits p s t) (hlevel : v.node.level < 2) :
    v.path.segments.length ≤ 1 := by
  rcases mem_visits.1 hv with rfl | ⟨c, hc, hv⟩ | rfl
  · exact Nat.zero_le 1
  · obtain ⟨i, x, -, -, rfl⟩ := Child.mem_items hc
    rcases mem_visits.1 hv with rfl | ⟨b, hb, hv⟩ | rfl
    · exact Nat.le_refl 1
    -- What is below a definition stands further in.
    · have hchild := level_child hb
      have hbelow := b.node.level_of_mem_visits hv
      rw [level_definition] at hchild
      omega
    · exact Nat.le_refl 1
  · exact Nat.zero_le 1

end Node

theorem Rule.Shallow.unmoved {r : Rule} (h : r.Shallow) (settings : Settings) (subject : Subject)
    (passed : List Path) (state : r.State) :
    r.Unmoved subject passed (Run.allVisits settings.provider subject) state state := by
  by_cases hroot : Path.root ∈ passed
  · rw [Run.allVisits, Node.visits_tree]
    have hrest : ∀ full kept, r.Unmoved subject passed
        (Tree.visitsAll settings.provider subject.schema
          (Tracker.empty.enter settings.provider subject.schema (.document subject.document))
          ((Node.document subject.document).children.map (Child.tree .root))
          ++ [Run.visitNow .leave (.document subject.document) .root
            (Tracker.empty.enter settings.provider subject.schema (.document subject.document))])
        full kept :=
      fun _ _ => unmoved_of_hidden fun v hv => (Node.within_of_mem hv).not_spared hroot
    rw [Unmoved]
    split
    · exact ⟨fun _ => ⟨rfl, rfl⟩, hrest _ _⟩
    · exact hrest _ _
  · refine unmoved_self state fun v hv hspared state => ?_
    rw [next]
    split
    · refine h subject v state fun hphase => ?_
      by_contra hlevel
      have hlength := Node.length_le_of_mem_visits _ hv (by omega)
      refine hspared ?_
      simp only [Visit.spared, List.all_eq_true, decide_eq_true_eq]
      rintro p hp (⟨hextends, hne⟩ | ⟨hleave, -⟩)
      · have hshort : p.segments.length < v.path.segments.length := by
          refine Nat.lt_of_le_of_ne hextends.length_le fun heq => hne ?_
          exact congrArg Path.mk (hextends.eq_of_length heq)
        have hempty : p = .root :=
          congrArg Path.mk (List.length_eq_zero_iff.1 (by omega : p.segments.length = 0))
        exact hroot (hempty ▸ hp)
      · exact absurd (hphase.symm.trans hleave) (by decide)
    · rfl

namespace Run

variable (settings : Settings) (subject : Subject)

def joined (before : List StandardRule) (r : Rule) (after : List StandardRule) : List Rule :=
  before.map StandardRule.rule ++ r :: after.map StandardRule.rule

/-- The nodes that the rule between the others passes over in a run without a limit. -/
def passedBy (before : List StandardRule) (r : Rule) (after : List StandardRule) : List Path :=
  passedOver ((ofDocument (settings.upTo none) subject (joined before r after)).trace.filter
    (·.rule == before.length))

variable {settings subject}

theorem getElem?_joined (before : List StandardRule) (r : Rule) (after : List StandardRule) :
    (joined before r after)[before.length]? = some r := by
  simp [joined]

theorem standard_of_joined {before after : List StandardRule} {r x : Rule} {i : Nat}
    (hx : (joined before r after)[i]? = some x) (hi : i ≠ before.length) :
    ∃ y : StandardRule, y.rule = x := by
  rw [← List.length_map StandardRule.rule] at hi
  have hmem := mem_beside hx hi
  rw [← List.map_append] at hmem
  obtain ⟨y, -, hy⟩ := List.mem_map.1 hmem
  exact ⟨y, hy⟩

theorem passedBy_eq (before : List StandardRule) (r : Rule) (after : List StandardRule) :
    passedBy settings subject before r after =
      passedOver (ofDocument (settings.upTo none) subject (joined before r after)).trace := by
  have hgoing := (told_ofDocument settings subject (joined before r after)).going
  rw [passedBy, passedOver, passedOver, List.filter_filter]
  refine congrArg _ (List.filter_congr fun c hc => ?_)
  obtain ⟨x, hx, -, -, state, seen, hanswer⟩ := answer_of_mem_trace hgoing hc
  by_cases hself : c.rule = before.length
  · simp [hself]
  · obtain ⟨y, rfl⟩ := standard_of_joined hx hself
    have hpasses : c.passes = false := by
      rw [hanswer]
      have hflow := y.continues ⟨subject, seen⟩ c.visit state
      simp [answer, respond, Call.attached, hflow]
    simp [hpasses]

theorem course_joined (before : List StandardRule) (r : Rule) (after : List StandardRule) :
    course (settings.upTo none) subject (joined before r after) =
      (allVisits settings.provider subject).filter
        (Visit.spared (passedBy settings subject before r after)) := by
  have hgoing := (told_ofDocument settings subject (joined before r after)).going
  rw [passedBy_eq, trace_of_going hgoing]
  exact course_eq_filter (settings.upTo none) subject (.document subject.document) .root .empty _

theorem has_of_mem_passedBy {before : List StandardRule} {r : Rule} {after : List StandardRule}
    {v : Visit} (hv : v ∈ allVisits settings.provider subject) (hphase : v.phase = .enter)
    (hpassed : v.path ∈ passedBy settings subject before r after) : r.handlers.has v.slot := by
  have hgoing := (told_ofDocument settings subject (joined before r after)).going
  obtain ⟨c, hc, hpath⟩ := List.mem_map.1 hpassed
  obtain ⟨hc, hpasses⟩ := List.mem_filter.1 hc
  obtain ⟨hc, hrule⟩ := List.mem_filter.1 hc
  obtain ⟨x, hx, hcourse, hhas, state, seen, hanswer⟩ := answer_of_mem_trace hgoing hc
  rw [beq_iff_eq.1 hrule, getElem?_joined] at hx
  obtain rfl := Option.some.inj hx
  have hentered : c.visit.phase = .enter := by
    rw [hanswer] at hpasses
    exact (of_decide_eq_true hpasses).1
  rw [course_joined] at hcourse
  have hall : c.visit ∈ allVisits settings.provider subject := List.mem_of_mem_filter hcourse
  have hkey : c.visit.key = v.key := Prod.ext (hentered.trans hphase.symm) hpath
  rw [← List.inj_on_of_nodup_map (Node.nodup_key_visits _ _ _) hall hv hkey]
  exact hhas

variable (settings subject) in
/-- Rules that are unmoved make beside another rule the calls that they make without it, but for
those within nodes which that rule passes over. -/
theorem callsBeside_trace (before : List StandardRule) (r : Rule) (after : List StandardRule)
    (keep : Nat → Bool)
    (hkeep : ∀ i x, (before ++ after)[i]? = some x → keep i → x.rule.Unmoved subject
      (passedBy settings subject before r after) (allVisits settings.provider subject)
      x.rule.start x.rule.start) :
    (callsBeside before.length
        (ofDocument (settings.upTo none) subject (joined before r after)).trace).filter
          (keep ·.rule) =
      ((unlimited settings subject (before ++ after)).trace.filter
        (·.visit.spared (passedBy settings subject before r after))).filter (keep ·.rule) := by
  have hgoing := (told_ofDocument settings subject (joined before r after)).going
  have hlength : before.length = (before.map StandardRule.rule).length := by simp
  have hblind : ∀ x ∈ before.map StandardRule.rule ++ after.map StandardRule.rule, x.Blind := by
    rw [← List.map_append]
    exact fun _ => StandardRule.blind_of_mem
  rw [trace_of_going hgoing, course_joined, trace_unlimited]
  generalize passedBy settings subject before r after = passed at hkeep ⊢
  generalize allVisits settings.provider subject = visits at hkeep ⊢
  rw [joined, hlength, callsBeside_callsAlong hblind, callsAlong_upTo, ← List.map_append]
  have hunmoved : ∀ a ∈ (start ((before ++ after).map StandardRule.rule)).rules.filter
      (keep ·.position),
      a.rule.Unmoved subject passed visits (a.rule.after subject [] a.state)
        (a.rule.after subject (List.filter (Visit.spared passed) []) a.state) := by
    intro a ha
    obtain ⟨ha, hkept⟩ := List.mem_filter.1 ha
    obtain ⟨i, hi, rfl⟩ := List.mem_mapIdx.1 ha
    rw [List.length_map] at hi
    simp only
    rw [List.getElem_map]
    exact hkeep i _ (List.getElem?_eq_getElem hi) hkept
  rw [filter_rule_callsAlong, List.filter_comm, filter_rule_callsAlong]
  have hcontinue : Continue ((start ((before ++ after).map StandardRule.rule)).rules.filter
      (keep ·.position)) :=
    fun a ha => continue_start (fun _ => StandardRule.continues_of_mem) a (List.mem_of_mem_filter ha)
  have hcalls := callsAlong_filter settings hcontinue [] hunmoved
  rwa [List.filter_nil, show (fun a => ActiveRule.after settings subject [] a) = id from rfl,
    List.map_id] at hcalls

end Run
end GraphQLCheck
