import GraphQLCheck.Proofs.Validation.Silent

/-!
Standard rules do not interfere with one another. Among the calls of a run those of one rule are,
in their order, the calls that the rule gets on its own (`filter_callsAlong`): no rule makes the
traversal pass over a node, and each answers out of its own state. So the diagnostics of a run are
an interleaving of those that its rules have alone.
-/
namespace GraphQLCheck

namespace ActiveRule

variable {settings : Settings} {subject : Subject} {a : ActiveRule}

theorem trace_position (p q : Nat) (r : Rule) (state : r.State) (visits : List Visit) :
    trace settings subject visits ⟨q, r, state⟩ =
      (trace settings subject visits ⟨p, r, state⟩).map fun c => { c with rule := q } := by
  induction visits generalizing state with
  | nil => rfl
  | cons v vs ih =>
    have hcalls : calls settings subject v ⟨q, r, state⟩ =
        (calls settings subject v ⟨p, r, state⟩).map fun c => { c with rule := q } := by
      rw [calls, calls]
      split
      · rfl
      · rfl
    rw [trace, trace, List.map_append, hcalls, step_eq, step_eq]
    exact congrArg _ (ih _)

end ActiveRule

namespace Run

variable {settings : Settings} {subject : Subject} {a : ActiveRule} {before after : List ActiveRule}

theorem filter_flatMap_calls (h : ∀ b ∈ before ++ after, b.position ≠ a.position) (visit : Visit) :
    ((before ++ a :: after).flatMap (·.calls settings subject visit)).filter
        (·.rule == a.position) = a.calls settings subject visit := by
  have hothers : ∀ bs : List ActiveRule, (∀ b ∈ bs, b.position ≠ a.position) →
      (bs.flatMap (·.calls settings subject visit)).filter (·.rule == a.position) = [] := by
    intro bs hbs
    refine List.filter_eq_nil_iff.2 fun c hc heq => ?_
    obtain ⟨b, hb, hc⟩ := List.mem_flatMap.1 hc
    exact hbs b hb ((ActiveRule.rule_of_mem_calls hc).symm.trans (beq_iff_eq.1 heq))
  have hself : (a.calls settings subject visit).filter (·.rule == a.position) =
      a.calls settings subject visit :=
    List.filter_eq_self.2 fun c hc => beq_iff_eq.2 (ActiveRule.rule_of_mem_calls hc)
  rw [List.flatMap_append, List.flatMap_cons, List.filter_append, List.filter_append, hself,
    hothers before fun b hb => h b (List.mem_append_left _ hb),
    hothers after fun b hb => h b (List.mem_append_right _ hb)]
  simp

theorem filter_callsAt (h : ∀ b ∈ before ++ after, b.position ≠ a.position) (visit : Visit) :
    (callsAt settings subject (before ++ a :: after) visit).filter (·.rule == a.position) =
      a.calls settings subject visit := by
  rw [callsAt]
  cases visit.phase with
  | enter => exact filter_flatMap_calls h visit
  | leave =>
    have hreverse : (before ++ a :: after).reverse = after.reverse ++ a :: before.reverse := by simp
    have hothers : ∀ b ∈ after.reverse ++ before.reverse, b.position ≠ a.position := by
      intro b hb
      refine h b ?_
      rw [← List.reverse_append] at hb
      exact List.mem_reverse.1 hb
    rw [Phase.order, hreverse, filter_flatMap_calls hothers]

theorem filter_callsAlong (h : ∀ b ∈ before ++ after, b.position ≠ a.position)
    (visits : List Visit) :
    (callsAlong settings subject (before ++ a :: after) visits).filter (·.rule == a.position) =
      a.trace settings subject visits := by
  induction visits generalizing before after a with
  | nil => rfl
  | cons v vs ih =>
    have hstep : ∀ b ∈ before.map (·.step settings subject v) ++
          after.map (·.step settings subject v),
        b.position ≠ (a.step settings subject v).position := by
      intro b hb
      rw [← List.map_append] at hb
      obtain ⟨e, he, rfl⟩ := List.mem_map.1 hb
      rw [ActiveRule.position_step, ActiveRule.position_step]
      exact h e he
    have hrest := ih hstep
    rw [ActiveRule.position_step] at hrest
    rw [callsAlong, List.filter_append, filter_callsAt h, List.map_append, List.map_cons, hrest,
      ActiveRule.trace]

theorem positions_start (rules : List Rule) :
    (start rules).rules.map ActiveRule.position = List.range rules.length := by
  refine List.ext_getElem (by simp [start]) fun i hi hrange => ?_
  simp [start]

theorem filter_callsAlong_start {rules : List Rule} {i : Nat} {r : Rule} (hr : rules[i]? = some r)
    (visits : List Visit) :
    (callsAlong settings subject (start rules).rules visits).filter (·.rule == i) =
      ActiveRule.trace settings subject visits ⟨i, r, r.start⟩ := by
  have hmem : (⟨i, r, r.start⟩ : ActiveRule) ∈ (start rules).rules := by
    obtain ⟨hi, rfl⟩ := List.getElem?_eq_some_iff.1 hr
    exact List.mem_mapIdx.2 ⟨i, hi, rfl⟩
  obtain ⟨before, after, hsplit⟩ := List.append_of_mem hmem
  have hnodup : ((start rules).rules.map ActiveRule.position).Nodup := by
    rw [positions_start]
    exact List.nodup_range
  rw [hsplit, List.map_append, List.map_cons, List.perm_middle.nodup_iff, List.nodup_cons,
    ← List.map_append] at hnodup
  rw [hsplit]
  exact filter_callsAlong (fun b hb heq => hnodup.1 (heq ▸ List.mem_map_of_mem hb)) visits

def tagged (r : Run) : List (Nat × Diagnostic) :=
  r.trace.flatMap fun c => c.reports.map (c.rule, ·)

theorem map_snd_tagged (r : Run) : r.tagged.map Prod.snd = r.trace.flatMap Call.reports := by
  simp [tagged, List.map_flatMap, Function.comp_def]

def reportsOf (r : Run) (i : Nat) : List Diagnostic := (r.tagged.filter (·.1 == i)).map Prod.snd

theorem reportsOf_eq (r : Run) (i : Nat) :
    r.reportsOf i = (r.trace.filter (·.rule == i)).flatMap Call.reports := by
  rw [reportsOf, tagged]
  induction r.trace with
  | nil => rfl
  | cons c cs ih =>
    rw [List.flatMap_cons, List.filter_append, List.map_append, ih, List.filter_map]
    by_cases hc : c.rule = i
    · simp [hc, Function.comp_def]
    · simp [hc, Function.comp_def]

variable (settings subject) in
def unlimited (rules : List StandardRule) : Run :=
  ofDocument (settings.upTo none) subject (rules.map StandardRule.rule)

theorem trace_unlimited (rules : List StandardRule) :
    (unlimited settings subject rules).trace =
      callsAlong settings subject (start (rules.map StandardRule.rule)).rules
        (allVisits settings.provider subject) :=
  trace_full (fun _ => StandardRule.continues_of_mem) fun _ => StandardRule.blind_of_mem

theorem rule_lt_of_mem_trace {rules : List StandardRule} {c : Call}
    (h : c ∈ (unlimited settings subject rules).trace) : c.rule < rules.length := by
  obtain ⟨r, hr, -⟩ := answer_of_mem_trace (told_ofDocument settings subject _).going h
  have hlt := (List.getElem?_eq_some_iff.1 hr).1
  rwa [List.length_map] at hlt

/-- A rule makes in a run with others the calls that it makes alone. -/
theorem filter_trace {rules : List StandardRule} {i : Nat} {r : StandardRule}
    (hr : rules[i]? = some r) :
    (unlimited settings subject rules).trace.filter (·.rule == i) =
      (unlimited settings subject [r]).trace.map fun c => { c with rule := i } := by
  have hrule : (rules.map StandardRule.rule)[i]? = some r.rule := by simp [hr]
  rw [trace_unlimited, trace_unlimited, filter_callsAlong_start hrule,
    ActiveRule.trace_position 0 i, ← callsAlong_singleton]
  rfl

theorem reportsOf_alone {rules : List StandardRule} {i : Nat} {r : StandardRule}
    (hr : rules[i]? = some r) :
    (unlimited settings subject [r]).findings.diagnostics =
      (unlimited settings subject rules).reportsOf i := by
  rw [reportsOf_eq, filter_trace hr, List.flatMap_map]
  exact (told_ofDocument settings subject _).diagnostics

theorem failure_alone {rules : List StandardRule} {i : Nat} {r : StandardRule}
    (hr : rules[i]? = some r) :
    (unlimited settings subject [r]).failure? =
      ((unlimited settings subject rules).trace.filter (·.rule == i)).findSome? Call.failure := by
  rw [filter_trace hr, List.findSome?_map]
  rfl

theorem result_eq_error {r : Run} {message : String} :
    r.result = .error message ↔ r.failure? = some message := by
  rw [result]
  cases r.failure? with
  | none => simp
  | some other => simp

/-- A run of standard rules without limit reports, for each position, the result of the rule at
that position alone, in its order, and nothing else. If the run fails, one of its rules fails alone
and in the same way. -/
theorem rules_interleave (settings : Settings) (subject : Subject) (rules : List StandardRule) :
    match (unlimited settings subject rules).result with
    | .ok E =>
      E = (unlimited settings subject rules).tagged.map Prod.snd ∧
      (∀ x ∈ (unlimited settings subject rules).tagged, x.1 < rules.length) ∧
      ∀ i : Fin rules.length, (unlimited settings subject [rules[i]]).result =
        .ok ((unlimited settings subject rules).reportsOf i)
    | .error message => ∃ r ∈ rules, (unlimited settings subject [r]).result = .error message := by
  cases hresult : (unlimited settings subject rules).result with
  | ok E =>
    obtain ⟨hfailure, rfl⟩ := result_eq_ok.1 hresult
    refine ⟨?_, fun x hx => ?_, fun i => ?_⟩
    · rw [map_snd_tagged]
      exact (told_ofDocument settings subject _).diagnostics
    · obtain ⟨c, hc, hx⟩ := List.mem_flatMap.1 hx
      obtain ⟨y, -, rfl⟩ := List.mem_map.1 hx
      exact rule_lt_of_mem_trace hc
    · have hr : rules[i.val]? = some rules[i] := List.getElem?_eq_getElem i.isLt
      have hnone : (unlimited settings subject [rules[i]]).failure? = none := by
        rw [failure_alone hr, List.findSome?_eq_none_iff]
        exact fun c hc => hfailure c (List.mem_filter.1 hc).1
      exact result_eq_ok.2 ⟨List.findSome?_eq_none_iff.1 hnone, reportsOf_alone hr⟩
  | error message =>
    obtain ⟨earlier, c, later, htrace, hmessage, hearlier⟩ :=
      List.findSome?_eq_some_iff.1 (result_eq_error.1 hresult)
    have hc : c ∈ (unlimited settings subject rules).trace := by
      rw [htrace]
      exact List.mem_append_right _ List.mem_cons_self
    have hlt := rule_lt_of_mem_trace hc
    have hr : rules[c.rule]? = some rules[c.rule] := List.getElem?_eq_getElem hlt
    refine ⟨rules[c.rule], List.getElem_mem hlt, result_eq_error.2 ?_⟩
    -- The first failure of the run is the first one of that rule.
    rw [failure_alone hr, htrace, List.filter_append, List.filter_cons_of_pos (by simp)]
    refine List.findSome?_eq_some_iff.2 ⟨_, c, _, rfl, hmessage, fun x hx => ?_⟩
    exact hearlier x (List.mem_filter.1 hx).1

end Run
end GraphQLCheck
