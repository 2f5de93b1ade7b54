import GraphQLCheck.Proofs.Rules.ValueSkips
import GraphQLCheck.Proofs.Rules.Values

/-!
What a rule that passes over nodes takes away from the standard rules. All of them but
`Rules.valuesOfCorrectType` make the calls that they make without it, with the same reports and in
the same order, except within these nodes. `Rules.valuesOfCorrectType` does so too if what is passed
over is harmless (`skipping_local`). Otherwise it may wait for a literal to be left that never is,
and says nothing about any value after it (`skipping_not_local`), or gives a `null` the place of an
object field that was not left either.
-/
namespace GraphQLCheck

def Rule.Quiet (r : Rule) : Prop :=
  ∀ (c : RuleContext) visit state, (r.react c visit state).reports = []

theorem Rules.unmoved_valuesOfCorrectType {settings : Settings} {subject : Subject}
    {passed : List Path}
    (h : Harmless subject.schema passed (Run.allVisits settings.provider subject)) :
    valuesOfCorrectType.Unmoved subject passed (Run.allVisits settings.provider subject)
      valuesOfCorrectType.start valuesOfCorrectType.start :=
  (ValueCheck.kept_tree (.document subject.document) h rfl (ValueCheck.elsewhere_of_none rfl)
    fun _ => rfl).1

namespace Run

variable {settings : Settings} {subject : Subject}

theorem reports_of_quiet {rules : List Rule} {r : Rule} (hquiet : r.Quiet)
    (hgoing : (ofDocument settings subject rules).findings.aborted = false) {c : Call}
    (hc : c ∈ (ofDocument settings subject rules).trace) (hr : rules[c.rule]? = some r) :
    c.reports = [] := by
  obtain ⟨x, hx, -, -, state, seen, hanswer⟩ := answer_of_mem_trace hgoing hc
  obtain rfl := Option.some.inj (hx.symm.trans hr)
  rw [hanswer, reports_answer, hquiet ⟨subject, seen⟩ c.visit state]
  simp

theorem reports_callsBeside {k : Nat} {calls : List Call}
    (h : ∀ c ∈ calls, c.rule = k → c.reports = []) :
    (callsBeside k calls).flatMap Call.reports = calls.flatMap Call.reports := by
  rw [callsBeside, List.flatMap_map]
  induction calls with
  | nil => rfl
  | cons c cs ih =>
    have hcs := ih fun d hd => h d (List.mem_cons_of_mem _ hd)
    by_cases hc : c.rule = k
    · rw [List.filter_cons_of_neg (by simpa using hc), hcs, List.flatMap_cons,
        h c List.mem_cons_self hc, List.nil_append]
    · rw [List.filter_cons_of_pos (by simpa using hc), List.flatMap_cons, List.flatMap_cons, hcs]

/-- A rule between the standard ones takes from them the calls within the nodes that it passes over
and nothing else, from `valuesOfCorrectType` if that is harmless. If the rule reports nothing, the
diagnostics of the run are then those of the calls that are left. -/
theorem skipping_local (settings : Settings) (subject : Subject) (before : List StandardRule)
    (r : Rule) (after : List StandardRule) :
    let run := ofDocument (settings.upTo none) subject (joined before r after)
    let passed := passedBy settings subject before r after
    let spared := (unlimited settings subject (before ++ after)).trace.filter
      (·.visit.spared passed)
    let others := fun c : Call => (before ++ after)[c.rule]?.any (· ≠ .valuesOfCorrectType)
    (callsBeside before.length run.trace).filter others = spared.filter others ∧
    (Rules.Harmless subject.schema passed (allVisits settings.provider subject) →
      callsBeside before.length run.trace = spared ∧
      (r.Quiet → run.findings.diagnostics = spared.flatMap Call.reports)) := by
  intro run passed spared others
  have hunmoved : ∀ x : StandardRule, x ≠ .valuesOfCorrectType → x.rule.Unmoved subject passed
      (allVisits settings.provider subject) x.rule.start x.rule.start :=
    fun _ hx => (StandardRule.shallow hx).unmoved settings subject passed _
  refine ⟨callsBeside_trace settings subject before r after
    (fun i => (before ++ after)[i]?.any (· ≠ .valuesOfCorrectType))
    fun i x hx hother => hunmoved x (by simpa [hx] using hother), fun hharmless => ?_⟩
  -- With every rule kept nothing is filtered out.
  have hcalls : callsBeside before.length run.trace = spared := by
    have hkept := callsBeside_trace settings subject before r after (fun _ => true)
      fun _ x _ _ => ?_
    · rwa [List.filter_true, List.filter_true] at hkept
    · by_cases hvalues : x = .valuesOfCorrectType
      · rw [hvalues]
        exact Rules.unmoved_valuesOfCorrectType hharmless
      · exact hunmoved x hvalues
  refine ⟨hcalls, fun hquiet => ?_⟩
  have htold := told_ofDocument settings subject (joined before r after)
  rw [htold.diagnostics, ← hcalls, reports_callsBeside fun c hc hk => ?_]
  exact reports_of_quiet hquiet htold.going hc (hk ▸ getElem?_joined before r after)

def passing (classes : List NodeClass) (pick : Visit → Bool) : Rule where
  State := Unit
  start := ()
  handlers := .entering classes
  react _ visit _ := ⟨(), [], if pick visit then .skip else .next, none⟩

theorem quiet_passing (classes : List NodeClass) (pick : Visit → Bool) :
    (passing classes pick).Quiet := fun _ _ _ => rfl

def twoLiterals : Subject where
  schema := Rules.oneFieldSchema
  document := ⟨[.operation ⟨.query, none, [], [],
    [.field ⟨none, "f", [⟨"a", .list [.int "1" (some ⟨1, 9⟩)] (some ⟨1, 8⟩), some ⟨1, 5⟩⟩], [], [],
        some ⟨1, 3⟩⟩,
      .field ⟨some "g", "f", [⟨"a", .string "x" (some ⟨1, 21⟩), some ⟨1, 18⟩⟩], [], [],
        some ⟨1, 13⟩⟩], some ⟨1, 1⟩⟩], 26⟩

theorem skipping_local_twoLiterals :
    let r := passing [.field] fun v => v.node matches .field ⟨some _, _, _, _, _, _⟩
    let run := ofDocument (Settings.standard.upTo none) twoLiterals (joined StandardRule.all r [])
    let base := unlimited .standard twoLiterals StandardRule.all
    let passed := passedBy .standard twoLiterals StandardRule.all r []
    Rules.Harmless twoLiterals.schema passed (allVisits .standard twoLiterals) ∧ r.Quiet ∧
    run.findings.diagnostics =
      (base.trace.filter (·.visit.spared passed)).flatMap Call.reports ∧
    run.findings.diagnostics.map Diagnostic.locations = [some [⟨1, 8⟩]] ∧
    base.findings.diagnostics.map Diagnostic.locations = [some [⟨1, 8⟩], some [⟨1, 21⟩]] := by
  intro r run base passed
  have hharmless : Rules.Harmless twoLiterals.schema passed (allVisits .standard twoLiterals) :=
    Rules.harmless_of_handlers (by decide) (by decide)
  have hquiet : r.Quiet := quiet_passing _ _
  have hlocal := skipping_local .standard twoLiterals StandardRule.all r []
  rw [List.append_nil] at hlocal
  exact ⟨hharmless, hquiet, (hlocal.2 hharmless).2 hquiet, by decide +kernel, by decide +kernel⟩

/-- A list that is no list of the schema is ignored until it is left, and that never happens to one
that is passed over: nothing that comes after it is checked. -/
theorem skipping_not_local :
    ¬ ∀ (settings : Settings) (subject : Subject) (classes : List NodeClass) (pick : Visit → Bool),
      subject.schema.Loaded →
      let r := passing classes pick
      (ofDocument (settings.upTo none) subject
          (joined StandardRule.all r [])).findings.diagnostics =
        ((unlimited settings subject StandardRule.all).trace.filter
          (·.visit.spared (passedBy settings subject StandardRule.all r []))).flatMap
            Call.reports := by
  intro h
  have hlost := h .standard twoLiterals [.value] (·.node.isList) Rules.loaded_oneField
  exact absurd hlost (by decide +kernel)

end Run
end GraphQLCheck
