import GraphQLCheck.Proofs.Schema.ScalarCheck
import GraphQLCheck.Proofs.Validation.Interleaving
import GraphQLCheck.Proofs.Validation.Paths

/-!
The check of a scalar is read in one place: where a literal is entered that is expected to be of
that scalar. Frames are the same with another check, and so is what every rule does
(`StandardRule.react_recheck`), but for what `Rules.valuesOfCorrectType` reports of such literals;
its state does not hang on what it reports, so it treats the other literals as before.
-/
namespace GraphQLCheck

section
variable (s : Schema) (name : String) (check : LiteralCheck)

/-! ### Frames -/

namespace Frame

theorem resolve?_bind_recheck {α : Type} {f : TypeDef → Option α}
    (hf : ∀ t : TypeDef, f (t.recheck name check) = f t) (t : Option TypeRef) :
    (t.bind (s.withScalarCheck name check).resolve?).bind f = (t.bind s.resolve?).bind f := by
  cases t with
  | none => rfl
  | some t =>
    simp only [Option.bind_some, Schema.resolve?_withScalarCheck]
    cases s.resolve? t with
    | none => rfl
    | some u => exact hf u

theorem conditionType_recheck (condition : Name) :
    conditionType .standard (s.withScalarCheck name check) condition =
      conditionType .standard s condition := by
  simp only [conditionType, Provider.standard, Schema.type?_withScalarCheck]
  cases s.type? condition.text with
  | none => rfl
  | some t => simp only [Option.map_some, TypeDef.isOutput_recheck, TypeDef.name_recheck]

theorem schemaField?_recheck (parent : TypeDef) (field : String) :
    Provider.schemaField? (s.withScalarCheck name check) parent field =
      Provider.schemaField? s parent field := by
  have hquery : (s.withScalarCheck name check).queryRoot = s.queryRoot :=
    Schema.root_withScalarCheck name check s .query
  have hroot : Provider.isQueryRoot (s.withScalarCheck name check) parent =
      Provider.isQueryRoot s parent := by
    cases parent with
    | object o => rw [Provider.isQueryRoot, Provider.isQueryRoot, hquery]
    | _ => rfl
  rw [Provider.schemaField?, hroot, Provider.schemaField?]

variable (top : Frame)

theorem enterSelectionSet_recheck :
    enterSelectionSet (s.withScalarCheck name check) top = enterSelectionSet s top := by
  have hcomposite : ∀ t : TypeDef,
      (if (t.recheck name check).isComposite then some (t.recheck name check) else none) =
        if t.isComposite then some t else none := by
    intro t
    rw [TypeDef.isComposite_recheck]
    cases t with
    | scalar t => rfl
    | _ => rfl
  rw [enterSelectionSet, resolve?_bind_recheck s name check hcomposite, enterSelectionSet]

theorem enter_recheck (n : Node) :
    top.enter .standard (s.withScalarCheck name check) n = top.enter .standard s n := by
  have henum : ∀ t : Option TypeRef,
      (t.bind (s.withScalarCheck name check).resolve?).bind TypeDef.enum? =
        (t.bind s.resolve?).bind TypeDef.enum? :=
    resolve?_bind_recheck s name check fun u => u.enum?_recheck
  have hinput : ∀ t : Option TypeRef,
      (t.bind (s.withScalarCheck name check).resolve?).bind TypeDef.input? =
        (t.bind s.resolve?).bind TypeDef.input? :=
    resolve?_bind_recheck s name check fun u => u.input?_recheck
  cases n with
  | operation o => simp only [enter, Schema.root_withScalarCheck]
  | fragment f => simp only [enter, conditionType_recheck]
  | variableDefinition d =>
    simp only [enter, enterVariableDefinition, Schema.type?_withScalarCheck, Option.any_map,
      TypeDef.isInput_recheck]
  | selectionSet _ => exact enterSelectionSet_recheck s name check top
  | inlineFragment i => simp only [enter, enterInlineFragment, conditionType_recheck]
  | field f => simp only [enter, enterField, Provider.standard, schemaField?_recheck]
  | directive d =>
    simp only [enter, enterDirective, Provider.standard, Schema.directive?_withScalarCheck]
  | value v =>
    cases v with
    | enum x loc => simp only [enter, enterValue, henum]
    | _ => rfl
  | objectField f => simp only [enter, enterObjectField, hinput, Provider.standard]
  | _ => rfl

end Frame

mutual

theorem Tree.visits_recheck : ∀ (t : Tree) (tracker : Tracker),
    t.visits .standard (s.withScalarCheck name check) tracker = t.visits .standard s tracker
  | .mk p n below, tracker => by
    have hinner : tracker.enter .standard (s.withScalarCheck name check) n =
        tracker.enter .standard s n := by
      rw [Tracker.enter, Frame.enter_recheck, Tracker.enter]
    rw [Tree.visits, Tree.visits, hinner, Tree.visitsAll_recheck below]

theorem Tree.visitsAll_recheck : ∀ (ts : List Tree) (tracker : Tracker),
    Tree.visitsAll .standard (s.withScalarCheck name check) tracker ts =
      Tree.visitsAll .standard s tracker ts
  | [], _ => rfl
  | t :: ts, tracker => by
    rw [Tree.visitsAll, Tree.visitsAll, Tree.visits_recheck t, Tree.visitsAll_recheck ts]

end

/-! ### Rules -/

/-- The visit enters a literal that is expected to be of the scalar, or of lists of it. -/
def Visit.expects (v : Visit) : Bool :=
  v.phase = .enter && v.node.classOf = .value && v.frame.input.any (·.name == name)

namespace Rules

theorem unknownType_recheck (n : Name) :
    unknownType (s.withScalarCheck name check) n = unknownType s n := by
  rw [unknownType, unknownType, Schema.type?_withScalarCheck, Option.isNone_map,
    Schema.typeNames_withScalarCheck]

theorem leafCondition_recheck (fragment : Option String) :
    leafCondition (s.withScalarCheck name check) fragment = leafCondition s fragment := by
  funext n
  rw [leafCondition, leafCondition, Schema.type?_withScalarCheck]
  cases s.type? n.text with
  | none => rfl
  | some t => simp only [Option.map_some, TypeDef.isComposite_recheck]

theorem candidates_recheck (parent : TypeDef) (field : String) :
    candidates (s.withScalarCheck name check) parent field = candidates s parent field := by
  have hinterfaces : countInterfaces (s.withScalarCheck name check) field =
      countInterfaces s field := by
    funext o cs
    refine congrArg (List.foldl · cs o.interfaces) ?_
    funext cs n
    rw [Schema.type?_withScalarCheck]
    cases s.type? n with
    | none => rfl
    | some t => simp only [Option.map_some, Option.bind_some, TypeDef.interface?_recheck]
  rw [candidates, candidates, Schema.possibleObjects_withScalarCheck, hinterfaces]

theorem narrowerTypes?_recheck (parent : TypeDef) (field : String) :
    narrowerTypes? (s.withScalarCheck name check) parent field =
      narrowerTypes? s parent field := by
  rw [narrowerTypes?, candidates_recheck, narrowerTypes?]

theorem misplaced_recheck (location : DirectiveLocation) :
    misplaced (s.withScalarCheck name check) location = misplaced s location := by
  funext x
  rw [misplaced, misplaced, Schema.directive?_withScalarCheck]

theorem repeatedDirectives_recheck (seen ds : List Directive) :
    repeatedDirectives (s.withScalarCheck name check) seen ds = repeatedDirectives s seen ds := by
  induction ds generalizing seen with
  | nil => rfl
  | cons x xs ih => simp only [repeatedDirectives, Schema.directive?_withScalarCheck, ih]

theorem leafProblem?_recheck {expected : TypeRef} (h : expected.name ≠ name) (v : Value) :
    leafProblem? (s.withScalarCheck name check) expected v = leafProblem? s expected v := by
  rw [leafProblem?, leafProblem?, Schema.resolve?_withScalarCheck]
  cases hfound : s.resolve? expected with
  | none => rfl
  | some t =>
    have hname : t.name ≠ name := (Schema.mem_of_type? hfound).2 ▸ h
    rw [Option.map_some, TypeDef.recheck_of_name_ne hname]

theorem leafReports_recheck {frame : Frame} (h : frame.input.any (·.name == name) = false)
    (v : Value) :
    leafReports (s.withScalarCheck name check) frame v = leafReports s frame v := by
  rw [leafReports, leafReports]
  cases hinput : frame.input with
  | none => rfl
  | some t =>
    rw [hinput, Option.any_some, beq_eq_false_iff_ne] at h
    rw [Option.bind_some, Option.bind_some, leafProblem?_recheck s name check h]

theorem inputObject?_recheck (t : Option TypeRef) :
    inputObject? (s.withScalarCheck name check) t = inputObject? s t :=
  Frame.resolve?_bind_recheck s name check TypeDef.input?_recheck t

theorem enterValueCheck_recheck (visit : Visit) (v : Value) (c : ValueCheck) :
    (enterValueCheck (s.withScalarCheck name check) visit v c).1 =
        (enterValueCheck s visit v c).1 ∧
      (visit.frame.input.any (·.name == name) = false →
        enterValueCheck (s.withScalarCheck name check) visit v c =
          enterValueCheck s visit v c) := by
  have hleaf : visit.frame.input.any (·.name == name) = false →
      leafReports (s.withScalarCheck name check) visit.frame v = leafReports s visit.frame v :=
    fun h => leafReports_recheck s name check h v
  cases v with
  | «variable» _ => exact ⟨rfl, fun _ => rfl⟩
  | null => exact ⟨rfl, fun _ => rfl⟩
  | list items loc =>
    simp only [enterValueCheck]
    split
    · exact ⟨rfl, fun _ => rfl⟩
    · exact ⟨rfl, fun h => by rw [hleaf h]⟩
  | object fields loc =>
    simp only [enterValueCheck, inputObject?_recheck]
    cases inputObject? s visit.frame.input with
    | some i => exact ⟨rfl, fun _ => rfl⟩
    | none => exact ⟨rfl, fun h => by rw [hleaf h]⟩
  | _ => exact ⟨rfl, fun h => congrArg (Prod.mk c) (hleaf h)⟩

end Rules

/-- Two reactions that differ in their reports at most, and in these only where `excused`. -/
structure Reaction.Excused {σ : Type} (excused : Prop) (x x' : Reaction σ) : Prop where
  state : x'.state = x.state
  flow : x'.flow = x.flow
  failure : x'.failure = x.failure
  reports : x'.reports = x.reports ∨ excused

theorem Reaction.excused_of_eq {σ : Type} {excused : Prop} {x x' : Reaction σ} (h : x' = x) :
    x.Excused excused x' := by
  rw [h]
  exact ⟨rfl, rfl, rfl, .inl rfl⟩

variable (d : Document) (visit : Visit)

namespace Rules

theorem react_valuesOfCorrectType_recheck (c : ValueCheck) :
    Reaction.Excused (visit.expects name) (valuesOfCorrectType.react (⟨s, d⟩ : Subject) visit c)
      (valuesOfCorrectType.react (⟨s.withScalarCheck name check, d⟩ : Subject) visit c) := by
  obtain ⟨phase, node, path, frame, depth⟩ := visit
  cases phase with
  | leave => cases node <;> exact Reaction.excused_of_eq rfl
  | enter =>
    cases node with
    | objectField f =>
      have hfield : unknownFieldReports (s.withScalarCheck name check) frame f =
          unknownFieldReports s frame f := by
        rw [unknownFieldReports, inputObject?_recheck, unknownFieldReports]
      apply Reaction.excused_of_eq
      simp only [valuesOfCorrectType, hfield]
    | value v =>
      obtain ⟨hstate, hsame⟩ := enterValueCheck_recheck s name check
        ⟨.enter, .value v, path, frame, depth⟩ v c
      by_cases hignored : c.ignored.isSome
      · apply Reaction.excused_of_eq
        simp only [valuesOfCorrectType, hignored, if_true]
      · by_cases hexpects : frame.input.any (·.name == name)
        · simp only [valuesOfCorrectType, hignored, Bool.false_eq_true, if_false]
          exact ⟨hstate, rfl, rfl, .inr (by simpa [Visit.expects, Node.classOf] using hexpects)⟩
        · apply Reaction.excused_of_eq
          simp only [valuesOfCorrectType, hsame (by simpa using hexpects)]
    | _ => exact Reaction.excused_of_eq rfl

end Rules

theorem StandardRule.react_recheck (r : StandardRule) (state : r.rule.State) :
    Reaction.Excused (r = .valuesOfCorrectType ∧ visit.expects name)
      (r.rule.react (⟨s, d⟩ : Subject) visit state)
      (r.rule.react (⟨s.withScalarCheck name check, d⟩ : Subject) visit state) := by
  cases r with
  | valuesOfCorrectType =>
    have h := Rules.react_valuesOfCorrectType_recheck s name check d visit state
    exact ⟨h.state, h.flow, h.failure, h.reports.imp_right fun hexpects => ⟨rfl, hexpects⟩⟩
  | knownTypeNames =>
    have hunknown : Rules.unknownType (s.withScalarCheck name check) = Rules.unknownType s :=
      funext (Rules.unknownType_recheck s name check)
    apply Reaction.excused_of_eq
    simp only [rule, Rules.knownTypeNames, Rule.stateless, hunknown]
  | fragmentsOnCompositeTypes =>
    apply Reaction.excused_of_eq
    simp only [rule, Rules.fragmentsOnCompositeTypes, Rule.stateless,
      Rules.leafCondition_recheck]
  | variablesAreInputTypes =>
    apply Reaction.excused_of_eq
    obtain ⟨phase, node, path, frame, depth⟩ := visit
    cases phase with
    | leave => rfl
    | enter =>
      cases node with
      | variableDefinition x =>
        simp only [rule, Rules.variablesAreInputTypes, Rule.stateless,
          Schema.type?_withScalarCheck]
        cases s.type? x.type.name.text with
        | none => rfl
        | some t => simp only [Option.map_some, TypeDef.isInput_recheck]
      | _ => rfl
  | scalarLeafs =>
    apply Reaction.excused_of_eq
    obtain ⟨phase, node, path, frame, depth⟩ := visit
    cases phase with
    | leave => rfl
    | enter =>
      cases node with
      | field f =>
        cases houtput : frame.output with
        | none => simp only [rule, Rules.scalarLeafs, Rule.stateless, houtput]
        | some output =>
          simp only [rule, Rules.scalarLeafs, Rule.stateless, houtput,
            Schema.resolve?_withScalarCheck]
          cases s.resolve? output with
          | none => rfl
          | some t => simp only [Option.map_some, TypeDef.isLeaf_recheck]
      | _ => rfl
  | fieldsOnCorrectType =>
    apply Reaction.excused_of_eq
    simp only [rule, Rules.fieldsOnCorrectType, Rules.narrowerTypes?_recheck]
  | knownDirectives =>
    apply Reaction.excused_of_eq
    simp only [rule, Rules.knownDirectives, Rule.stateless, Rules.misplaced_recheck]
  | uniqueDirectivesPerLocation =>
    apply Reaction.excused_of_eq
    simp only [rule, Rules.uniqueDirectivesPerLocation, Rule.stateless,
      Rules.repeatedDirectives_recheck]
  -- The other rules look at the document and the frame only.
  | _ => exact Reaction.excused_of_eq rfl

end

/-! ### Runs -/

def Report.checks (rules : List StandardRule) (name : String) (x : Report) : Bool :=
  rules[x.rule]? = some .valuesOfCorrectType && x.visit.expects name

structure Call.Excused (rules : List StandardRule) (name : String) (c c' : Call) : Prop where
  rule : c'.rule = c.rule
  visit : c'.visit = c.visit
  failure : c'.failure = c.failure
  reports : c'.reports = c.reports ∨
    rules[c.rule]? = some .valuesOfCorrectType ∧ c.visit.expects name

def ActiveRule.StandardAt (rules : List StandardRule) (a : ActiveRule) : Prop :=
  ∃ r state, rules[a.position]? = some r ∧ a = ⟨a.position, r.rule, state⟩

section
variable {settings : Settings} {s : Schema} {name : String} {check : LiteralCheck} {d : Document}
  {rules : List StandardRule}

theorem ActiveRule.StandardAt.step {a : ActiveRule} (h : a.StandardAt rules) (subject : Subject)
    (visit : Visit) : (a.step settings subject visit).StandardAt rules := by
  obtain ⟨r, state, hr, ha⟩ := h
  rw [ha, step_eq]
  exact ⟨r, _, hr, rfl⟩

theorem ActiveRule.StandardAt.recheck {a : ActiveRule} (h : a.StandardAt rules) (visit : Visit) :
    a.step settings ⟨s.withScalarCheck name check, d⟩ visit = a.step settings ⟨s, d⟩ visit ∧
      List.Forall₂ (Call.Excused rules name) (a.calls settings ⟨s, d⟩ visit)
        (a.calls settings ⟨s.withScalarCheck name check, d⟩ visit) := by
  obtain ⟨r, state, hr, ha⟩ := h
  have hreact := r.react_recheck s name check d visit state
  rw [ha, ActiveRule.step, ActiveRule.step, calls, calls]
  split
  · refine ⟨congrArg (ActiveRule.mk a.position r.rule) hreact.state, .cons ?_ .nil⟩
    refine ⟨rfl, rfl, hreact.failure, hreact.reports.imp (fun hreports => ?_) ?_⟩
    · rw [Run.reports_answer, Run.reports_answer, hreports]
    · rintro ⟨rfl, hexpects⟩
      exact ⟨hr, hexpects⟩
  · exact ⟨rfl, .nil⟩

namespace Run

theorem callsAt_recheck {as : List ActiveRule} (has : ∀ a ∈ as, a.StandardAt rules)
    (visit : Visit) :
    List.Forall₂ (Call.Excused rules name) (callsAt settings ⟨s, d⟩ as visit)
      (callsAt settings ⟨s.withScalarCheck name check, d⟩ as visit) := by
  have hcalls : ∀ as : List ActiveRule, (∀ a ∈ as, a.StandardAt rules) →
      List.Forall₂ (Call.Excused rules name) (as.flatMap (·.calls settings ⟨s, d⟩ visit))
        (as.flatMap (·.calls settings ⟨s.withScalarCheck name check, d⟩ visit)) := by
    intro as has
    induction as with
    | nil => exact .nil
    | cons a as ih =>
      obtain ⟨ha, hrest⟩ := List.forall_mem_cons.1 has
      rw [List.flatMap_cons, List.flatMap_cons]
      exact List.rel_append (ha.recheck visit).2 (ih hrest)
  exact hcalls _ fun a ha => has a ((Phase.mem_order _).1 ha)

theorem callsAlong_recheck {as : List ActiveRule} (has : ∀ a ∈ as, a.StandardAt rules)
    (visits : List Visit) :
    List.Forall₂ (Call.Excused rules name) (callsAlong settings ⟨s, d⟩ as visits)
      (callsAlong settings ⟨s.withScalarCheck name check, d⟩ as visits) := by
  induction visits generalizing as with
  | nil => exact .nil
  | cons v vs ih =>
    have hstep : as.map (·.step settings ⟨s.withScalarCheck name check, d⟩ v) =
        as.map (·.step settings ⟨s, d⟩ v) :=
      List.map_congr_left fun a ha => ((has a ha).recheck v).1
    have hnext : ∀ a ∈ as.map (·.step settings ⟨s, d⟩ v), a.StandardAt rules := by
      intro a ha
      obtain ⟨b, hb, rfl⟩ := List.mem_map.1 ha
      exact (has b hb).step ⟨s, d⟩ v
    rw [callsAlong, callsAlong, hstep]
    exact List.rel_append (callsAt_recheck has v) (ih hnext)

theorem standardAt_start (rules : List StandardRule) :
    ∀ a ∈ (start (rules.map StandardRule.rule)).rules, a.StandardAt rules := by
  intro a ha
  obtain ⟨i, hi, rfl⟩ := List.mem_mapIdx.1 ha
  rw [List.length_map] at hi
  have hrule : (rules.map StandardRule.rule)[i] = (rules[i]).rule := List.getElem_map _
  exact ⟨rules[i], _, List.getElem?_eq_getElem hi,
    congrArg (fun r : Rule => ActiveRule.mk i r r.start) hrule⟩

theorem trace_recheck (paths : Bool) (s : Schema) (name : String) (check : LiteralCheck)
    (d : Document) (rules : List StandardRule) :
    List.Forall₂ (Call.Excused rules name) (unlimited ⟨.standard, none, paths⟩ ⟨s, d⟩ rules).trace
      (unlimited ⟨.standard, none, paths⟩ ⟨s.withScalarCheck name check, d⟩ rules).trace := by
  have hvisits : allVisits .standard ⟨s.withScalarCheck name check, d⟩ =
      allVisits .standard ⟨s, d⟩ := Tree.visits_recheck s name check _ _
  rw [trace_unlimited, trace_unlimited, hvisits]
  exact callsAlong_recheck (standardAt_start rules) _

theorem failure?_recheck {r r' : Run}
    (h : List.Forall₂ (Call.Excused rules name) r.trace r'.trace) :
    r'.failure? = r.failure? := by
  rw [failure?, failure?]
  generalize r.trace = cs at h ⊢
  generalize r'.trace = cs' at h ⊢
  induction h with
  | nil => rfl
  | cons h _ ih => rw [List.findSome?_cons, List.findSome?_cons, h.failure, ih]

theorem attributed_recheck {r r' : Run}
    (h : List.Forall₂ (Call.Excused rules name) r.trace r'.trace) :
    r'.attributed.filter (!·.checks rules name) = r.attributed.filter (!·.checks rules name) := by
  have hcall : ∀ c c' : Call, c.Excused rules name c' →
      c'.attributed.filter (!·.checks rules name) =
        c.attributed.filter (!·.checks rules name) := by
    intro c c' hc
    rcases hc.reports with hreports | ⟨hrule, hexpects⟩
    · rw [Call.attributed, hreports, hc.rule, hc.visit, Call.attributed]
    -- All reports of both calls are left out.
    · have hnone : ∀ x : Call, x.rule = c.rule → x.visit = c.visit →
          x.attributed.filter (!·.checks rules name) = [] := by
        intro x hxrule hxvisit
        rw [Call.attributed, List.filter_eq_nil_iff]
        intro y hy
        obtain ⟨diagnostic, -, rfl⟩ := List.mem_map.1 hy
        simp [Report.checks, hxrule, hxvisit, hrule, hexpects]
      rw [hnone c' hc.rule hc.visit, hnone c rfl rfl]
  rw [attributed, attributed, List.filter_flatMap, List.filter_flatMap]
  generalize r.trace = cs at h ⊢
  generalize r'.trace = cs' at h ⊢
  induction h with
  | nil => rfl
  | cons h _ ih => rw [List.flatMap_cons, List.flatMap_cons, hcall _ _ h, ih]

/-- Another check for a scalar makes no difference to a run of standard rules without limit, but to
what is reported of the literals that are expected to be of that scalar, call by call. Without such
a scalar it makes none. -/
theorem scalarCheck_local (paths : Bool) (s : Schema) (name : String) (check : LiteralCheck)
    (d : Document) (rules : List StandardRule) :
    let settings : Settings := ⟨.standard, none, paths⟩
    let old := ofDocument settings ⟨s, d⟩ (rules.map StandardRule.rule)
    let new := ofDocument settings ⟨s.withScalarCheck name check, d⟩
      (rules.map StandardRule.rule)
    (match old.result with
      | .error message => new.result = .error message
      | .ok E =>
        E = old.attributed.map Report.diagnostic ∧
        new.result = .ok (new.attributed.map Report.diagnostic) ∧
        new.attributed.filter (!·.checks rules name) =
          old.attributed.filter (!·.checks rules name)) ∧
    List.Forall₂ (Call.Excused rules name) old.trace new.trace ∧
    ((∀ t, s.type? name ≠ some (.scalar t)) → new.result = old.result) := by
  intro settings old new
  have htrace : List.Forall₂ (Call.Excused rules name) old.trace new.trace :=
    trace_recheck paths s name check d rules
  have hdiagnostics : ∀ subject,
      (ofDocument settings subject (rules.map StandardRule.rule)).findings.diagnostics =
        (ofDocument settings subject (rules.map StandardRule.rule)).attributed.map
          Report.diagnostic := by
    intro subject
    rw [map_diagnostic_attributed]
    exact (told_ofDocument settings subject _).diagnostics
  refine ⟨?_, htrace, fun hnone => ?_⟩
  · rw [result, result, failure?_recheck htrace]
    cases old.failure? with
    | some message => rfl
    | none => exact ⟨hdiagnostics _, congrArg Except.ok (hdiagnostics _), attributed_recheck htrace⟩
  · have hsame := s.withScalarCheck_of_none name check hnone
    simp only [new, old, hsame]

end Run
end
end GraphQLCheck
