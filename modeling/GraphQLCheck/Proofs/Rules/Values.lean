import GraphQLCheck.Proofs.Rules.ValueCheck
import GraphQLCheck.Proofs.Typing.Known

/-!
Which literals a type admits, and that `Rules.valuesOfCorrectType` reports exactly the others. The
rule is told of one node after the other and recurses nowhere; `Schema.admits` goes down into
lists and objects as literals are built. They agree since the type that a frame expects of a value
is the one that the recursion comes to it with.
-/
namespace GraphQLCheck

namespace Schema

def admitsLeaf (s : Schema) (t : TypeRef) (v : Value) : Bool :=
  match s.resolve? t with
  | some (.scalar x) => (x.reject? v).isNone
  | some (.enum e) =>
    match v with
    | .enum name _ => e.values.contains name
    | _ => false
  | _ => false

mutual

/-- Whether a literal may be given where a type is expected, with all its parts. -/
def admits (s : Schema) (t : TypeRef) : Value → Bool
  | .variable _ => true
  | .null => !t.isNonNull
  | .list items loc =>
    match t.nullable with
    | .list item => admitsItems s item items
    | _ => s.admitsLeaf t (.list items loc)
  | .object fields loc =>
    match (s.resolve? t).bind TypeDef.input? with
    | some i =>
      (i.fields.all fun f => !f.isRequired || (fields.map ObjectField.name).contains f.name)
        && admitsFields s i fields
    | none => s.admitsLeaf t (.object fields loc)
  | .boolean b loc => s.admitsLeaf t (.boolean b loc)
  | .int digits loc => s.admitsLeaf t (.int digits loc)
  | .float digits loc => s.admitsLeaf t (.float digits loc)
  | .string text loc => s.admitsLeaf t (.string text loc)
  | .enum name loc => s.admitsLeaf t (.enum name loc)

def admitsItems (s : Schema) (t : TypeRef) : List Value → Bool
  | [] => true
  | v :: vs => admits s t v && admitsItems s t vs

def admitsFields (s : Schema) (i : InputObjectType) : List ObjectField → Bool
  | [] => true
  | f :: fs => admitsField s i f && admitsFields s i fs

def admitsField (s : Schema) (i : InputObjectType) : ObjectField → Bool
  | ⟨name, value, _⟩ =>
    match i.field? name with
    | some d => admits s d.type value
    | none => false

end

end Schema

namespace TypeRef

theorem listItem?_eq_some {t e : TypeRef} : t.listItem? = some e ↔ t.nullable = .list e := by
  cases t with
  | named n => simp [listItem?, nullable]
  | list t => simp [listItem?, nullable]
  | nonNull t => cases t <;> simp [listItem?, nullable]

theorem name_itemType (t : TypeRef) : (Frame.itemType t).name = t.name := by
  rw [← name_nullable t]
  rw [Frame.itemType]
  cases t.nullable <;> rfl

end TypeRef

namespace Rules

variable {s : Schema} {d : Document}

theorem leafReports_eq_nil {frame : Frame} {t u : TypeRef} (hframe : frame.input = some u)
    (hname : u.name = t.name) (hresolves : (s.resolve? t).isSome) (v : Value) :
    leafReports s frame v = [] ↔ s.admitsLeaf t v := by
  have hsame : s.resolve? u = s.resolve? t := congrArg s.type? hname
  obtain ⟨x, hx⟩ := Option.isSome_iff_exists.1 hresolves
  simp only [leafReports, hframe, Option.bind_some, leafProblem?, hsame, hx, Schema.admitsLeaf]
  cases x with
  | scalar x =>
    cases hreject : x.reject? v with
    | none => simp [scalarProblem?, hreject]
    | some message => simp [scalarProblem?, hreject]
  | enum e =>
    cases v with
    | enum name loc =>
      simp only [enumProblem?]
      split <;> simp_all
    | _ => simp [enumProblem?]
  | _ => simp

theorem nullReports_eq_nil {frame : Frame} {t : TypeRef} (hframe : frame.input = some t)
    (place : Option Location) : nullReports frame place = [] ↔ !t.isNonNull := by
  simp only [nullReports, hframe]
  cases t.isNonNull <;> simp

namespace ValueCheck

variable {q : Path} {t : Tracker} {c : ValueCheck} {T : TypeRef}

theorem next_enter_value (hc : c.ignored = none) (v : Value) :
    c.next ⟨s, d⟩ (Run.visitNow .enter (.value v) q t) =
      (enterValueCheck s (Run.visitNow .enter (.value v) q t) v c).1 := by
  simp [next, valuesOfCorrectType, Run.visitNow, hc, Reaction.next]

theorem reports_enter_value (hc : c.ignored = none) (v : Value) :
    c.reports ⟨s, d⟩ (Run.visitNow .enter (.value v) q t) =
      (enterValueCheck s (Run.visitNow .enter (.value v) q t) v c).2 := by
  simp [reports, valuesOfCorrectType, Run.visitNow, hc, Reaction.next]

theorem reported_leaf (hc : c.ignored = none) (hT : t.top.input = some T)
    (hresolves : (s.resolve? T).isSome) {v : Value} (hchildren : (Node.value v).children = [])
    (hinput : (Frame.enterValue s t.top v).input = t.top.input)
    (hcheck : ∀ visit, (enterValueCheck s visit v c).2 = leafReports s visit.frame v) :
    c.reported ⟨s, d⟩ (((Node.value v).tree q).visits .standard s t) = [] ↔ s.admitsLeaf T v := by
  rw [reported_tree, hchildren, reports_enter_value hc, hcheck]
  have hframe : (t.enter .standard s (.value v)).top.input = some T := hinput.trans hT
  simp only [List.map_nil, Tree.visitsAll, reported, List.append_nil]
  exact leafReports_eq_nil hframe rfl hresolves v

theorem reports_enter_objectField (hc : c.ignored = none) (f : ObjectField) :
    c.reports ⟨s, d⟩ (Run.visitNow .enter (.objectField f) q t) =
      unknownFieldReports s t.top f := by
  simp [reports, valuesOfCorrectType, Run.visitNow, hc, Reaction.next]

theorem mem_types_of_inputObject? {r : Option TypeRef} {i : InputObjectType}
    (h : inputObject? s r = some i) : .input i ∈ s.types := by
  obtain ⟨x, hx, hi⟩ := Option.bind_eq_some_iff.1 h
  obtain ⟨r, -, hr⟩ := Option.bind_eq_some_iff.1 hx
  cases x with
  | input j =>
    obtain rfl := Option.some.inj hi
    exact (Schema.mem_of_type? hr).1
  | _ => simp [TypeDef.input?] at hi

variable {visit : Visit} {items : List Value} {fields : List ObjectField} {loc : Option Location}

theorem check_list (h : visit.frame.parentInput = some T) {e : TypeRef}
    (he : T.listItem? = some e) : enterValueCheck s visit (.list items loc) c = (c, []) := by
  simp [enterValueCheck, h, he]

theorem check_noList (h : visit.frame.parentInput = some T) (he : T.listItem? = none) :
    enterValueCheck s visit (.list items loc) c =
      (c.ignore visit.path, leafReports s visit.frame (.list items loc)) := by
  simp [enterValueCheck, h, he]

theorem check_object {i : InputObjectType} (h : inputObject? s visit.frame.input = some i) :
    enterValueCheck s visit (.object fields loc) c =
      (c, missingFieldReports i fields (.object fields loc)) := by
  simp [enterValueCheck, h]

theorem check_noObject (h : inputObject? s visit.frame.input = none) :
    enterValueCheck s visit (.object fields loc) c =
      (c.ignore visit.path, leafReports s visit.frame (.object fields loc)) := by
  simp [enterValueCheck, h]

theorem reported_whole (hc : c.ignored = none)
    (hresolves : (s.resolve? T).isSome) {v : Value} {U : TypeRef}
    (hinput : (Frame.enterValue s t.top v).input = some U) (hname : U.name = T.name)
    (hcheck : enterValueCheck s (Run.visitNow .enter (.value v) q (t.enter .standard s (.value v)))
      v c = (c.ignore q, leafReports s (t.enter .standard s (.value v)).top v)) :
    c.reported ⟨s, d⟩ (((Node.value v).tree q).visits .standard s t) = [] ↔ s.admitsLeaf T v := by
  have hnotBelow : NotBelow q (c.ignore q) := fun i hi => .inl (Option.some.inj hi).symm
  have hparts : (c.ignore q).reported ⟨s, d⟩ (Tree.visitsAll .standard s
      (t.enter .standard s (.value v)) ((Node.value v).children.map (Child.tree q))) = [] :=
    reportedAll_of_ignored (fun x _ => reported_of_ignored x.node) (fun _ hx => hx) rfl hnotBelow
  rw [reported_tree, next_enter_value hc, reports_enter_value hc, hcheck, hparts, List.append_nil]
  exact leafReports_eq_nil hinput hname hresolves v

theorem missingFieldReports_eq_nil {i : InputObjectType} {fields : List ObjectField} {v : Value} :
    missingFieldReports i fields v = [] ↔
      i.fields.all fun f => !f.isRequired || (fields.map ObjectField.name).contains f.name := by
  simp only [missingFieldReports, missingInputs, List.map_eq_nil_iff, List.filter_eq_nil_iff,
    Named.mem_sorted, List.all_eq_true]
  refine forall_congr' fun f => forall_congr' fun _ => ?_
  cases f.isRequired <;> simp

mutual

theorem reported_value (hs : s.Closed) : ∀ (v : Value) {q : Path} {t : Tracker} {c : ValueCheck}
    {T : TypeRef}, c.ignored = none → t.top.input = some T → (s.resolve? T).isSome →
    (c.reported ⟨s, d⟩ (((Node.value v).tree q).visits .standard s t) = [] ↔ s.admits T v)
  | .variable x, q, t, c, T, hc, hT, hresolves => by
    rw [reported_tree, reports_enter_value hc]
    simp [enterValueCheck, Node.children, Tree.visitsAll, reported, Schema.admits]
  | .null, q, t, c, T, hc, hT, hresolves => by
    have hframe : (t.enter .standard s (.value .null)).top.input = some T := hT
    rw [reported_tree, reports_enter_value hc]
    simp only [enterValueCheck, Node.children, List.map_nil, Tree.visitsAll, reported,
      List.append_nil, Schema.admits]
    exact nullReports_eq_nil hframe _
  | .list items loc, q, t, c, T, hc, hT, hresolves => by
    have hinput : (Frame.enterValue s t.top (.list items loc)).input =
        some (Frame.itemType T) := by
      rw [Frame.enterValue, hT]
      rfl
    -- A list where none is expected is checked as a whole, and its items are not.
    cases hitem : T.listItem? with
    | some e =>
      have hnullable : T.nullable = .list e := TypeRef.listItem?_eq_some.1 hitem
      have he : Frame.itemType T = e := by
        rw [Frame.itemType, hnullable]
      have hresolves' : (s.resolve? e).isSome := by
        rw [Schema.resolve?, ← he, TypeRef.name_itemType]
        exact hresolves
      have hitems := reported_items hs items 0 (q := q)
        (t := t.enter .standard s (.value (.list items loc))) hc
        (hinput.trans (congrArg some he)) hresolves'
      rw [reported_tree, next_enter_value hc, reports_enter_value hc, check_list hT hitem,
        Schema.admits, hnullable]
      exact hitems
    | none =>
      rw [reported_whole hc hresolves hinput (TypeRef.name_itemType T) (check_noList hT hitem),
        Schema.admits]
      split
      · rename_i e he
        rw [TypeRef.listItem?_eq_some.2 he] at hitem
        simp at hitem
      · rfl
  | .object fields loc, q, t, c, T, hc, hT, hresolves => by
    have hobject : inputObject? s t.top.input = (s.resolve? T).bind TypeDef.input? := by
      rw [hT]
      rfl
    rw [Schema.admits, ← hobject]
    cases hi : inputObject? s t.top.input with
    | some i =>
      have hfields := reported_fields hs fields 0 (q := q)
        (t := t.enter .standard s (.value (.object fields loc))) hc hi
      rw [reported_tree, next_enter_value hc, reports_enter_value hc, check_object hi,
        List.append_eq_nil_iff, missingFieldReports_eq_nil, Bool.and_eq_true]
      exact and_congr .rfl hfields
    | none => exact reported_whole hc hresolves hT rfl (check_noObject hi)
  | .boolean b loc, q, t, c, T, hc, hT, hresolves =>
    reported_leaf hc hT hresolves rfl rfl fun _ => rfl
  | .int digits loc, q, t, c, T, hc, hT, hresolves =>
    reported_leaf hc hT hresolves rfl rfl fun _ => rfl
  | .float digits loc, q, t, c, T, hc, hT, hresolves =>
    reported_leaf hc hT hresolves rfl rfl fun _ => rfl
  | .string text loc, q, t, c, T, hc, hT, hresolves =>
    reported_leaf hc hT hresolves rfl rfl fun _ => rfl
  | .enum name loc, q, t, c, T, hc, hT, hresolves =>
    reported_leaf hc hT hresolves rfl rfl fun _ => rfl

theorem reported_items (hs : s.Closed) : ∀ (vs : List Value) (i : Nat) {q : Path} {t : Tracker}
    {c : ValueCheck} {T : TypeRef}, c.ignored = none → t.top.input = some T →
    (s.resolve? T).isSome →
    (c.reported ⟨s, d⟩ (Tree.visitsAll .standard s t
      ((Child.items [.values] Node.value i vs).map (Child.tree q))) = [] ↔ s.admitsItems T vs)
  | [], i, q, t, c, T, hc, hT, hresolves => by
    simp [Child.items, Tree.visitsAll, reported, Schema.admitsItems]
  | v :: vs, i, q, t, c, T, hc, hT, hresolves => by
    have hfirst := reported_value hs v (q := q.append ([.values] ++ [.index i])) hc hT hresolves
    have hafter : (c.after ⟨s, d⟩ (((Node.value v).tree (q.append ([.values] ++ [.index i]))).visits
        .standard s t)).ignored = none := by
      rw [ignored_after _ (elsewhere_of_none hc), hc]
    have hrest := reported_items hs vs (i + 1) (q := q) hafter hT hresolves
    rw [Child.items, List.map_cons, Tree.visitsAll, reported_append, List.append_eq_nil_iff,
      Schema.admitsItems, Bool.and_eq_true]
    exact and_congr hfirst hrest

theorem reported_fields (hs : s.Closed) : ∀ (fs : List ObjectField) (j : Nat) {q : Path}
    {t : Tracker} {c : ValueCheck} {i : InputObjectType}, c.ignored = none →
    inputObject? s t.top.input = some i →
    (c.reported ⟨s, d⟩ (Tree.visitsAll .standard s t
      ((Child.items [.fields] Node.objectField j fs).map (Child.tree q))) = [] ↔
        s.admitsFields i fs)
  | [], j, q, t, c, i, hc, hi => by
    simp [Child.items, Tree.visitsAll, reported, Schema.admitsFields]
  | f :: fs, j, q, t, c, i, hc, hi => by
    have hfirst := reported_field hs f (q := q.append ([.fields] ++ [.index j])) hc hi
    -- The state has changed by then, but not in what it ignores.
    have hafter : (c.after ⟨s, d⟩ (((Node.objectField f).tree
        (q.append ([.fields] ++ [.index j]))).visits .standard s t)).ignored = none := by
      rw [ignored_after _ (elsewhere_of_none hc), hc]
    have hrest := reported_fields hs fs (j + 1) (q := q) hafter hi
    rw [Child.items, List.map_cons, Tree.visitsAll, reported_append, List.append_eq_nil_iff,
      Schema.admitsFields, Bool.and_eq_true]
    exact and_congr hfirst hrest

theorem reported_field (hs : s.Closed) : ∀ (f : ObjectField) {q : Path} {t : Tracker}
    {c : ValueCheck} {i : InputObjectType}, c.ignored = none →
    inputObject? s t.top.input = some i →
    (c.reported ⟨s, d⟩ (((Node.objectField f).tree q).visits .standard s t) = [] ↔
      s.admitsField i f)
  | ⟨name, value, loc⟩, q, t, c, i, hc, hi => by
    have hinput : (t.enter .standard s (.objectField ⟨name, value, loc⟩)).top.input =
        (i.field? name).map InputDef.type := by
      have henter : (t.enter .standard s (.objectField ⟨name, value, loc⟩)).top.input =
          ((inputObject? s t.top.input).bind fun i => i.field? name).map InputDef.type := rfl
      rw [henter, hi]
      rfl
    have hparent : inputObject? s
        (t.enter .standard s (.objectField ⟨name, value, loc⟩)).top.parentInput = some i := hi
    rw [reported_tree, reports_enter_objectField hc, unknownFieldReports, hinput, hparent,
      Schema.admitsField]
    cases hfield : i.field? name with
    | none => simp
    | some f =>
      have hresolves : (s.resolve? f.type).isSome :=
        Option.isSome_of_any (hs.inputField (mem_types_of_inputObject? hi)
          (List.mem_of_find?_eq_some hfield))
      have hvalue := reported_value hs value (q := q.append [.value])
        (t := t.enter .standard s (.objectField ⟨name, value, loc⟩)) (c := c.enclose loc) hc
        (hinput.trans (congrArg (Option.map InputDef.type) hfield)) hresolves
      rw [← hvalue]
      simp only [Node.children, List.map_cons, List.map_nil, Tree.visitsAll, Child.tree,
        List.append_nil]
      exact .rfl

end

end ValueCheck

/-- Literals of which the type is known: the value of an argument with a definition, and the
default value of a variable of an input type. -/
inductive Expected (s : Schema) (d : Document) : List Segment → TypeRef → Value → Prop
  | argument {p : List Segment} {above : List Node} {a : Argument} {i : InputDef} :
    Leads (.document d) p above (.argument a) →
    ((above ++ [Node.argument a]).foldl (Frame.enter .standard s) .empty).argument = some i →
    Expected s d (p ++ [.value]) i.type a.value
  | defaultValue {p : List Segment} {above : List Node} {x : VariableDefinition} {v : Value} :
    Leads (.document d) p above (.variableDefinition x) →
    (s.type? x.type.name.text).any TypeDef.isInput → x.defaultValue = some v →
    Expected s d (p ++ [.defaultValue]) (.ofExpr x.type) v

variable {p : List Segment} {T : TypeRef} {v : Value}

theorem Expected.leads (hs : s.Closed) (h : Expected s d p T v) :
    ∃ above, Leads (.document d) p above (.value v) ∧
      (∀ k ∈ above, k.isLiteral = false) ∧
      (Tracker.along .standard s above).top.input = some T ∧ (s.resolve? T).isSome := by
  cases h with
  | @argument p above a i hleads hi =>
    refine ⟨above ++ [.argument a], hleads.child List.mem_cons_self, ?_, ?_,
      (Frame.known_foldl hs _).argument hi⟩
    · intro k hk
      rcases List.mem_append.1 hk with hk | hk
      · exact hleads.above_not_literal rfl k hk
      · obtain rfl := List.mem_singleton.1 hk
        rfl
    · rw [List.foldl_append] at hi
      rw [Tracker.along_concat, Tracker.top_enter, Tracker.top_along]
      exact congrArg (Option.map InputDef.type) hi
  | @defaultValue p above x v hleads hinput hv =>
    have hchild : (⟨[.defaultValue], .value v⟩ : Child) ∈ (Node.variableDefinition x).children := by
      simp [Node.children, hv]
    refine ⟨above ++ [.variableDefinition x], hleads.child hchild, ?_, ?_, ?_⟩
    · intro k hk
      rcases List.mem_append.1 hk with hk | hk
      · exact hleads.above_not_literal rfl k hk
      · obtain rfl := List.mem_singleton.1 hk
        rfl
    · rw [Tracker.along_concat, Tracker.top_enter]
      simp [Frame.enter, Frame.enterVariableDefinition, hinput]
    · rw [Schema.resolve?, TypeRef.name_ofExpr]
      exact Option.isSome_of_any hinput

theorem continues_valuesOfCorrectType : valuesOfCorrectType.Continues := by
  rintro subject ⟨phase, node, path, frame, depth⟩ c
  cases phase with
  | enter =>
    cases node with
    | value v =>
      simp only [valuesOfCorrectType]
      split
      · rfl
      · rfl
    | _ => rfl
  | leave => cases node <;> rfl

/-- A literal of a known type is reported, in itself or in some part of it, if and only if the
type does not admit it. -/
theorem reports_iff_not_admits (hs : s.Loaded) (d : Document) (paths : Bool)
    (h : Expected s d p T v) :
    let run := Run.ofDocument ⟨.standard, none, paths⟩ ⟨s, d⟩ [valuesOfCorrectType]
    run.result = .ok (run.trace.flatMap Call.reports) ∧
      ((∃ c ∈ run.trace, p <+: c.visit.path.segments ∧ c.reports ≠ []) ↔ ¬ s.admits T v) := by
  obtain ⟨above, hleads, hliteral, hinput, hresolves⟩ := h.leads hs.closed
  obtain ⟨before, happroach, hreports⟩ := Run.exists_reports_below ⟨.standard, none, paths⟩
    ⟨s, d⟩ continues_valuesOfCorrectType StandardRule.valuesOfCorrectType.blind hleads
  have hresult := Run.result_full ⟨.standard, none, paths⟩ ⟨s, d⟩
    (List.forall_mem_singleton.2 failure_valuesOfCorrectType)
  have hnone : (ValueCheck.start.after ⟨s, d⟩ before).ignored = none := by
    refine happroach _ (fun c : ValueCheck => c.ignored = none) ?_ ?_ _ rfl
    · intro k hk q t c hc
      rcases ValueCheck.ignored_enter (s := s) (d := d) (q := q) (t := t) (c := c) k with
        hsame | ⟨-, ⟨v, rfl⟩, -⟩
      · exact hsame.trans hc
      · exact absurd (hliteral _ hk) (by simp [Node.isLiteral])
    · intro k q t c hc
      exact (ValueCheck.ignored_after k (ValueCheck.elsewhere_of_none hc)).trans hc
  have hafter : valuesOfCorrectType.after ⟨s, d⟩ before valuesOfCorrectType.start =
      ValueCheck.start.after ⟨s, d⟩ before := ValueCheck.after_rule before .start
  have hvalue := ValueCheck.reported_value (d := d) hs.closed v (q := ⟨p⟩) hnone hinput hresolves
  refine ⟨hresult, hreports.trans ?_⟩
  rw [hafter, ValueCheck.reported_rule, ← hvalue]

def oneField : Declarations :=
  ⟨[.object ⟨"Query", [⟨"f", .named "Int", [⟨"a", .nonNull (.named "Int"), none⟩]⟩], []⟩], [],
    none⟩

def oneFieldSchema : Schema :=
  { oneField.toSchema with queryRoot := oneField.root? oneField.toSchema .query }

theorem loaded_oneField : oneFieldSchema.Loaded := by
  have hread : readDeclarations.run SchemaFault.error false "type Query { f(a: Int!): Int }" =
      .ok oneField := rfl
  have hload : oneField.load = .ok oneFieldSchema :=
    Declarations.load_of_fits (by decide +kernel) (by decide +kernel) rfl
  exact .read (Schema.read_eq_ok hread hload)

def oneLiteral : Document :=
  ⟨[.operation ⟨.query, none, [], [],
    [.field ⟨none, "f", [⟨"a", .string "x" (some ⟨1, 8⟩), some ⟨1, 5⟩⟩], [], [], some ⟨1, 3⟩⟩],
    some ⟨1, 1⟩⟩], 13⟩

theorem reports_oneLiteral :
    oneFieldSchema.Loaded ∧
    Expected oneFieldSchema oneLiteral
      [.index 0, .selectionSet, .index 0, .arguments, .index 0, .value] (.nonNull (.named "Int"))
      (.string "x" (some ⟨1, 8⟩)) ∧
    ∃ c ∈ (Run.ofDocument .standard ⟨oneFieldSchema, oneLiteral⟩ [valuesOfCorrectType]).trace,
      [.index 0, .selectionSet, .index 0, .arguments, .index 0, .value] <+:
        c.visit.path.segments ∧ c.reports ≠ [] := by
  have hleads := (((Leads.here (.document oneLiteral)).child
    (c := ⟨[.index 0], _⟩) List.mem_cons_self).child
    (c := ⟨[.selectionSet], _⟩) List.mem_cons_self).child
    (c := ⟨[.index 0], _⟩) List.mem_cons_self |>.child
    (c := ⟨[.arguments, .index 0], _⟩) List.mem_cons_self
  have hexpected : Expected oneFieldSchema oneLiteral
      [.index 0, .selectionSet, .index 0, .arguments, .index 0, .value] (.nonNull (.named "Int"))
      (.string "x" (some ⟨1, 8⟩)) :=
    @Expected.argument _ _ _ _ _ ⟨"a", .nonNull (.named "Int"), none⟩ hleads rfl
  have hadmits : ¬ oneFieldSchema.admits (.nonNull (.named "Int")) (.string "x" (some ⟨1, 8⟩)) := by
    decide +kernel
  exact ⟨loaded_oneField, hexpected,
    (reports_iff_not_admits loaded_oneField oneLiteral false hexpected).2.2 hadmits⟩

end Rules
end GraphQLCheck
