import GraphQLCheck.Proofs.Validation.Silent

/-!
Selections that are well typed, and that those of a document without diagnostics are. Each rule
is silent where the type around it is not known and leaves it to another rule to report that, so
the proof goes down with the type that selections are made on: if it is known for a selection set
it is for those below (`typed_selections`), and roots and conditions are where it starts.

There is one way below a field where it gets lost. `__typename` has the type `String`, which a
schema may declare as an input object; that is no leaf, so that the field needs selections, but
they have no type that they are made on.
-/
namespace GraphQLCheck

def MetaField.isOnRoot (s : Schema) (parent : TypeDef) (name : String) : Bool :=
  (name == "__schema" || name == "__type") && Provider.isQueryRoot s parent

/-- `WellTyped s exempt t x`: the selection `x` may be made on the type `t`, with all that is
below it but for what is below fields that are `exempt`. -/
inductive WellTyped (s : Schema) (exempt : TypeDef → Field → Prop) : TypeDef → Selection → Prop
  | spread {t : TypeDef} (x : FragmentSpread) : WellTyped s exempt t (.spread x)
  | inline {t : TypeDef} {i : InlineFragment} : i.condition = none →
    (∀ x ∈ i.selections, WellTyped s exempt t x) → WellTyped s exempt t (.inline i)
  | inlineOn {t u : TypeDef} {i : InlineFragment} {c : Name} : i.condition = some c →
    s.type? c.text = some u → u.isComposite → (∀ x ∈ i.selections, WellTyped s exempt u x) →
    WellTyped s exempt t (.inline i)
  | field {t : TypeDef} {f : Field} {d : FieldDef} :
    s.type? t.name = some t → t.isComposite →
    Provider.schemaField? s t f.name = some d →
    (∀ a ∈ f.arguments, (d.argument? a.name).isSome) →
    (∀ i ∈ d.arguments, i.isRequired → ∃ a ∈ f.arguments, a.name = i.name) →
    (MetaField.isOnRoot s t f.name = false →
      ∃ u, s.resolve? d.type = some u ∧ (f.selections = [] ↔ u.isLeaf)) →
    (¬ exempt t f → ∀ u, s.resolve? d.type = some u →
      ∀ x ∈ f.selections, WellTyped s exempt u x) →
    WellTyped s exempt t (.field f)

structure Document.WellTyped (s : Schema) (exempt : TypeDef → Field → Prop) (d : Document) :
    Prop where
  operation {o root} : o ∈ d.operations → s.root? o.kind = some root →
    s.type? root.name = some (.object root) ∧
      ∀ x ∈ o.selections, GraphQLCheck.WellTyped s exempt (.object root) x
  fragment {f} : f ∈ d.fragments →
    ∃ t, s.type? f.condition.text = some t ∧ t.isComposite ∧
      ∀ x ∈ f.selections, GraphQLCheck.WellTyped s exempt t x

namespace Rules

variable {subject : Subject} {visit : Visit} {f : Field}

theorem field_of_silent (hphase : visit.phase = .enter) (hnode : visit.node = .field f)
    {t : TypeDef} (ht : visit.frame.parent = some t) {state : fieldsOnCorrectType.State}
    (hreports : (fieldsOnCorrectType.react subject visit state).reports = [])
    (hfailure : (fieldsOnCorrectType.react subject visit state).failure = none) :
    ∃ d, visit.frame.field = some d := by
  cases hd : visit.frame.field with
  | some d => exact ⟨d, rfl⟩
  | none =>
    simp only [fieldsOnCorrectType, hphase, hnode, ht, hd] at hreports hfailure
    split at hreports
    · simp [Reaction.next] at hreports
    · rename_i hn
      simp [hn, Reaction.fail] at hfailure

theorem argument_of_silent {a : Argument} (hphase : visit.phase = .enter)
    (hnode : visit.node = .argument a) {t : TypeDef} (ht : visit.frame.parent = some t)
    {d : FieldDef} (howner : visit.frame.owner = some (.field d))
    {state : knownArgumentNames.State}
    (hreports : (knownArgumentNames.react subject visit state).reports = []) :
    visit.frame.argument.isSome := by
  cases hi : visit.frame.argument with
  | some i => rfl
  | none =>
    simp [knownArgumentNames, Rule.stateless, Reaction.next, hphase, hnode, ht, howner, hi]
      at hreports

theorem required_of_silent (hphase : visit.phase = .enter) (hnode : visit.node = .field f)
    {d : FieldDef} (hd : visit.frame.field = some d) {state : providedRequiredArguments.State}
    (hreports : (providedRequiredArguments.react subject visit state).reports = [])
    {i : InputDef} (hi : i ∈ d.arguments) (hrequired : i.isRequired) :
    ∃ a ∈ f.arguments, a.name = i.name := by
  simp only [providedRequiredArguments, Rule.stateless, Reaction.next, hphase, hnode, hd,
    List.map_eq_nil_iff, missingInputs, List.filter_eq_nil_iff, Named.mem_sorted] at hreports
  have h := hreports i hi
  simpa [hrequired] using h

theorem leaf_of_silent (hphase : visit.phase = .enter) (hnode : visit.node = .field f)
    {r : TypeRef} (hr : visit.frame.output = some r) {u : TypeDef}
    (hu : subject.schema.resolve? r = some u) {state : scalarLeafs.State}
    (hreports : (scalarLeafs.react subject visit state).reports = []) :
    f.selections = [] ↔ u.isLeaf := by
  simp only [scalarLeafs, Rule.stateless, Reaction.next, hphase, hnode, hr, hu] at hreports
  cases hleaf : u.isLeaf <;> cases hselections : f.selections <;> simp_all

theorem known_of_silent {s : Schema} {n : Name} (h : unknownType s n = []) :
    ∃ t, s.type? n.text = some t := by
  rw [unknownType] at h
  split at h
  · simp at h
  · rename_i hsome
    exact Option.ne_none_iff_exists'.1 (by simpa using hsome)

theorem composite_of_silent {s : Schema} {fragment : Option String} {n : Name} {t : TypeDef}
    (ht : s.type? n.text = some t) (h : leafCondition s fragment n = []) : t.isComposite := by
  simp only [leafCondition, ht] at h
  split at h
  · assumption
  · simp at h

end Rules

namespace Frame

def below (s : Schema) (above : List Node) : Frame :=
  above.foldl (Frame.enter .standard s) .empty

theorem below_concat (s : Schema) (above : List Node) (n : Node) :
    below s (above ++ [n]) = (below s above).enter .standard s n := by
  simp [below]

theorem frame_visitAt (s : Schema) (p : List Segment) (above : List Node) (n : Node) :
    (Run.visitAt .standard s p above n).frame = below s (above ++ [n]) :=
  Tracker.top_along _ _ _

theorem resolve_conditionType {s : Schema} {c : Name} {t : TypeDef}
    (ht : s.type? c.text = some t) (hcomposite : t.isComposite) :
    (conditionType .standard s c).bind s.resolve? = some t := by
  have houtput : t.isOutput := by
    cases t <;> simp_all [TypeDef.isComposite, TypeDef.isOutput]
  have hname : t.name = c.text := (Schema.mem_of_type? ht).2
  have hcondition : conditionType .standard s c = some (.named t.name) := by
    simp [conditionType, Provider.standard, ht, houtput]
  rw [hcondition, Option.bind_some, Schema.resolve?, TypeRef.name, hname, ht]

theorem field_enterField {s : Schema} {top : Frame} {t : TypeDef} (ht : top.parent = some t)
    (f : Field) : (top.enterField .standard s f).field = Provider.schemaField? s t f.name := by
  simp [enterField, ht, Provider.standard]

theorem enterField_of_defined {s : Schema} {top : Frame} {t : TypeDef} {f : Field} {x : FieldDef}
    (ht : top.parent = some t) (hx : Provider.schemaField? s t f.name = some x) :
    top.enterField .standard s f =
      { empty with
        output := some x.type
        parent := some t
        field := some x
        owner := some (.field x) } := by
  simp [enterField, ht, hx, Provider.standard]

theorem resolve_inline {s : Schema} {top : Frame} {i : InlineFragment} (hi : i.condition = none) :
    (top.enterInlineFragment .standard s i).output.bind s.resolve? =
      top.output.bind s.resolve? := by
  simp only [enterInlineFragment, hi]
  cases top.output <;> rfl

theorem resolve_inlineOn {s : Schema} {top : Frame} {i : InlineFragment} {c : Name}
    (hi : i.condition = some c) {t : TypeDef} (ht : s.type? c.text = some t)
    (hcomposite : t.isComposite) :
    (top.enterInlineFragment .standard s i).output.bind s.resolve? = some t := by
  simp only [enterInlineFragment, hi]
  exact resolve_conditionType ht hcomposite

theorem parent_selectionSet {s : Schema} {f : Frame} {t : TypeDef}
    (ht : f.output.bind s.resolve? = some t) (hcomposite : t.isComposite) (ss : List Selection) :
    (f.enter .standard s (.selectionSet ss)).parent = some t := by
  simp [enter, enterSelectionSet, ht, hcomposite]

end Frame

/-- Below these fields the type is not known: those that ask about the schema itself, and
`__typename` where `String` is an input object. -/
def Untyped (s : Schema) (t : TypeDef) (f : Field) : Prop :=
  MetaField.isOnRoot s t f.name ∨
    f.name = "__typename" ∧ ∃ i, s.type? "String" = some (.input i)

section
variable {s : Schema} {d : Document} (hs : s.Closed)
  (hvalid : (Run.ofDocument .standard ⟨s, d⟩ (StandardRule.all.map StandardRule.rule)).result =
    .ok [])
include hvalid

theorem silent_of_valid (r : StandardRule) (c : NodeClass) {p : List Segment} {above : List Node}
    {n : Node} (h : Leads (.document d) p above n) (hclass : n.classOf = c)
    (hhas : r.rule.handlers.has ⟨.enter, c⟩) :
    ∃ state,
      (r.rule.react (⟨s, d⟩ : Subject) (Run.visitAt .standard s p above n) state).reports = [] ∧
      (r.rule.react (⟨s, d⟩ : Subject) (Run.visitAt .standard s p above n) state).failure = none :=
  Run.silent_at .standard (fun _ => StandardRule.continues_of_mem)
    (fun _ => StandardRule.blind_of_mem) hvalid (List.mem_map_of_mem (StandardRule.mem_all r)) h
    (hclass ▸ hhas)

theorem field_of_valid {p : List Segment} {above : List Node} {f : Field} {t : TypeDef}
    (h : Leads (.document d) p above (.field f)) (ht : (Frame.below s above).parent = some t) :
    ∃ x, Provider.schemaField? s t f.name = some x ∧
      (Frame.below s (above ++ [.field f])).output = some x.type ∧
      (∀ a ∈ f.arguments, (x.argument? a.name).isSome) ∧
      (∀ i ∈ x.arguments, i.isRequired → ∃ a ∈ f.arguments, a.name = i.name) ∧
      ∀ u, s.resolve? x.type = some u → (f.selections = [] ↔ u.isLeaf) := by
  have hbelow : Frame.below s (above ++ [.field f]) =
      (Frame.below s above).enterField .standard s f :=
    Frame.below_concat s above (.field f)
  have hframe : (Run.visitAt .standard s p above (.field f)).frame =
      (Frame.below s above).enterField .standard s f :=
    (Frame.frame_visitAt s p above (.field f)).trans hbelow
  obtain ⟨x, hx⟩ : ∃ x, Provider.schemaField? s t f.name = some x := by
    obtain ⟨state, hreports, hfailure⟩ := silent_of_valid hvalid .fieldsOnCorrectType .field h
      rfl (by decide)
    obtain ⟨x, hx⟩ := Rules.field_of_silent rfl rfl (by rw [hframe]; exact ht) hreports hfailure
    rw [hframe, Frame.field_enterField ht] at hx
    exact ⟨x, hx⟩
  rw [Frame.enterField_of_defined ht hx] at hbelow hframe
  refine ⟨x, hx, by rw [hbelow], ?_, ?_, ?_⟩
  · intro a ha
    obtain ⟨j, hj⟩ := Child.exists_mem_items [.arguments] Node.argument 0 ha
    have ha := h.child (List.mem_append_left _ (List.mem_append_left _ hj))
    have hargument := Frame.frame_visitAt s (p ++ ([.arguments] ++ [.index j]))
      (above ++ [.field f]) (.argument a)
    rw [Frame.below_concat, hbelow] at hargument
    obtain ⟨_, hreports, -⟩ := silent_of_valid hvalid .knownArgumentNames .argument ha rfl
      (by decide)
    have hknown := Rules.argument_of_silent rfl rfl (by rw [hargument]; rfl)
      (by rw [hargument]; rfl) hreports
    rw [hargument] at hknown
    exact hknown
  · intro i hi hrequired
    obtain ⟨_, hreports, -⟩ := silent_of_valid hvalid .providedRequiredArguments .field h rfl
      (by decide)
    exact Rules.required_of_silent rfl rfl (by rw [hframe]) hreports hi hrequired
  · intro u hu
    obtain ⟨_, hreports, -⟩ := silent_of_valid hvalid .scalarLeafs .field h rfl
      (by decide)
    exact Rules.leaf_of_silent rfl rfl (by rw [hframe]) hu hreports

end

theorem output_of_defined {s : Schema} (hs : s.Closed) {t : TypeDef} (ht : t ∈ s.types) {f : Field}
    {x : FieldDef} (hx : Provider.schemaField? s t f.name = some x)
    (hroot : MetaField.isOnRoot s t f.name = false) :
    ∃ u, s.resolve? x.type = some u ∧ (¬ Untyped s t f → u.isOutput) := by
  rcases Provider.schemaField?_cases hx with ⟨hname, rfl⟩ | ⟨hname, hquery, -⟩ |
    ⟨hname, hquery, -⟩ | ⟨fs, hfs, hf⟩
  · have hstring : "String" ∈ Builtin.scalarNames := by decide
    obtain ⟨u, hu⟩ := Option.isSome_iff_exists.1 (hs.builtin hstring)
    refine ⟨u, hu, fun huntyped => ?_⟩
    cases u with
    | input i => exact absurd (.inr ⟨hname, i, hu⟩) huntyped
    | _ => rfl
  · simp [MetaField.isOnRoot, hname, hquery] at hroot
  · simp [MetaField.isOnRoot, hname, hquery] at hroot
  · obtain ⟨u, hu, houtput⟩ := (Option.any_eq_true _ _).1 (hs.output ht hfs hf)
    exact ⟨u, hu, fun _ => houtput⟩

theorem sizeOf_inline_selections (i : InlineFragment) :
    sizeOf i.selections < sizeOf (Selection.inline i) := by
  obtain ⟨condition, directives, selections, loc⟩ := i
  simp
  omega

theorem sizeOf_field_selections (f : Field) : sizeOf f.selections < sizeOf (Selection.field f) := by
  obtain ⟨responseAlias, name, arguments, directives, selections, loc⟩ := f
  simp
  omega

theorem isComposite_of_isOutput {t : TypeDef} (houtput : t.isOutput) (hleaf : ¬ t.isLeaf) :
    t.isComposite := by
  cases t <;> simp_all [TypeDef.isOutput, TypeDef.isLeaf, TypeDef.isComposite]

section
variable {s : Schema} {d : Document} (hs : s.Closed)
  (hvalid : (Run.ofDocument .standard ⟨s, d⟩ (StandardRule.all.map StandardRule.rule)).result =
    .ok [])
include hvalid

theorem condition_of_valid {p : List Segment} {above : List Node} {i : InlineFragment} {c : Name}
    (h : Leads (.document d) p above (.inlineFragment i)) (hc : i.condition = some c) :
    ∃ t, s.type? c.text = some t ∧ t.isComposite := by
  obtain ⟨_, hknown, -⟩ := silent_of_valid hvalid .knownTypeNames .inlineFragment h rfl
    (by decide)
  obtain ⟨_, hleaf, -⟩ := silent_of_valid hvalid .fragmentsOnCompositeTypes .inlineFragment h rfl
    (by decide)
  simp only [Rules.knownTypeNames, Rules.fragmentsOnCompositeTypes, StandardRule.rule,
    Rule.stateless, Reaction.next, Run.visitAt, Run.visitNow, hc, Option.map_some,
    Option.getD_some] at hknown hleaf
  obtain ⟨t, ht⟩ := Rules.known_of_silent hknown
  exact ⟨t, ht, Rules.composite_of_silent ht hleaf⟩

include hs

theorem typed_selections (ss : List Selection) {p : List Segment} {above : List Node} {t : TypeDef}
    (h : Leads (.document d) p above (.selectionSet ss))
    (ht : (Frame.below s above).output.bind s.resolve? = some t) (hcomposite : t.isComposite) :
    ∀ x ∈ ss, WellTyped s (Untyped s) t x := by
  intro x hx
  obtain ⟨j, hj⟩ := Child.exists_mem_items [] Selection.node 0 hx
  have hleads : Leads (.document d) (p ++ [.index j]) (above ++ [.selectionSet ss]) x.node :=
    h.child hj
  have hparent : (Frame.below s (above ++ [.selectionSet ss])).parent = some t := by
    rw [Frame.below_concat]
    exact Frame.parent_selectionSet ht hcomposite ss
  cases x with
  | spread y => exact .spread y
  | inline i =>
    have hselections : Leads (.document d) (p ++ [.index j] ++ [.selectionSet])
        (above ++ [.selectionSet ss] ++ [.inlineFragment i]) (.selectionSet i.selections) :=
      hleads.child (List.mem_append_right _ List.mem_cons_self)
    have hframe := Frame.below_concat s (above ++ [.selectionSet ss]) (.inlineFragment i)
    -- Without a condition the selections are made on the type around the fragment.
    cases hc : i.condition with
    | none =>
      refine .inline hc (typed_selections i.selections hselections ?_ hcomposite)
      rw [hframe, Frame.below_concat]
      exact (Frame.resolve_inline hc).trans ht
    | some c =>
      obtain ⟨u, hu, hucomposite⟩ := condition_of_valid hvalid hleads hc
      refine .inlineOn hc hu hucomposite (typed_selections i.selections hselections ?_ hucomposite)
      rw [hframe]
      exact Frame.resolve_inlineOn hc hu hucomposite
  | field f =>
    have hselections : Leads (.document d) (p ++ [.index j] ++ [.selectionSet])
        (above ++ [.selectionSet ss] ++ [.field f]) (.selectionSet f.selections) :=
      hleads.child (List.mem_append_right _ List.mem_cons_self)
    have hself : s.type? t.name = some t := ((Frame.known_foldl hs _).parent hparent).1
    have hmem : t ∈ s.types := (Schema.mem_of_type? hself).1
    obtain ⟨y, hy, houtput, harguments, hrequired, hleaf⟩ := field_of_valid hvalid hleads hparent
    refine .field hself hcomposite hy harguments hrequired (fun hroot => ?_) fun huntyped u hu => ?_
    · obtain ⟨u, hu, -⟩ := output_of_defined hs hmem hy hroot
      exact ⟨u, hu, hleaf u hu⟩
    · by_cases hempty : f.selections = []
      · simp [hempty]
      -- The field has selections, so its type is no leaf, and as an output type it has fields.
      · have hroot : MetaField.isOnRoot s t f.name = false := by
          simpa using fun h => huntyped (.inl h)
        obtain ⟨v, hv, hkind⟩ := output_of_defined hs hmem hy hroot
        obtain rfl := Option.some.inj (hv.symm.trans hu)
        refine typed_selections f.selections hselections ?_
          (isComposite_of_isOutput (hkind huntyped) fun h => hempty ((hleaf v hu).2 h))
        rw [houtput]
        exact hu
termination_by sizeOf ss
decreasing_by
  · exact Nat.lt_trans (sizeOf_field_selections _) (List.sizeOf_lt_of_mem hx)
  · exact Nat.lt_trans (sizeOf_inline_selections _) (List.sizeOf_lt_of_mem hx)
  · exact Nat.lt_trans (sizeOf_inline_selections _) (List.sizeOf_lt_of_mem hx)

theorem typed_operation {o : Operation} (ho : .operation o ∈ d.definitions) {root : ObjectType}
    (hroot : s.root? o.kind = some root) :
    ∀ x ∈ o.selections, WellTyped s (Untyped s) (.object root) x := by
  obtain ⟨j, hj⟩ := Child.exists_mem_items [] Definition.node 0 ho
  have hleads : Leads (.document d) ([] ++ [.index j] ++ [.selectionSet])
      ([] ++ [.document d] ++ [.operation o]) (.selectionSet o.selections) :=
    ((Leads.here (.document d)).child hj).child (List.mem_append_right _ List.mem_cons_self)
  refine typed_selections hs hvalid o.selections hleads ?_ rfl
  rw [Frame.below_concat]
  simp only [Frame.enter, hroot, Option.map_some, Option.bind_some]
  exact hs.root hroot

theorem typed_fragment {f : Fragment} (hf : .fragment f ∈ d.definitions) :
    ∃ t, s.type? f.condition.text = some t ∧ t.isComposite ∧
      ∀ x ∈ f.selections, WellTyped s (Untyped s) t x := by
  obtain ⟨j, hj⟩ := Child.exists_mem_items [] Definition.node 0 hf
  have hfragment : Leads (.document d) ([] ++ [.index j]) ([] ++ [.document d]) (.fragment f) :=
    (Leads.here (.document d)).child hj
  obtain ⟨_, hknown, -⟩ := silent_of_valid hvalid .knownTypeNames .fragment hfragment rfl
    (by decide)
  obtain ⟨_, hleaf, -⟩ := silent_of_valid hvalid .fragmentsOnCompositeTypes .fragment hfragment rfl
    (by decide)
  obtain ⟨t, ht⟩ := Rules.known_of_silent hknown
  have hcomposite := Rules.composite_of_silent ht hleaf
  refine ⟨t, ht, hcomposite, ?_⟩
  have hleads : Leads (.document d) ([] ++ [.index j] ++ [.selectionSet])
      ([] ++ [.document d] ++ [.fragment f]) (.selectionSet f.selections) :=
    hfragment.child (List.mem_append_right _ List.mem_cons_self)
  refine typed_selections hs hvalid f.selections hleads ?_ hcomposite
  rw [Frame.below_concat]
  exact Frame.resolve_conditionType ht hcomposite

end

/-- A document that no standard rule has anything to report of is well typed. -/
theorem wellTyped_of_valid {s : Schema} (hs : s.Loaded) (d : Document)
    (hvalid : (Run.ofDocument .standard ⟨s, d⟩ (StandardRule.all.map StandardRule.rule)).result =
      .ok []) :
    d.WellTyped s (Untyped s) where
  operation {o root} ho hroot := by
    have hmem : .operation o ∈ d.definitions := by
      obtain ⟨x, hx, hxo⟩ := List.mem_filterMap.1 ho
      cases x <;> simp_all
    exact ⟨hs.closed.root hroot, typed_operation hs.closed hvalid hmem hroot⟩
  fragment {f} hf := by
    have hmem : .fragment f ∈ d.definitions := by
      obtain ⟨x, hx, hxf⟩ := List.mem_filterMap.1 hf
      cases x <;> simp_all
    exact typed_fragment hs.closed hvalid hmem

def twoFields : Document :=
  ⟨[.operation ⟨.query, none, [], [],
    [.field ⟨none, "f", [⟨"a", .int "1" (some ⟨1, 8⟩), some ⟨1, 5⟩⟩], [], [], some ⟨1, 3⟩⟩,
      .field ⟨none, "__typename", [], [], [], some ⟨1, 11⟩⟩], some ⟨1, 1⟩⟩], 23⟩

theorem wellTyped_twoFields :
    Rules.oneFieldSchema.Loaded ∧
    (Run.ofDocument .standard ⟨Rules.oneFieldSchema, twoFields⟩
      (StandardRule.all.map StandardRule.rule)).result = .ok [] ∧
    twoFields.WellTyped Rules.oneFieldSchema (Untyped Rules.oneFieldSchema) := by
  have hvalid : (Run.ofDocument .standard ⟨Rules.oneFieldSchema, twoFields⟩
      (StandardRule.all.map StandardRule.rule)).result = .ok [] :=
    Run.result_eq_ok.2 ⟨by decide +kernel, by decide +kernel⟩
  exact ⟨Rules.loaded_oneField, hvalid, wellTyped_of_valid Rules.loaded_oneField twoFields hvalid⟩

def inputString : Declarations :=
  ⟨[.input ⟨"String", [⟨"a", .named "Int", none⟩]⟩,
    .object ⟨"Query", [⟨"f", .named "Int", []⟩], []⟩], [], none⟩

def inputStringSchema : Schema :=
  { inputString.toSchema with queryRoot := inputString.root? inputString.toSchema .query }

def belowTypename : Document :=
  let x : Field := ⟨none, "x", [], [], [], some ⟨1, 16⟩⟩
  ⟨[.operation ⟨.query, none, [], [],
    [.field ⟨none, "__typename", [], [], [.field x], some ⟨1, 3⟩⟩], some ⟨1, 1⟩⟩], 20⟩

/-- Where `String` is an input object nothing is known of what is selected below `__typename`, and
nothing is reported either. -/
theorem not_wellTyped_belowTypename :
    inputStringSchema.Loaded ∧
    (Run.ofDocument .standard ⟨inputStringSchema, belowTypename⟩
      (StandardRule.all.map StandardRule.rule)).result = .ok [] ∧
    ¬ belowTypename.WellTyped inputStringSchema
      fun t f => MetaField.isOnRoot inputStringSchema t f.name := by
  refine ⟨?_, ?_, ?_⟩
  · have hread : readDeclarations.run SchemaFault.error false
        "input String { a: Int } type Query { f: Int }" = .ok inputString := rfl
    have hload : inputString.load = .ok inputStringSchema :=
      Declarations.load_of_fits (by decide +kernel) (by decide +kernel) rfl
    exact .read (Schema.read_eq_ok hread hload)
  · exact Run.result_eq_ok.2 ⟨by decide +kernel, by decide +kernel⟩
  · intro h
    have htypename := (h.operation List.mem_cons_self rfl).2 _ List.mem_cons_self
    cases htypename with
    | field _ _ hx _ _ _ hbelow =>
      obtain rfl := Option.some.inj hx
      have hroot : MetaField.isOnRoot inputStringSchema
          (.object ⟨"Query", [⟨"f", .named "Int", []⟩], []⟩) "__typename" = false := by decide
      have hselected := hbelow (by simp [hroot]) (.input ⟨"String", [⟨"a", .named "Int", none⟩]⟩)
        rfl _ List.mem_cons_self
      cases hselected with
      | field _ hcomposite => simp [TypeDef.isComposite] at hcomposite

end GraphQLCheck
