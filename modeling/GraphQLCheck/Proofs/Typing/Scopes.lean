import GraphQLCheck.Proofs.Typing.Resolution

/-!
Typing without fields. Where a provider knows type conditions and no field, what a field is selected
on hangs on the operations, fragments and conditions above it alone: `Schema.scopedOn` goes outwards
to the nearest of these, and a field on the way ends the search. The frame of a field then has this
type as its parent and no definition (`Frame.field_along`), since each node sets up for those below
it what they look at (`Frame.Scoped.enter`).
-/
namespace GraphQLCheck

/-- Type conditions are looked up by name, and no field resolves. -/
structure Provider.Fieldless (p : Provider) (s : Schema) : Prop where
  field (t : TypeDef) (f : Field) : p.field? s t f = .none
  condition (c : Name) : p.condition? s c = s.type? c.text

def Provider.conditionsOnly : Provider :=
  { Provider.none with condition? := Provider.standard.condition? }

theorem Provider.fieldless_conditionsOnly (s : Schema) : conditionsOnly.Fieldless s :=
  ⟨fun _ _ => rfl, fun _ => rfl⟩

/-- The composite type that selections are made on below the given nodes, the nearest first, where
no field resolves. -/
def Schema.scopedOn (s : Schema) : List Node → Option TypeDef
  | .operation o :: _ => (s.root? o.kind).map .object
  | .fragment f :: _ => s.composite? f.condition.text
  | .selectionSet _ :: above => s.scopedOn above
  | .inlineFragment i :: above =>
    match i.condition with
    | some c => s.composite? c.text
    | none => s.scopedOn above
  | _ => none

namespace Frame

variable {p : Provider} {s : Schema} {F : Frame} {above : List Node}

def Opens (s : Schema) (F : Frame) (nodes : List Node) : Prop :=
  (F.output.bind s.resolve?).filter TypeDef.isComposite = s.scopedOn nodes

/-- The frame of a node that stands below the given nodes, where selections look at it. -/
def Scoped (s : Schema) (F : Frame) (above : List Node) : Node → Prop
  | .operation o => F.Opens s (.operation o :: above)
  | .fragment f => F.Opens s (.fragment f :: above)
  | .inlineFragment i => F.Opens s (.inlineFragment i :: above)
  | .selectionSet ss => F.Opens s (.selectionSet ss :: above) ∧ F.parent = s.scopedOn above
  | .field f => F.Opens s (.field f :: above) ∧ F.parent = s.scopedOn above ∧ F.field = none
  | _ => True

theorem opens_operation (hs : s.Closed) (o : Operation) :
    (F.enter p s (.operation o)).Opens s (.operation o :: above) := by
  have hselects : (F.enter .standard s (.operation o)).Selects s (.operation o :: above) :=
    selects_operation hs o
  exact hselects

theorem conditionType_eq (hp : p.Fieldless s) (c : Name) :
    conditionType p s c = conditionType .standard s c := by
  rw [conditionType, conditionType, hp.condition]
  rfl

theorem opens_fragment (hp : p.Fieldless s) (f : Fragment) :
    (F.enter p s (.fragment f)).Opens s (.fragment f :: above) := by
  rw [Opens, enter, conditionType_eq hp]
  exact filter_conditionType f.condition

theorem scoped_selectionSet {n : Node} (h : F.Opens s (n :: above)) (ss : List Selection) :
    (F.enter p s (.selectionSet ss)).Scoped s (n :: above) (.selectionSet ss) := by
  refine ⟨h, ?_⟩
  rw [← h]
  simp only [enter, enterSelectionSet]
  cases F.output.bind s.resolve? <;> rfl

theorem scoped_field (hp : p.Fieldless s) {ss : List Selection}
    (h : F.Scoped s above (.selectionSet ss)) (f : Field) :
    (F.enter p s (.field f)).Scoped s (.selectionSet ss :: above) (.field f) := by
  have hfield : (F.enterField p s f).field = none := by
    rw [enterField]
    exact Option.bind_eq_none_iff.2 fun t _ => hp.field t f
  have houtput : (F.enterField p s f).output = none := congrArg (Option.map FieldDef.type) hfield
  refine ⟨?_, h.2, hfield⟩
  rw [Opens, enter, houtput]
  rfl

theorem scoped_inlineFragment (hp : p.Fieldless s) {ss : List Selection}
    (h : F.Scoped s above (.selectionSet ss)) (i : InlineFragment) :
    (F.enter p s (.inlineFragment i)).Scoped s (.selectionSet ss :: above)
      (.inlineFragment i) := by
  have hsame : F.enterInlineFragment p s i = F.enterInlineFragment .standard s i := by
    simp only [enterInlineFragment, conditionType_eq hp]
  rw [Scoped, Opens, Schema.scopedOn, enter, hsame]
  cases hi : i.condition with
  | none =>
    rw [resolve_inline hi]
    exact h.1
  | some c =>
    simp only [enterInlineFragment, hi]
    exact filter_conditionType c

theorem scoped_selection (hp : p.Fieldless s) {ss : List Selection}
    (h : F.Scoped s above (.selectionSet ss)) (x : Selection) :
    (F.enter p s x.node).Scoped s (.selectionSet ss :: above) x.node := by
  cases x with
  | field f => exact scoped_field hp h f
  | spread y => trivial
  | inline i => exact scoped_inlineFragment hp h i

theorem Scoped.opens {n : Node} (h : F.Scoped s above n) (hn : n.opensSelections) :
    F.Opens s (n :: above) := by
  cases n with
  | operation _ | fragment _ | inlineFragment _ => exact h
  | field _ => exact h.1
  | _ => cases hn

theorem Scoped.enter (hs : s.Closed) (hp : p.Fieldless s) {n : Node} (h : F.Scoped s above n)
    {c : Child} (hc : c ∈ n.children) : (F.enter p s c.node).Scoped s (n :: above) c.node := by
  have hcarries := Node.carries_child hc
  generalize c.node = m at hcarries ⊢
  cases hcarries with
  | definition d x =>
    cases x with
    | operation o => exact opens_operation hs o
    | fragment f => exact opens_fragment hp f
  | selectionSet ss hn => exact scoped_selectionSet (h.opens hn) ss
  | selection ss x => exact scoped_selection hp h x
  | _ => trivial

theorem Scoped.foldl (hs : s.Closed) (hp : p.Fieldless s) {n m : Node} {steps : List Segment}
    {way : List Node} (hleads : Leads n steps way m) (h : (F.enter p s n).Scoped s above n) :
    ((way ++ [m]).foldl (Frame.enter p s) F).Scoped s (way.reverse ++ above) m := by
  induction hleads generalizing F above with
  | here n => exact h
  | @down n m c steps way hc _ ih =>
    rw [List.reverse_cons, List.append_assoc]
    exact ih (h.enter hs hp hc)

theorem field_along (hs : s.Closed) (hp : p.Fieldless s) {d : Document} {steps : List Segment}
    {f : Field} (hleads : Leads (.document d) steps above.reverse (.field f)) :
    (Tracker.along p s (above.reverse ++ [.field f])).top.parent = s.scopedOn above ∧
      (Tracker.along p s (above.reverse ++ [.field f])).top.field = none := by
  have hdocument : (Frame.empty.enter p s (.document d)).Scoped s [] (.document d) := trivial
  have hscoped := hdocument.foldl hs hp hleads
  rw [← Tracker.top_along, List.reverse_reverse, List.append_nil] at hscoped
  exact hscoped.2

end Frame
end GraphQLCheck
