import GraphQLCheck.Proofs.Rules.WellTyped
import GraphQLCheck.Proofs.Traversal.Spots

/-!
What fields, directives and the arguments of both resolve to, said of the nodes above them alone.
`Schema.selectedOn` is the type that selections are made on. The frame of a node has what the node
resolves to (`Frame.Fits`), whatever slots it took over from the frames above: this holds at the
document and is kept from each node to those right below it (`Frame.Fits.enter`).
-/
namespace GraphQLCheck

namespace Schema

variable (s : Schema)

def composite? (name : String) : Option TypeDef := (s.type? name).filter TypeDef.isComposite

/-- The composite type that selections are made on below the given nodes, the nearest first. -/
def selectedOn : List Node → Option TypeDef
  | .operation o :: _ => (s.root? o.kind).map .object
  | .fragment f :: _ => s.composite? f.condition.text
  | .selectionSet _ :: above => selectedOn above
  | .inlineFragment i :: above =>
    match i.condition with
    | some c => s.composite? c.text
    | none => selectedOn above
  | .field f :: above =>
    ((selectedOn above).bind fun t => Provider.schemaField? s t f.name).bind
      fun d => s.composite? d.type.name
  | _ => none

def fieldBelow (above : List Node) (f : Field) : Option FieldDef :=
  (s.selectedOn above).bind fun t => Provider.schemaField? s t f.name

/-- What arguments belong to that are written right below the given nodes. -/
def ownerBelow : List Node → Option ArgumentOwner
  | .field f :: above => (s.fieldBelow above f).map .field
  | .directive d :: _ => (s.directive? d.name).map .directive
  | _ => none

end Schema

namespace Frame

variable {s : Schema} {F : Frame} {above : List Node}

def Selects (s : Schema) (F : Frame) (nodes : List Node) : Prop :=
  (F.output.bind s.resolve?).filter TypeDef.isComposite = s.selectedOn nodes

/-- The frame of a node that stands below the given nodes, where it matters. -/
def Fits (s : Schema) (F : Frame) (above : List Node) : Node → Prop
  | .operation o => F.Selects s (.operation o :: above)
  | .fragment f => F.Selects s (.fragment f :: above)
  | .inlineFragment i => F.Selects s (.inlineFragment i :: above)
  | .selectionSet ss => F.Selects s (.selectionSet ss :: above) ∧ F.parent = s.selectedOn above
  | .field f => F.Selects s (.field f :: above) ∧ F.parent = s.selectedOn above ∧
      F.field = s.fieldBelow above f ∧ F.owner = s.ownerBelow (.field f :: above)
  | .directive d => F.directive = s.directive? d.name ∧
      F.owner = s.ownerBelow (.directive d :: above)
  | .argument a => F.owner = s.ownerBelow above ∧
      F.argument = (s.ownerBelow above).bind (·.argument? a.name) ∧
      ∀ f rest, above = .field f :: rest → F.parent = s.selectedOn rest
  | _ => True

theorem selects_operation (hs : s.Closed) (o : Operation) :
    (F.enter .standard s (.operation o)).Selects s (.operation o :: above) := by
  rw [Selects, Schema.selectedOn, enter]
  cases hroot : s.root? o.kind with
  | none => rfl
  | some root =>
    have htype : s.resolve? (.named root.name) = some (.object root) := hs.root hroot
    simp [htype, TypeDef.isComposite]

theorem filter_conditionType (c : Name) :
    ((conditionType .standard s c).bind s.resolve?).filter TypeDef.isComposite =
      s.composite? c.text := by
  cases ht : s.type? c.text with
  | none => simp [conditionType, Provider.standard, Schema.composite?, ht]
  | some t =>
    by_cases hcomposite : t.isComposite
    · rw [resolve_conditionType ht hcomposite, Schema.composite?, ht]
    · have hname : s.resolve? (.named t.name) = some t := by
        rw [Schema.resolve?, TypeRef.name, (Schema.mem_of_type? ht).2, ht]
      rw [conditionType, Schema.composite?, ht]
      simp only [Provider.standard, ht]
      split
      · rw [Option.bind_some, hname]
      · simp [Option.filter, hcomposite]

theorem selects_fragment (f : Fragment) :
    (F.enter .standard s (.fragment f)).Selects s (.fragment f :: above) :=
  filter_conditionType f.condition

theorem fits_selectionSet {n : Node} (h : F.Selects s (n :: above)) (ss : List Selection) :
    (F.enter .standard s (.selectionSet ss)).Fits s (n :: above) (.selectionSet ss) := by
  refine ⟨h, ?_⟩
  rw [← h]
  simp only [enter, enterSelectionSet]
  cases F.output.bind s.resolve? <;> rfl

theorem fits_field {ss : List Selection} (h : F.Fits s above (.selectionSet ss)) (f : Field) :
    (F.enter .standard s (.field f)).Fits s (.selectionSet ss :: above) (.field f) := by
  have hparent : F.parent = s.selectedOn (.selectionSet ss :: above) := h.2
  have hfield : (F.enterField .standard s f).field =
      s.fieldBelow (.selectionSet ss :: above) f := by
    rw [enterField, Schema.fieldBelow, hparent]
    rfl
  have houtput : (F.enterField .standard s f).output =
      (s.fieldBelow (.selectionSet ss :: above) f).map FieldDef.type :=
    congrArg (Option.map FieldDef.type) hfield
  have hselected : s.selectedOn (.field f :: .selectionSet ss :: above) =
      (s.fieldBelow (.selectionSet ss :: above) f).bind fun d => s.composite? d.type.name := rfl
  refine ⟨?_, hparent, hfield, congrArg (Option.map ArgumentOwner.field) hfield⟩
  rw [Selects, hselected, enter, houtput]
  cases s.fieldBelow (.selectionSet ss :: above) f <;> rfl

theorem fits_inlineFragment {ss : List Selection} (h : F.Fits s above (.selectionSet ss))
    (i : InlineFragment) : (F.enter .standard s (.inlineFragment i)).Fits s
      (.selectionSet ss :: above) (.inlineFragment i) := by
  rw [Fits, Selects, Schema.selectedOn, enter]
  cases hi : i.condition with
  | none =>
    rw [resolve_inline hi]
    exact h.1
  | some c =>
    simp only [enterInlineFragment, hi]
    exact filter_conditionType c

theorem fits_selection {ss : List Selection} (h : F.Fits s above (.selectionSet ss))
    (x : Selection) :
    (F.enter .standard s x.node).Fits s (.selectionSet ss :: above) x.node := by
  cases x with
  | field f => exact fits_field h f
  | spread y => trivial
  | inline i => exact fits_inlineFragment h i

theorem fits_directive (d : Directive) :
    (F.enter .standard s (.directive d)).Fits s above (.directive d) :=
  ⟨rfl, rfl⟩

theorem fits_argument {n : Node} (howner : F.owner = s.ownerBelow (n :: above))
    (hparent : ∀ f, n = .field f → F.parent = s.selectedOn above) (a : Argument) :
    (F.enter .standard s (.argument a)).Fits s (n :: above) (.argument a) := by
  refine ⟨howner, ?_, ?_⟩
  · rw [← howner]
    rfl
  · rintro f rest heq
    obtain ⟨rfl, rfl⟩ := List.cons.inj heq
    exact hparent f rfl

theorem Fits.selects {n : Node} (h : F.Fits s above n) (hn : n.opensSelections) :
    F.Selects s (n :: above) := by
  cases n with
  | operation _ | fragment _ | inlineFragment _ => exact h
  | field _ => exact h.1
  | _ => cases hn

theorem Fits.enter (hs : s.Closed) {n : Node} (h : F.Fits s above n) {c : Child}
    (hc : c ∈ n.children) : (F.enter .standard s c.node).Fits s (n :: above) c.node := by
  have hcarries := Node.carries_child hc
  generalize c.node = m at hcarries ⊢
  cases hcarries with
  | definition d x =>
    cases x with
    | operation o => exact selects_operation hs o
    | fragment f => exact selects_fragment f
  | selectionSet ss hn => exact fits_selectionSet (h.selects hn) ss
  | selection ss x => exact fits_selection h x
  | directive d hn => exact fits_directive d
  | argument a hn =>
    cases n with
    | field f =>
      obtain ⟨-, hparent, -, howner⟩ := h
      exact fits_argument howner (fun _ _ => hparent) a
    | directive d => exact fits_argument h.2 nofun a
    | _ => cases hn
  | _ => trivial

theorem fits_document (d : Document) :
    (F.enter .standard s (.document d)).Fits s [] (.document d) :=
  trivial

end Frame
end GraphQLCheck
