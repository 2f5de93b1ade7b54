import GraphQLCheck.Document.Fragments
import GraphQLCheck.Proofs.Document.Unplaced
import GraphQLCheck.Proofs.Traversal.Children
import GraphQLCheck.Schema.TypeRef
import Mathlib.Data.List.Basic

/-!
What is worked out from a document without places: its texts, the nodes below each node, and what
its operations reach are those of the document with places, less the places.
-/
namespace GraphQLCheck

mutual

theorem Value.print_unplaced : ∀ v : Value, v.unplaced.print = v.print
  | .variable _ | .null | .boolean _ _ | .int _ _ | .float _ _ | .string _ _ | .enum _ _ => rfl
  | .list vs _ => by
    rw [Value.unplaced, Value.print, Value.print, Value.printAll_unplaced vs]
  | .object fs _ => by
    rw [Value.unplaced, Value.print, Value.print, ObjectField.printAll_unplaced fs]

theorem Value.printAll_unplaced :
    ∀ vs : List Value, Value.printAll (Value.unplacedAll vs) = Value.printAll vs
  | [] => rfl
  | v :: vs => by
    rw [Value.unplacedAll, Value.printAll, Value.printAll, Value.print_unplaced v,
      Value.printAll_unplaced vs]

theorem ObjectField.printAll_unplaced : ∀ fs : List ObjectField,
    ObjectField.printAll (ObjectField.unplacedAll fs) = ObjectField.printAll fs
  | [] => rfl
  | f :: fs => by
    rw [ObjectField.unplacedAll, ObjectField.printAll, ObjectField.printAll,
      ObjectField.print_unplaced f, ObjectField.printAll_unplaced fs]

theorem ObjectField.print_unplaced : ∀ f : ObjectField, f.unplaced.print = f.print
  | ⟨_, v, _⟩ => by
    rw [ObjectField.unplaced, ObjectField.print, ObjectField.print, Value.print_unplaced v]

end

theorem TypeExpr.print_unplaced (t : TypeExpr) : t.unplaced.print = t.print := by
  induction t with
  | named n => rfl
  | list t ih => rw [unplaced, print, print, ih]
  | nonNull t ih => rw [unplaced, print, print, ih]

theorem TypeExpr.name_unplaced (t : TypeExpr) : t.unplaced.name = t.name.unplaced := by
  induction t with
  | named n => rfl
  | list t ih => exact ih
  | nonNull t ih => exact ih

theorem TypeRef.ofExpr_unplaced (t : TypeExpr) : ofExpr t.unplaced = ofExpr t := by
  induction t with
  | named n => rfl
  | list t ih => rw [TypeExpr.unplaced, ofExpr, ofExpr, ih]
  | nonNull t ih => rw [TypeExpr.unplaced, ofExpr, ofExpr, ih]

def Node.unplaced : Node → Node
  | .document d => .document d.unplaced
  | .operation o => .operation o.unplaced
  | .fragment f => .fragment f.unplaced
  | .variableDefinition d => .variableDefinition d.unplaced
  | .selectionSet ss => .selectionSet (ss.map Selection.unplaced)
  | .fragmentSpread s => .fragmentSpread s.unplaced
  | .inlineFragment i => .inlineFragment i.unplaced
  | .field f => .field f.unplaced
  | .directive d => .directive d.unplaced
  | .argument a => .argument a.unplaced
  | .value v => .value v.unplaced
  | .objectField f => .objectField f.unplaced

theorem Node.classOf_unplaced (n : Node) : n.unplaced.classOf = n.classOf := by
  cases n <;> rfl

def Child.unplaced (c : Child) : Child := ⟨c.steps, c.node.unplaced⟩

theorem Child.items_unplaced {α : Type} {f : α → Node} {u : α → α}
    (h : ∀ a, f (u a) = (f a).unplaced) (part : List Segment) (i : Nat)
    (as : List α) :
    items part f i (as.map u) = (items part f i as).map Child.unplaced := by
  induction as generalizing i with
  | nil => rfl
  | cons a as ih => rw [List.map_cons, items, items, ih, List.map_cons, h, Child.unplaced]

theorem Definition.node_unplaced (d : Definition) : d.unplaced.node = d.node.unplaced := by
  cases d <;> rfl

theorem Selection.node_unplaced (s : Selection) : s.unplaced.node = s.node.unplaced := by
  cases s <;> rfl

theorem Field.unplaced_eq (f : Field) :
    f.unplaced = ⟨f.responseAlias, f.name, f.arguments.map Argument.unplaced,
      f.directives.map Directive.unplaced, f.selections.map Selection.unplaced, none⟩ := by
  cases f
  rw [Field.unplaced, Selection.unplacedAll_eq]

theorem InlineFragment.unplaced_eq (i : InlineFragment) :
    i.unplaced = ⟨i.condition.map Name.unplaced, i.directives.map Directive.unplaced,
      i.selections.map Selection.unplaced, none⟩ := by
  cases i
  rw [InlineFragment.unplaced, Selection.unplacedAll_eq]

theorem ObjectField.unplaced_eq (f : ObjectField) :
    f.unplaced = ⟨f.name, f.value.unplaced, none⟩ := by
  cases f
  rw [ObjectField.unplaced]

theorem ObjectField.name_unplaced (f : ObjectField) : f.unplaced.name = f.name := by
  rw [unplaced_eq]

theorem Value.loc_unplaced (v : Value) : v.unplaced.loc = none := by
  cases v <;> rfl

open Child in
theorem Node.children_unplaced (n : Node) :
    n.unplaced.children = n.children.map Child.unplaced := by
  have harguments := items_unplaced (f := .argument) (u := Argument.unplaced)
    (fun _ => rfl)
  have hdirectives := items_unplaced (f := .directive) (u := Directive.unplaced)
    (fun _ => rfl)
  cases n with
  | document d => exact items_unplaced Definition.node_unplaced _ _ _
  | operation o =>
    have hvariables := items_unplaced (f := .variableDefinition)
      (u := VariableDefinition.unplaced) (fun _ => rfl)
    simp only [Node.unplaced, Operation.unplaced, children, hvariables, hdirectives,
      List.map_append, List.map_cons, List.map_nil, Child.unplaced]
  | fragment f =>
    simp only [Node.unplaced, Fragment.unplaced, children, hdirectives, List.map_append,
      List.map_cons, List.map_nil, Child.unplaced]
  | variableDefinition d =>
    simp only [Node.unplaced, VariableDefinition.unplaced, children, hdirectives,
      List.map_append]
    cases d.defaultValue <;> rfl
  | selectionSet ss => exact items_unplaced Selection.node_unplaced _ _ _
  | fragmentSpread s => exact hdirectives _ _ _
  | inlineFragment i =>
    simp only [Node.unplaced, InlineFragment.unplaced_eq, children, hdirectives,
      List.map_append, List.map_cons, List.map_nil, Child.unplaced]
  | field f =>
    simp only [Node.unplaced, Field.unplaced_eq, children, harguments, hdirectives,
      List.map_append, List.map_cons, List.map_nil, Child.unplaced]
  | directive d => exact harguments _ _ _
  | argument a => rfl
  | value v =>
    cases v with
    | list vs _ =>
      simp only [Node.unplaced, Value.unplaced, Value.unplacedAll_eq, children]
      exact items_unplaced (f := .value) (fun _ => rfl) _ _ _
    | object fs _ =>
      simp only [Node.unplaced, Value.unplaced, ObjectField.unplacedAll_eq, children]
      exact items_unplaced (f := .objectField) (fun _ => rfl) _ _ _
    | _ => rfl
  | objectField f =>
    simp only [Node.unplaced, ObjectField.unplaced_eq, children, List.map_cons, List.map_nil,
      Child.unplaced]

namespace Selection

theorem directSpreads_unplaced (ss : List Selection) :
    directSpreads (ss.map unplaced) = (directSpreads ss).map FragmentSpread.unplaced := by
  rw [directSpreads, directSpreads, List.filterMap_map, List.map_filterMap]
  refine List.filterMap_congr fun s _ => ?_
  cases s <;> rfl

mutual

theorem nestedSpreads_unplaced : ∀ ss : List Selection,
    nestedSpreads (ss.map unplaced) = (nestedSpreads ss).map FragmentSpread.unplaced
  | [] => rfl
  | s :: ss => by
    rw [List.map_cons, nestedSpreads, nestedSpreads, nestedSpreads_unplaced ss,
      spreadsBelow_unplaced s, List.map_append]

theorem spreadsBelow_unplaced : ∀ s : Selection,
    spreadsBelow s.unplaced = (spreadsBelow s).map FragmentSpread.unplaced
  | .field ⟨_, _, _, _, ss, _⟩ => by
    rw [unplaced, Field.unplaced, unplacedAll_eq, spreadsBelow, spreadsBelow,
      directSpreads_unplaced, nestedSpreads_unplaced ss, List.map_append]
  | .spread _ => rfl
  | .inline ⟨_, _, ss, _⟩ => by
    rw [unplaced, InlineFragment.unplaced, unplacedAll_eq, spreadsBelow, spreadsBelow,
      directSpreads_unplaced, nestedSpreads_unplaced ss, List.map_append]

end

theorem spreads_unplaced (ss : List Selection) :
    spreads (ss.map unplaced) = (spreads ss).map FragmentSpread.unplaced := by
  rw [spreads, spreads, directSpreads_unplaced, nestedSpreads_unplaced, List.map_append]

end Selection

namespace Document

theorem operations_unplaced (d : Document) :
    d.unplaced.operations = d.operations.map Operation.unplaced := by
  rw [operations, operations, unplaced, List.filterMap_map, List.map_filterMap]
  refine List.filterMap_congr fun x _ => ?_
  cases x <;> rfl

theorem fragments_unplaced (d : Document) :
    d.unplaced.fragments = d.fragments.map Fragment.unplaced := by
  rw [fragments, fragments, unplaced, List.filterMap_map, List.map_filterMap]
  refine List.filterMap_congr fun x _ => ?_
  cases x <;> rfl

theorem fragment?_unplaced (d : Document) (name : String) :
    d.unplaced.fragment? name = (d.fragment? name).map Fragment.unplaced := by
  rw [fragment?, fragment?, fragments_unplaced, List.find?_map]
  rfl

theorem unseen_unplaced (d : Document) (seen : List String) (ss : List FragmentSpread) :
    d.unplaced.unseen seen (ss.map FragmentSpread.unplaced) =
      ((d.unseen seen ss).1.map Fragment.unplaced, (d.unseen seen ss).2) := by
  induction ss generalizing seen with
  | nil => rfl
  | cons s ss ih =>
    have hname : s.unplaced.name.text = s.name.text := rfl
    simp only [List.map_cons, unseen, hname, fragment?_unplaced, ih]
    split
    · rfl
    · cases d.fragment? s.name.text <;> rfl

theorem reachWithin_unplaced (d : Document) (n : Nat) (seen : List String)
    (waiting : List (List Selection)) :
    d.unplaced.reachWithin n seen (waiting.map (List.map Selection.unplaced)) =
      (d.reachWithin n seen waiting).map Fragment.unplaced := by
  induction n generalizing seen waiting with
  | zero => rfl
  | succ n ih =>
    cases waiting with
    | nil => rfl
    | cons set waiting =>
      have hselections : ∀ fs : List Fragment,
          (fs.map Fragment.unplaced).reverse.map (·.selections) =
            (fs.reverse.map (·.selections)).map (List.map Selection.unplaced) := by
        intro fs
        rw [← List.map_reverse, List.map_map, List.map_map]
        rfl
      simp only [List.map_cons, reachWithin, Selection.spreads_unplaced, unseen_unplaced,
        List.map_append, hselections]
      rw [← List.map_append, ih]

theorem referencedFragments_unplaced (d : Document) (o : Operation) :
    d.unplaced.referencedFragments o.unplaced =
      (d.referencedFragments o).map Fragment.unplaced := by
  rw [referencedFragments, referencedFragments, fragments_unplaced, List.length_map]
  exact d.reachWithin_unplaced _ [] [o.selections]

end Document

mutual

theorem Value.variableUses_unplaced :
    ∀ v : Value, v.unplaced.variableUses = v.variableUses.map Variable.unplaced
  | .variable _ | .null | .boolean _ _ | .int _ _ | .float _ _ | .string _ _ | .enum _ _ => rfl
  | .list vs _ => Value.variableUsesOfAll_unplaced vs
  | .object fs _ => ObjectField.variableUsesOfAll_unplaced fs

theorem Value.variableUsesOfAll_unplaced : ∀ vs : List Value,
    Value.variableUsesOfAll (Value.unplacedAll vs) =
      (Value.variableUsesOfAll vs).map Variable.unplaced
  | [] => rfl
  | v :: vs => by
    rw [Value.unplacedAll, Value.variableUsesOfAll, Value.variableUsesOfAll, List.map_append,
      Value.variableUses_unplaced v, Value.variableUsesOfAll_unplaced vs]

theorem ObjectField.variableUsesOfAll_unplaced : ∀ fs : List ObjectField,
    ObjectField.variableUsesOfAll (ObjectField.unplacedAll fs) =
      (ObjectField.variableUsesOfAll fs).map Variable.unplaced
  | [] => rfl
  | f :: fs => by
    rw [ObjectField.unplacedAll, ObjectField.variableUsesOfAll, ObjectField.variableUsesOfAll,
      List.map_append, ObjectField.variableUses_unplaced f,
      ObjectField.variableUsesOfAll_unplaced fs]

theorem ObjectField.variableUses_unplaced :
    ∀ f : ObjectField, f.unplaced.variableUses = f.variableUses.map Variable.unplaced
  | ⟨_, v, _⟩ => Value.variableUses_unplaced v

end

theorem flatMap_uses_unplaced {α : Type} {uses : α → List Variable} {u : α → α}
    (h : ∀ a, uses (u a) = (uses a).map Variable.unplaced) (as : List α) :
    (as.map u).flatMap uses = (as.flatMap uses).map Variable.unplaced := by
  rw [List.flatMap_map, List.map_flatMap]
  exact List.flatMap_congr fun a _ => h a

theorem Argument.variableUsesOfAll_unplaced (as : List Argument) :
    variableUsesOfAll (as.map unplaced) = (variableUsesOfAll as).map Variable.unplaced :=
  flatMap_uses_unplaced (fun a => a.value.variableUses_unplaced) as

theorem Directive.variableUsesOfAll_unplaced (ds : List Directive) :
    variableUsesOfAll (ds.map unplaced) = (variableUsesOfAll ds).map Variable.unplaced :=
  flatMap_uses_unplaced (fun d => Argument.variableUsesOfAll_unplaced d.arguments) ds

mutual

theorem Selection.variableUses_unplaced :
    ∀ s : Selection, s.unplaced.variableUses = s.variableUses.map Variable.unplaced
  | .field ⟨_, _, as, ds, ss, _⟩ => by
    rw [Selection.unplaced, Field.unplaced, Selection.unplacedAll_eq, Selection.variableUses,
      Selection.variableUses, Argument.variableUsesOfAll_unplaced,
      Directive.variableUsesOfAll_unplaced, Selection.variableUsesOfAll_unplaced ss,
      List.map_append, List.map_append]
  | .spread s => Directive.variableUsesOfAll_unplaced s.directives
  | .inline ⟨_, ds, ss, _⟩ => by
    rw [Selection.unplaced, InlineFragment.unplaced, Selection.unplacedAll_eq,
      Selection.variableUses, Selection.variableUses, Directive.variableUsesOfAll_unplaced,
      Selection.variableUsesOfAll_unplaced ss, List.map_append]

theorem Selection.variableUsesOfAll_unplaced : ∀ ss : List Selection,
    Selection.variableUsesOfAll (ss.map Selection.unplaced) =
      (Selection.variableUsesOfAll ss).map Variable.unplaced
  | [] => rfl
  | s :: ss => by
    rw [List.map_cons, Selection.variableUsesOfAll, Selection.variableUsesOfAll,
      Selection.variableUses_unplaced s, Selection.variableUsesOfAll_unplaced ss,
      List.map_append]

end

theorem Operation.variableUses_unplaced (o : Operation) :
    o.unplaced.variableUses = o.variableUses.map Variable.unplaced := by
  rw [variableUses, variableUses, List.map_append]
  exact congrArg₂ _ (Directive.variableUsesOfAll_unplaced _)
    (Selection.variableUsesOfAll_unplaced _)

theorem Fragment.variableUses_unplaced (f : Fragment) :
    f.unplaced.variableUses = f.variableUses.map Variable.unplaced := by
  rw [variableUses, variableUses, List.map_append]
  exact congrArg₂ _ (Directive.variableUsesOfAll_unplaced _)
    (Selection.variableUsesOfAll_unplaced _)

theorem Document.variableUses_unplaced (d : Document) (o : Operation) :
    d.unplaced.variableUses o.unplaced = (d.variableUses o).map Variable.unplaced := by
  rw [variableUses, variableUses, referencedFragments_unplaced, o.variableUses_unplaced,
    flatMap_uses_unplaced Fragment.variableUses_unplaced, List.map_append]

end GraphQLCheck
