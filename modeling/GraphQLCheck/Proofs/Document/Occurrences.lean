import GraphQLCheck.Document.Fragments
import GraphQLCheck.Proofs.Traversal.Places

/-!
What occurs in operations and fragments. The spreads and the variables that are collected from a
selection set are those at the places below it, each place once: spreads in an order of their own
(`perm_spreads`), variables from the top down.
-/
namespace GraphQLCheck

namespace Node
open Child

section
variable {α : Type} (pick : Node → Option α)

theorem picks_argument (a : Argument) :
    (Node.argument a).picks pick =
      (pick (.argument a)).toList ++ (Node.value a.value).picks pick := by
  rw [picks_eq]
  simp [children]

theorem picks_directive (d : Directive) :
    (Node.directive d).picks pick = (pick (.directive d)).toList ++
      d.arguments.flatMap fun a => (Node.argument a).picks pick := by
  rw [picks_eq, children, flatMap_picks_items]

theorem picks_selectionSet (ss : List Selection) :
    (Node.selectionSet ss).picks pick = (pick (.selectionSet ss)).toList ++
      ss.flatMap fun s => s.node.picks pick := by
  rw [picks_eq, children, flatMap_picks_items]

theorem picks_fragmentSpread (s : FragmentSpread) :
    (Node.fragmentSpread s).picks pick = (pick (.fragmentSpread s)).toList ++
      s.directives.flatMap fun d => (Node.directive d).picks pick := by
  rw [picks_eq, children, flatMap_picks_items]

theorem picks_inlineFragment (i : InlineFragment) :
    (Node.inlineFragment i).picks pick = (pick (.inlineFragment i)).toList ++
      ((i.directives.flatMap fun d => (Node.directive d).picks pick)
        ++ (Node.selectionSet i.selections).picks pick) := by
  rw [picks_eq, children, List.flatMap_append, flatMap_picks_items, List.flatMap_singleton]

theorem picks_field (f : Field) :
    (Node.field f).picks pick = (pick (.field f)).toList ++
      ((f.arguments.flatMap fun a => (Node.argument a).picks pick)
        ++ (f.directives.flatMap fun d => (Node.directive d).picks pick)
        ++ (Node.selectionSet f.selections).picks pick) := by
  rw [picks_eq, children, List.flatMap_append, List.flatMap_append, flatMap_picks_items,
    flatMap_picks_items, List.flatMap_singleton]

theorem picks_fragment (f : Fragment) :
    (Node.fragment f).picks pick = (pick (.fragment f)).toList ++
      ((f.directives.flatMap fun d => (Node.directive d).picks pick)
        ++ (Node.selectionSet f.selections).picks pick) := by
  rw [picks_eq, children, List.flatMap_append, flatMap_picks_items, List.flatMap_singleton]

theorem picks_variableDefinition (d : VariableDefinition) :
    (Node.variableDefinition d).picks pick = (pick (.variableDefinition d)).toList ++
      ((d.defaultValue.toList.flatMap fun x => (Node.value x).picks pick)
        ++ d.directives.flatMap fun d => (Node.directive d).picks pick) := by
  rw [picks_eq, children, List.flatMap_append, flatMap_picks_items]
  cases d.defaultValue with
  | none => rfl
  | some x => simp

theorem picks_operation (o : Operation) :
    (Node.operation o).picks pick = (pick (.operation o)).toList ++
      ((o.variableDefinitions.flatMap fun d => (Node.variableDefinition d).picks pick)
        ++ (o.directives.flatMap fun d => (Node.directive d).picks pick)
        ++ (Node.selectionSet o.selections).picks pick) := by
  rw [picks_eq, children, List.flatMap_append, List.flatMap_append, flatMap_picks_items,
    flatMap_picks_items, List.flatMap_singleton]

end

def spread? : Node → Option FragmentSpread
  | .fragmentSpread s => some s
  | _ => none

theorem spread?_eq_some {n : Node} {s : FragmentSpread} :
    n.spread? = some s ↔ n = .fragmentSpread s := by
  cases n <;> simp [spread?]

theorem mem_finds_spread {n : Node} {p : List Segment} {s : FragmentSpread} :
    (p, s) ∈ n.finds spread? ↔ ∃ above, Leads n p above (.fragmentSpread s) := by
  simp [mem_finds, spread?_eq_some]

theorem spread?_of_level {n : Node} (h : 4 ≤ n.level) : n.spread? = none := by
  cases n with
  | fragmentSpread s => exact absurd h (by simp [level, classOf, NodeClass.level])
  | _ => rfl

theorem spreads_arguments (as : List Argument) :
    (as.flatMap fun a => (Node.argument a).picks spread?) = [] :=
  List.flatMap_eq_nil_iff.2 fun _ _ =>
    picks_eq_nil fun _ hm => spread?_of_level (Nat.le_of_succ_le hm)

theorem spreads_directives (ds : List Directive) :
    (ds.flatMap fun d => (Node.directive d).picks spread?) = [] :=
  List.flatMap_eq_nil_iff.2 fun _ _ => picks_eq_nil fun _ hm => spread?_of_level hm

theorem spreads_variableDefinitions (ds : List VariableDefinition) :
    (ds.flatMap fun d => (Node.variableDefinition d).picks spread?) = [] := by
  refine List.flatMap_eq_nil_iff.2 fun d _ => ?_
  have hvalue : ∀ x : Value, (Node.value x).picks spread? = [] := fun x =>
    picks_eq_nil fun _ hm => spread?_of_level (Nat.le_of_succ_le (Nat.le_of_succ_le hm))
  rw [picks_variableDefinition, spreads_directives]
  simp [hvalue, spread?]

end Node

namespace Selection
open Node

mutual

theorem perm_spreadsBelow : ∀ s : Selection,
    (s.node.picks Node.spread?).Perm (s.spread?.toList ++ spreadsBelow s)
  | .field ⟨_, _, _, _, set, _⟩ => by
    simpa [Selection.node, picks_field, spreads_arguments, spreads_directives, Node.spread?,
      spread?, spreadsBelow, spreads] using perm_spreads set
  | .spread s => by
    simp [Selection.node, picks_fragmentSpread, spreads_directives, Node.spread?, spread?,
      spreadsBelow]
  | .inline ⟨_, _, set, _⟩ => by
    simpa [Selection.node, picks_inlineFragment, spreads_directives, Node.spread?, spread?,
      spreadsBelow, spreads] using perm_spreads set

theorem perm_spreads : ∀ ss : List Selection,
    ((Node.selectionSet ss).picks Node.spread?).Perm (spreads ss)
  | [] => by
    simp [picks_selectionSet, Node.spread?, spreads, directSpreads, nestedSpreads]
  | s :: ss => by
    have hs := perm_spreadsBelow s
    have hss := perm_spreads ss
    simp only [picks_selectionSet, Node.spread?, Option.toList_none, List.nil_append] at hss ⊢
    have hdirect : directSpreads (s :: ss) = s.spread?.toList ++ directSpreads ss := by
      rw [directSpreads, List.filterMap_cons]
      cases s.spread? <;> rfl
    rw [List.flatMap_cons, spreads, hdirect, nestedSpreads]
    -- What is below `s` comes last, and in front of it what is below the others.
    refine (hs.append hss).trans ?_
    rw [spreads, List.append_assoc, List.append_assoc]
    refine List.Perm.append_left _ ?_
    rw [← List.append_assoc (directSpreads ss)]
    exact List.perm_append_comm

end

end Selection

namespace Node

theorem perm_spreads_fragment (f : Fragment) :
    ((Node.fragment f).picks spread?).Perm (Selection.spreads f.selections) := by
  rw [picks_fragment, spreads_directives]
  exact Selection.perm_spreads f.selections

theorem perm_spreads_operation (o : Operation) :
    ((Node.operation o).picks spread?).Perm (Selection.spreads o.selections) := by
  rw [picks_operation, spreads_variableDefinitions, spreads_directives]
  exact Selection.perm_spreads o.selections

def variableUse? : Node → Option Variable
  | .value (.variable x) => some x
  | _ => none

theorem variableUse?_eq_some {n : Node} {x : Variable} :
    n.variableUse? = some x ↔ n = .value (.variable x) := by
  cases n with
  | value v => cases v <;> simp [variableUse?]
  | _ => simp [variableUse?]

theorem mem_finds_variable {n : Node} {p : List Segment} {x : Variable} :
    (p, x) ∈ n.finds variableUse? ↔ ∃ above, Leads n p above (.value (.variable x)) := by
  simp [mem_finds, variableUse?_eq_some]

mutual

theorem uses_value : ∀ v : Value, (Node.value v).picks variableUse? = v.variableUses
  | .variable x => by rw [picks_eq]; rfl
  | .list items l => by
    rw [picks_eq, children, flatMap_picks_items, uses_values, Value.variableUses]
    rfl
  | .object fields l => by
    rw [picks_eq, children, flatMap_picks_items, uses_objectFields, Value.variableUses]
    rfl
  | .null => by rw [picks_eq]; rfl
  | .boolean _ _ => by rw [picks_eq]; rfl
  | .int _ _ => by rw [picks_eq]; rfl
  | .float _ _ => by rw [picks_eq]; rfl
  | .string _ _ => by rw [picks_eq]; rfl
  | .enum _ _ => by rw [picks_eq]; rfl

theorem uses_values : ∀ vs : List Value,
    (vs.flatMap fun v => (Node.value v).picks variableUse?) = Value.variableUsesOfAll vs
  | [] => rfl
  | v :: vs => by rw [List.flatMap_cons, uses_value, uses_values, Value.variableUsesOfAll]

theorem uses_objectFields : ∀ fs : List ObjectField,
    (fs.flatMap fun f => (Node.objectField f).picks variableUse?) =
      ObjectField.variableUsesOfAll fs
  | [] => rfl
  | f :: fs => by
    rw [List.flatMap_cons, uses_objectField, uses_objectFields, ObjectField.variableUsesOfAll]

theorem uses_objectField : ∀ f : ObjectField,
    (Node.objectField f).picks variableUse? = f.variableUses
  | ⟨_, x, _⟩ => by
    rw [picks_eq, children, List.flatMap_singleton, uses_value, ObjectField.variableUses]
    rfl

end

theorem uses_arguments (as : List Argument) :
    (as.flatMap fun a => (Node.argument a).picks variableUse?) =
      Argument.variableUsesOfAll as := by
  simp [picks_argument, uses_value, variableUse?, Argument.variableUsesOfAll]

theorem uses_directives (ds : List Directive) :
    (ds.flatMap fun d => (Node.directive d).picks variableUse?) =
      Directive.variableUsesOfAll ds := by
  simp [picks_directive, uses_arguments, variableUse?, Directive.variableUsesOfAll]

mutual

theorem uses_selection : ∀ s : Selection, s.node.picks variableUse? = s.variableUses
  | .field ⟨_, _, arguments, directives, set, _⟩ => by
    rw [Selection.node, picks_field, uses_arguments, uses_directives, uses_selectionSet,
      Selection.variableUses]
    rfl
  | .spread s => by
    rw [Selection.node, picks_fragmentSpread, uses_directives, Selection.variableUses]
    rfl
  | .inline ⟨_, directives, set, _⟩ => by
    rw [Selection.node, picks_inlineFragment, uses_directives, uses_selectionSet,
      Selection.variableUses]
    rfl

theorem uses_selectionSet : ∀ ss : List Selection,
    (Node.selectionSet ss).picks variableUse? = Selection.variableUsesOfAll ss
  | [] => by rw [picks_selectionSet]; rfl
  | s :: ss => by
    have hss := uses_selectionSet ss
    rw [picks_selectionSet] at hss ⊢
    rw [List.flatMap_cons, uses_selection s, Selection.variableUsesOfAll, ← hss]
    rfl

end

theorem uses_fragment (f : Fragment) : (Node.fragment f).picks variableUse? = f.variableUses := by
  rw [picks_fragment, uses_directives, uses_selectionSet, Fragment.variableUses]
  rfl

end Node
end GraphQLCheck
