import GraphQLCheck.Proofs.Traversal.Nesting

/-!
Where traversals start, and that they follow the reference from there: `visit_eq_reference` says
so of every node and every list of nodes, and of every visitor.
-/
namespace GraphQLCheck

universe u

/-- What a traversal may start at: a node, or one of the lists that nodes hold. -/
inductive Part
  | node (n : Node)
  | arguments (as : List Argument)
  | directives (ds : List Directive)
  | variableDefinitions (ds : List VariableDefinition)
  | values (xs : List Value)
  | objectFields (fs : List ObjectField)

section
variable {σ : Type u} (v : Visitor σ)

def Node.tour : Node → Tour σ
  | .document d => visitDocument v d
  | .operation o => visitOperation v o
  | .fragment f => visitFragment v f
  | .variableDefinition d => visitVariableDefinition v d
  | .selectionSet s => visitSelectionSet v s
  | .fragmentSpread s => visitFragmentSpread v s
  | .inlineFragment i => visitInlineFragment v i
  | .field f => visitField v f
  | .directive d => visitDirective v d
  | .argument a => visitArgument v a
  | .value x => visitValue v x
  | .objectField f => visitObjectField v f

def Part.tour : Part → Tour σ
  | .node n => n.tour v
  | .arguments as => visitArguments v as
  | .directives ds => visitDirectives v ds
  | .variableDefinitions ds => visitVariableDefinitions v ds
  | .values xs => visitValues v 0 xs
  | .objectFields fs => visitObjectFields v 0 fs

def Part.tops : Part → List Child
  | .node n => [⟨[], n⟩]
  | .arguments as => Child.items [] .argument 0 as
  | .directives ds => Child.items [] .directive 0 ds
  | .variableDefinitions ds => Child.items [] .variableDefinition 0 ds
  | .values xs => Child.items [] .value 0 xs
  | .objectFields fs => Child.items [] .objectField 0 fs

theorem Part.pairwise_tops (x : Part) : x.tops.Pairwise Child.Apart := by
  cases x with
  | node n => exact List.pairwise_singleton _ _
  | _ => exact Child.pairwise_items _ _ _ _

variable {v}

theorem Node.visits_tour (n : Node) : (n.tour v).Visits v fun p => n.tree p := by
  cases n with
  | document d => exact visits_document d
  | operation o => exact visits_operation o
  | fragment f => exact visits_fragment f
  | variableDefinition d => exact visits_variableDefinition d
  | selectionSet s => exact visits_selectionSet s
  | fragmentSpread s => exact visits_fragmentSpread s
  | inlineFragment i => exact visits_inlineFragment i
  | field f => exact visits_field f
  | directive d => exact visits_directive d
  | argument a => exact visits_argument a
  | value x => exact visits_value x
  | objectField f => exact visits_objectField f

theorem Part.visitsAll_tour (x : Part) :
    (x.tour v).VisitsAll v fun p => x.tops.map (Child.tree p) := by
  cases x with
  | node n =>
    intro w
    have htree : Child.tree w.path ⟨[], n⟩ = n.tree w.path := by simp [Child.tree, Path.append]
    simp only [tour, tops, List.map_singleton, htree, Tree.runAll]
    rcases n.visits_tour w with ⟨q, s, hw, hr⟩ | ⟨flow, s, hflow, hw, hr⟩
    · exact .inl ⟨q, s, hw, by simp [hr]⟩
    · refine .inr ⟨flow, s, hflow, hw, ?_⟩
      cases flow <;> simp_all
  | arguments as => exact Tour.visitsAll_each visits_argument 0 as
  | directives ds => exact Tour.visitsAll_each visits_directive 0 ds
  | variableDefinitions ds => exact Tour.visitsAll_each visits_variableDefinition 0 ds
  | values xs => exact visits_values 0 xs
  | objectFields fs => exact visits_objectFields 0 fs

end

section
variable {σ : Type u} {v : Visitor σ} {x : Part} {w : Walk σ} {log : List Callback} {s : σ}

theorem Traversal.tour_ended (h : Traversal v w.path x.tops w.state log true s) :
    ∃ q, x.tour v w = (.stop, ⟨q, s⟩) := by
  rcases x.visitsAll_tour w with ⟨q, s', hw, hr⟩ | ⟨flow, s', -, -, hr⟩
  · obtain ⟨-, rfl⟩ := Prod.mk.inj (h.runAll_eq.symm.trans hr)
    exact ⟨q, hw⟩
  · exact absurd (h.runAll_eq.symm.trans hr) (by simp [outcome])

theorem Traversal.tour_going (h : Traversal v w.path x.tops w.state log false s) :
    ∃ flow, flow ≠ .stop ∧ x.tour v w = (flow, ⟨w.path, s⟩) := by
  rcases x.visitsAll_tour w with ⟨q, s', -, hr⟩ | ⟨flow, s', hflow, hw, hr⟩
  · exact absurd (h.runAll_eq.symm.trans hr) (by simp [outcome])
  · obtain ⟨-, rfl⟩ := Prod.mk.inj (h.runAll_eq.symm.trans hr)
    exact ⟨flow, hflow, hw⟩

theorem Traversal.start_tour {ended : Bool} {s' : σ}
    (h : Traversal v .root x.tops s log ended s') :
    ((x.tour v).start s).2 = s' ∧ ended = decide (((x.tour v).start s).1 = .stop) := by
  cases ended with
  | true =>
    obtain ⟨q, hw⟩ := h.tour_ended (w := ⟨.root, s⟩)
    simp [Tour.start, hw]
  | false =>
    obtain ⟨flow, hflow, hw⟩ := h.tour_going (w := ⟨.root, s⟩)
    simp [Tour.start, hw, hflow]

end

def Part.callbacks {σ : Type u} (x : Part) (v : Visitor σ) (s : σ) : List Callback :=
  ((x.tour v.noting).start (s, [])).2.2

theorem Part.traversal_callbacks {σ : Type u} (x : Part) (v : Visitor σ) (s : σ) :
    Traversal v .root x.tops s (x.callbacks v s) (decide (((x.tour v).start s).1 = .stop))
      ((x.tour v).start s).2 := by
  obtain ⟨log, ended, s', h⟩ := Traversal.exists_traversal v .root x.tops s
  have hlog : x.callbacks v s = log := congrArg Prod.snd (h.noting []).start_tour.1
  obtain ⟨hstate, hended⟩ := h.start_tour
  rwa [hlog, hstate, ← hended]

/-- What was called by a traversal that nothing ended: each node that is not below one that was
passed over is entered once, the nodes that were gone into are left once, and the calls at a node
enclose those below it. -/
structure Callback.Whole (tops : List Child) (log : List Callback) : Prop where
  going : ∀ b ∈ log, b.flow ≠ .stop
  entered : entered log = (Child.placesFrom .root tops).filter fun x => !hides log x.1
  once : ((Callback.entered log).map Prod.fst).Nodup
  left : (left log).Perm (opened log)
  nested : Nested log

/-- A visitor makes the callbacks of the reference, which its answers alone decide on, and ends in
the state that these leave. An answer that ends the traversal is the last one, and the traversal
then tells so. -/
theorem visit_eq_reference {σ : Type u} (x : Part) (v : Visitor σ) (s : σ) :
    (∀ log ended s', Traversal v .root x.tops s log ended s' ↔
      log = x.callbacks v s ∧ ended = decide (((x.tour v).start s).1 = .stop) ∧
        s' = ((x.tour v).start s).2) ∧
    (((x.tour v).start s).1 = .stop → ∃ before b,
      x.callbacks v s = before ++ [b] ∧ b.flow = .stop ∧ ∀ a ∈ before, a.flow ≠ .stop) ∧
    (((x.tour v).start s).1 ≠ .stop → Callback.Whole x.tops (x.callbacks v s)) := by
  have h := x.traversal_callbacks v s
  refine ⟨fun log ended s' => ⟨h.unique, ?_⟩, fun hstop => h.exists_last (by simp [hstop]),
    fun hgoing => ?_⟩
  · rintro ⟨rfl, rfl, rfl⟩
    exact h
  · have hended : decide (((x.tour v).start s).1 = .stop) = false := by simp [hgoing]
    exact ⟨h.flow_ne_stop hended, h.entered_eq hended x.pairwise_tops,
      (Child.nodup_placesFrom .root x.pairwise_tops).sublist (h.entered_sublist.map Prod.fst),
      (h.nested hended).perm_left, h.nested hended⟩

end GraphQLCheck
