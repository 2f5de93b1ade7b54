import GraphQLCheck.Proofs.Traversal.Children

/-!
Traversals as runs over trees. The tree of a node has the trees of its children below it, each
node with its path from the root. `visits_document` says that the traversal of a document does
what the run over its tree does, so that what holds of runs over all trees holds of traversals,
whatever the class of a node.
-/
namespace GraphQLCheck

universe u

inductive Tree
  | mk (path : Path) (node : Node) (below : List Tree)

def Node.tree (p : Path) (n : Node) : Tree :=
  .mk p n (n.children.attach.map fun c => c.1.node.tree (p.append c.1.steps))
termination_by sizeOf n
decreasing_by exact (child_smaller c.2).2

def Child.tree (p : Path) (c : Child) : Tree := c.node.tree (p.append c.steps)

theorem Node.tree_eq (p : Path) (n : Node) :
    n.tree p = .mk p n (n.children.map (Child.tree p)) := by
  rw [tree]
  congr 1
  exact List.attach_map_val (f := Child.tree p)

namespace Tree

variable {σ : Type u} (v : Visitor σ)

mutual

def run : Tree → σ → Flow × σ
  | .mk path node below, s =>
    match v.enter node path s with
    | (.next, s) =>
      match runAll below s with
      | (.stop, s) => (.stop, s)
      | (_, s) => v.leave node path s
    | (flow, s) => (flow, s)

def runAll : List Tree → σ → Flow × σ
  | [], s => (.next, s)
  | t :: ts, s =>
    match run t s with
    | (.stop, s) => (.stop, s)
    | (_, s) => runAll ts s

end

theorem runAll_append (ts us : List Tree) (s : σ) :
    runAll v (ts ++ us) s =
      match runAll v ts s with
      | (.stop, s) => (.stop, s)
      | (_, s) => runAll v us s := by
  induction ts generalizing s with
  | nil => rfl
  | cons t ts ih =>
    simp only [List.cons_append, runAll]
    rcases run v t s with ⟨_ | _ | _, s⟩
    · exact ih s
    · rfl
    · exact ih s

end Tree

namespace Tour

variable {σ : Type u} {α β : Type} {v : Visitor σ}

def Visits (v : Visitor σ) (t : Tour σ) (tree : Path → Tree) : Prop :=
  ∀ w : Walk σ,
    (∃ q s, t w = (.stop, ⟨q, s⟩) ∧ (tree w.path).run v w.state = (.stop, s)) ∨
    ∃ flow s, flow ≠ .stop ∧ t w = (flow, ⟨w.path, s⟩) ∧ (tree w.path).run v w.state = (flow, s)

def VisitsAll (v : Visitor σ) (t : Tour σ) (trees : Path → List Tree) : Prop :=
  ∀ w : Walk σ,
    (∃ q s, t w = (.stop, ⟨q, s⟩) ∧ Tree.runAll v (trees w.path) w.state = (.stop, s)) ∨
    ∃ flow s, flow ≠ .stop ∧ t w = (flow, ⟨w.path, s⟩) ∧
      Tree.runAll v (trees w.path) w.state = (.next, s)

theorem visitsAll_nothing : (nothing : Tour σ).VisitsAll v fun _ => [] :=
  fun w => .inr ⟨.next, w.state, by simp, rfl, rfl⟩

theorem VisitsAll.andThen {a b : Tour σ} {f g : Path → List Tree} (ha : a.VisitsAll v f)
    (hb : b.VisitsAll v g) : (a.andThen b).VisitsAll v fun p => f p ++ g p := by
  intro w
  rcases ha w with ⟨q, s, hw, hr⟩ | ⟨flow, s, hflow, hw, hr⟩
  · exact .inl ⟨q, s, by simp [Tour.andThen, hw], by simp [Tree.runAll_append, hr]⟩
  · have hthen : (a.andThen b) w = b ⟨w.path, s⟩ := by
      cases flow <;> simp_all [Tour.andThen]
    have hrun : Tree.runAll v (f w.path ++ g w.path) w.state = Tree.runAll v (g w.path) s := by
      simp [Tree.runAll_append, hr]
    simpa only [hthen, hrun] using hb ⟨w.path, s⟩

theorem VisitsAll.under {t : Tour σ} {f : Path → List Tree} (h : t.VisitsAll v f) (s : Segment) :
    (under s t).VisitsAll v fun p => f (p.push s) := by
  intro w
  rcases h { w with path := w.path.push s } with ⟨q, x, hw, hr⟩ | ⟨flow, x, hflow, hw, hr⟩
  · exact .inl ⟨q, x, by simp [Tour.under, hw], hr⟩
  · refine .inr ⟨flow, x, hflow, ?_, hr⟩
    cases flow <;> simp_all [Tour.under]

theorem Visits.under {t : Tour σ} {n : Node} (h : t.Visits v n.tree) (s : Segment) :
    (under s t).VisitsAll v fun p => [Child.tree p ⟨[s], n⟩] := by
  intro w
  rcases h { w with path := w.path.push s } with ⟨q, x, hw, hr⟩ | ⟨flow, x, hflow, hw, hr⟩
  · refine .inl ⟨q, x, by simp [Tour.under, hw], ?_⟩
    simp only [Tree.runAll, Child.tree]
    simp only [Path.push_eq_append] at hr
    simp [hr]
  · refine .inr ⟨flow, x, hflow, ?_, ?_⟩
    · cases flow <;> simp_all [Tour.under]
    · simp only [Tree.runAll, Child.tree]
      simp only [Path.push_eq_append] at hr
      cases flow <;> simp_all

theorem VisitsAll.around {t : Tour σ} {n : Node}
    (h : t.VisitsAll v fun p => n.children.map (Child.tree p)) :
    (around v n t).Visits v fun p => n.tree p := by
  intro w
  simp only [Node.tree_eq, Tree.run, Tour.around]
  rcases v.enter n w.path w.state with ⟨_ | _ | _, s⟩
  · rcases h { w with state := s } with ⟨q, x, hw, hr⟩ | ⟨flow, x, hflow, hw, hr⟩
    · exact .inl ⟨q, x, by simp [hw], by simp_all⟩
    · simp only at hr
      simp only [hw, hr]
      rcases hl : v.leave n w.path x with ⟨_ | _ | _, y⟩
      · exact .inr ⟨.next, y, by simp, by cases flow <;> simp_all, rfl⟩
      · exact .inl ⟨w.path, y, by cases flow <;> simp_all, rfl⟩
      · exact .inr ⟨.skip, y, by simp, by cases flow <;> simp_all, rfl⟩
  · exact .inl ⟨w.path, s, rfl, rfl⟩
  · exact .inr ⟨.skip, s, by simp, rfl, rfl⟩

theorem visits_childless (n : Node) (h : n.children = []) :
    (around v n nothing).Visits v fun p => n.tree p :=
  VisitsAll.around (by simpa only [h, List.map_nil] using visitsAll_nothing)

theorem visitsAll_each {visit : α → Tour σ} {node : α → Node}
    (h : ∀ a, (visit a).Visits v fun p => (node a).tree p) (i : Nat) (as : List α) :
    (each visit i as).VisitsAll v fun p => (Child.items [] node i as).map (Child.tree p) := by
  induction as generalizing i with
  | nil => exact visitsAll_nothing
  | cons a as ih => exact ((h a).under (.index i)).andThen (ih (i + 1))

theorem map_tree_items_push (p : Path) (s : Segment) (node : α → Node) (i : Nat) (as : List α) :
    (Child.items [] node i as).map (Child.tree (p.push s)) =
      (Child.items [s] node i as).map (Child.tree p) := by
  induction as generalizing i with
  | nil => rfl
  | cons a as ih =>
    simp only [Child.items, List.map_cons, ih]
    simp only [Child.tree, Path.push_eq_append, Path.append_append, List.nil_append]

theorem VisitsAll.part {t : Tour σ} {node : α → Node} {i : Nat} {as : List α}
    (h : t.VisitsAll v fun p => (Child.items [] node i as).map (Child.tree p)) (s : Segment) :
    (Tour.under s t).VisitsAll v fun p => (Child.items [s] node i as).map (Child.tree p) := by
  simpa only [map_tree_items_push] using h.under s

theorem visitsAll_part {visit : α → Tour σ} {node : α → Node}
    (h : ∀ a, (visit a).Visits v fun p => (node a).tree p) (s : Segment) (as : List α) :
    (under s (each visit 0 as)).VisitsAll v
      fun p => (Child.items [s] node 0 as).map (Child.tree p) :=
  (visitsAll_each h 0 as).part s

end Tour

section
variable {σ : Type u} {v : Visitor σ}
open Tour

mutual

theorem visits_value : ∀ x : Value, (visitValue v x).Visits v fun p => (Node.value x).tree p
  | .list items _ => VisitsAll.around ((visits_values 0 items).part .values)
  | .object fields _ => VisitsAll.around ((visits_objectFields 0 fields).part .fields)
  | .variable x => visits_childless (.value (.variable x)) rfl
  | .null => visits_childless (.value .null) rfl
  | .boolean b loc => visits_childless (.value (.boolean b loc)) rfl
  | .int digits loc => visits_childless (.value (.int digits loc)) rfl
  | .float digits loc => visits_childless (.value (.float digits loc)) rfl
  | .string text loc => visits_childless (.value (.string text loc)) rfl
  | .enum name loc => visits_childless (.value (.enum name loc)) rfl

theorem visits_values (i : Nat) : ∀ xs : List Value,
    (visitValues v i xs).VisitsAll v fun p => (Child.items [] .value i xs).map (Child.tree p)
  | [] => visitsAll_nothing
  | x :: xs => ((visits_value x).under (.index i)).andThen (visits_values (i + 1) xs)

theorem visits_objectFields (i : Nat) : ∀ fs : List ObjectField,
    (visitObjectFields v i fs).VisitsAll v
      fun p => (Child.items [] .objectField i fs).map (Child.tree p)
  | [] => visitsAll_nothing
  | f :: fs => ((visits_objectField f).under (.index i)).andThen (visits_objectFields (i + 1) fs)

theorem visits_objectField : ∀ f : ObjectField,
    (visitObjectField v f).Visits v fun p => (Node.objectField f).tree p
  | ⟨_, value, _⟩ => VisitsAll.around ((visits_value value).under .value)

end

theorem visits_argument (a : Argument) :
    (visitArgument v a).Visits v fun p => (Node.argument a).tree p :=
  VisitsAll.around ((visits_value a.value).under .value)

theorem visits_arguments (as : List Argument) :
    (under .arguments (visitArguments v as)).VisitsAll v
      fun p => (Child.items [.arguments] .argument 0 as).map (Child.tree p) :=
  visitsAll_part visits_argument .arguments as

theorem visits_directive (d : Directive) :
    (visitDirective v d).Visits v fun p => (Node.directive d).tree p :=
  VisitsAll.around (visits_arguments d.arguments)

theorem visits_directives (ds : List Directive) :
    (under .directives (visitDirectives v ds)).VisitsAll v
      fun p => (Child.items [.directives] .directive 0 ds).map (Child.tree p) :=
  visitsAll_part visits_directive .directives ds

theorem visits_fragmentSpread (s : FragmentSpread) :
    (visitFragmentSpread v s).Visits v fun p => (Node.fragmentSpread s).tree p :=
  VisitsAll.around (visits_directives s.directives)

mutual

theorem visits_selection : ∀ s : Selection,
    (visitSelection v s).Visits v fun p => s.node.tree p
  | .field f => visits_field f
  | .spread s => visits_fragmentSpread s
  | .inline i => visits_inlineFragment i

theorem visits_selections (i : Nat) : ∀ ss : List Selection,
    (visitSelections v i ss).VisitsAll v
      fun p => (Child.items [] Selection.node i ss).map (Child.tree p)
  | [] => visitsAll_nothing
  | s :: ss => ((visits_selection s).under (.index i)).andThen (visits_selections (i + 1) ss)

theorem visits_field : ∀ f : Field, (visitField v f).Visits v fun p => (Node.field f).tree p
  | ⟨_, _, arguments, directives, selections, _⟩ => by
    have hset : (around v (.selectionSet selections) (visitSelections v 0 selections)).Visits v
        fun p => (Node.selectionSet selections).tree p :=
      VisitsAll.around (visits_selections 0 selections)
    refine VisitsAll.around ?_
    simpa only [Node.children, List.map_append, List.map_cons, List.map_nil,
      List.append_assoc] using
      (visits_arguments arguments).andThen
        ((visits_directives directives).andThen (hset.under .selectionSet))

theorem visits_inlineFragment : ∀ i : InlineFragment,
    (visitInlineFragment v i).Visits v fun p => (Node.inlineFragment i).tree p
  | ⟨_, directives, selections, _⟩ => by
    have hset : (around v (.selectionSet selections) (visitSelections v 0 selections)).Visits v
        fun p => (Node.selectionSet selections).tree p :=
      VisitsAll.around (visits_selections 0 selections)
    refine VisitsAll.around ?_
    simpa only [Node.children, List.map_append, List.map_cons, List.map_nil] using
      (visits_directives directives).andThen (hset.under .selectionSet)

end

theorem visits_selectionSet (s : List Selection) :
    (visitSelectionSet v s).Visits v fun p => (Node.selectionSet s).tree p :=
  VisitsAll.around (visits_selections 0 s)

theorem visits_variableDefinition (d : VariableDefinition) :
    (visitVariableDefinition v d).Visits v fun p => (Node.variableDefinition d).tree p := by
  refine VisitsAll.around ?_
  simp only [Node.children, List.map_append]
  refine VisitsAll.andThen ?_ (visits_directives d.directives)
  cases d.defaultValue with
  | none => exact visitsAll_nothing
  | some x => exact (visits_value x).under .defaultValue

theorem visits_operation (o : Operation) :
    (visitOperation v o).Visits v fun p => (Node.operation o).tree p := by
  have hvars : (under .variableDefinitions
      (visitVariableDefinitions v o.variableDefinitions)).VisitsAll v
      fun p => (Child.items [.variableDefinitions] .variableDefinition 0
        o.variableDefinitions).map (Child.tree p) :=
    visitsAll_part visits_variableDefinition .variableDefinitions o.variableDefinitions
  refine VisitsAll.around ?_
  simpa only [Node.children, List.map_append, List.map_cons, List.map_nil,
    List.append_assoc] using
    hvars.andThen
      ((visits_directives o.directives).andThen
        ((visits_selectionSet o.selections).under .selectionSet))

theorem visits_fragment (f : Fragment) :
    (visitFragment v f).Visits v fun p => (Node.fragment f).tree p := by
  refine VisitsAll.around ?_
  simpa only [Node.children, List.map_append, List.map_cons, List.map_nil] using
    (visits_directives f.directives).andThen
      ((visits_selectionSet f.selections).under .selectionSet)

theorem visits_definition (d : Definition) :
    (visitDefinition v d).Visits v fun p => d.node.tree p := by
  cases d with
  | operation o => exact visits_operation o
  | fragment f => exact visits_fragment f

theorem visits_document (d : Document) :
    (visitDocument v d).Visits v fun p => (Node.document d).tree p :=
  VisitsAll.around (visitsAll_each visits_definition 0 d.definitions)

theorem start_visitDocument (d : Document) (s : σ) :
    (visitDocument v d).start s = ((Node.document d).tree .root).run v s := by
  rcases visits_document (v := v) d ⟨.root, s⟩ with ⟨q, x, hw, hr⟩ | ⟨flow, x, -, hw, hr⟩
  · simp only [Tour.start, hw]
    exact hr.symm
  · simp only [Tour.start, hw]
    exact hr.symm

end
end GraphQLCheck
