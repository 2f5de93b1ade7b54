import GraphQLCheck.Traversal.Node
import GraphQLCheck.Traversal.Path

/-!
Traversals in depth-first order with callbacks that carry a state. A callback that enters a node
may pass over everything below it, or end the whole traversal. The path of the current node is
part of what is carried along: a `Tour` pushes a segment where it goes down and pops it where it
comes back up.
-/
namespace GraphQLCheck

universe u

inductive Flow
  | next
  | stop
  | skip
deriving DecidableEq

structure Visitor (σ : Type u) where
  enter : Node → Path → σ → Flow × σ
  leave : Node → Path → σ → Flow × σ

def Visitor.idle {σ : Type u} : Visitor σ := ⟨fun _ _ s => (.next, s), fun _ _ s => (.next, s)⟩

structure Walk (σ : Type u) where
  path : Path
  state : σ

def Tour (σ : Type u) : Type u := Walk σ → Flow × Walk σ

namespace Tour

variable {σ : Type u} {α : Type}

def nothing : Tour σ := fun w => (.next, w)

def andThen (first second : Tour σ) : Tour σ := fun w =>
  match first w with
  | (.stop, w) => (.stop, w)
  | (_, w) => second w

def under (s : Segment) (below : Tour σ) : Tour σ := fun w =>
  match below { w with path := w.path.push s } with
  | (.stop, w) => (.stop, w)
  | (flow, w) => (flow, { w with path := w.path.pop })

def each (visit : α → Tour σ) : Nat → List α → Tour σ
  | _, [] => nothing
  | i, a :: as => (under (.index i) (visit a)).andThen (each visit (i + 1) as)

def around (v : Visitor σ) (n : Node) (below : Tour σ) : Tour σ := fun w =>
  match v.enter n w.path w.state with
  | (.next, s) =>
    match below { w with state := s } with
    | (.stop, w) => (.stop, w)
    | (_, w) =>
      let (flow, s) := v.leave n w.path w.state
      (flow, { w with state := s })
  | (flow, s) => (flow, { w with state := s })

def start (t : Tour σ) (s : σ) : Flow × σ :=
  let (flow, w) := t ⟨.root, s⟩
  (flow, w.state)

end Tour

section
variable {σ : Type u} (v : Visitor σ)
open Tour

mutual

def visitValue : Value → Tour σ
  | .list items loc => around v (.value (.list items loc)) (under .values (visitValues 0 items))
  | .object fields loc =>
    around v (.value (.object fields loc)) (under .fields (visitObjectFields 0 fields))
  | .variable x => around v (.value (.variable x)) nothing
  | .null => around v (.value .null) nothing
  | .boolean b loc => around v (.value (.boolean b loc)) nothing
  | .int digits loc => around v (.value (.int digits loc)) nothing
  | .float digits loc => around v (.value (.float digits loc)) nothing
  | .string text loc => around v (.value (.string text loc)) nothing
  | .enum name loc => around v (.value (.enum name loc)) nothing

def visitValues (i : Nat) : List Value → Tour σ
  | [] => nothing
  | x :: xs => (under (.index i) (visitValue x)).andThen (visitValues (i + 1) xs)

def visitObjectFields (i : Nat) : List ObjectField → Tour σ
  | [] => nothing
  | f :: fs => (under (.index i) (visitObjectField f)).andThen (visitObjectFields (i + 1) fs)

def visitObjectField : ObjectField → Tour σ
  | ⟨name, value, loc⟩ =>
    around v (.objectField ⟨name, value, loc⟩) (under .value (visitValue value))

end

def visitArgument (a : Argument) : Tour σ :=
  around v (.argument a) (under .value (visitValue v a.value))

def visitArguments (as : List Argument) : Tour σ := each (visitArgument v) 0 as

def visitDirective (d : Directive) : Tour σ :=
  around v (.directive d) (under .arguments (visitArguments v d.arguments))

def visitDirectives (ds : List Directive) : Tour σ := each (visitDirective v) 0 ds

def visitFragmentSpread (s : FragmentSpread) : Tour σ :=
  around v (.fragmentSpread s) (under .directives (visitDirectives v s.directives))

mutual

def visitSelection : Selection → Tour σ
  | .field f => visitField f
  | .spread s => visitFragmentSpread v s
  | .inline i => visitInlineFragment i

def visitSelections (i : Nat) : List Selection → Tour σ
  | [] => nothing
  | s :: ss => (under (.index i) (visitSelection s)).andThen (visitSelections (i + 1) ss)

def visitField : Field → Tour σ
  | ⟨responseAlias, name, arguments, directives, selections, loc⟩ =>
    around v (.field ⟨responseAlias, name, arguments, directives, selections, loc⟩)
      ((under .arguments (visitArguments v arguments)).andThen
        ((under .directives (visitDirectives v directives)).andThen
          (under .selectionSet
            (around v (.selectionSet selections) (visitSelections 0 selections)))))

def visitInlineFragment : InlineFragment → Tour σ
  | ⟨condition, directives, selections, loc⟩ =>
    around v (.inlineFragment ⟨condition, directives, selections, loc⟩)
      ((under .directives (visitDirectives v directives)).andThen
        (under .selectionSet
          (around v (.selectionSet selections) (visitSelections 0 selections))))

end

def visitSelectionSet (s : List Selection) : Tour σ :=
  around v (.selectionSet s) (visitSelections v 0 s)

def visitVariableDefinition (d : VariableDefinition) : Tour σ :=
  around v (.variableDefinition d)
    ((match d.defaultValue with
      | some x => under .defaultValue (visitValue v x)
      | none => nothing).andThen
        (under .directives (visitDirectives v d.directives)))

def visitVariableDefinitions (ds : List VariableDefinition) : Tour σ :=
  each (visitVariableDefinition v) 0 ds

def visitOperation (o : Operation) : Tour σ :=
  around v (.operation o)
    ((under .variableDefinitions (visitVariableDefinitions v o.variableDefinitions)).andThen
      ((under .directives (visitDirectives v o.directives)).andThen
        (under .selectionSet (visitSelectionSet v o.selections))))

def visitFragment (f : Fragment) : Tour σ :=
  around v (.fragment f)
    ((under .directives (visitDirectives v f.directives)).andThen
      (under .selectionSet (visitSelectionSet v f.selections)))

def visitDefinition : Definition → Tour σ
  | .operation o => visitOperation v o
  | .fragment f => visitFragment v f

def visitDocument (d : Document) : Tour σ :=
  around v (.document d) (each (visitDefinition v) 0 d.definitions)

end
end GraphQLCheck
