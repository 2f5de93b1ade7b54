import GraphQLCheck.Traversal.Visit
import Mathlib.Data.List.Pairwise

/-!
The nodes right below a node, each with the segments that lead to it. No two of them are reached
by segments of which one continues the other (`Node.pairwise_children`), so a path leads from a
node to at most one node (`Leads.unique`), through the same nodes each time.
-/
namespace GraphQLCheck

def Path.append (p : Path) (steps : List Segment) : Path := ⟨p.segments ++ steps⟩

@[simp]
theorem Path.segments_append (p : Path) (steps : List Segment) :
    (p.append steps).segments = p.segments ++ steps := rfl

theorem Path.push_eq_append (p : Path) (s : Segment) : p.push s = p.append [s] := rfl

theorem Path.append_append (p : Path) (xs ys : List Segment) :
    (p.append xs).append ys = p.append (xs ++ ys) := by
  simp [append]

def Definition.node : Definition → Node
  | .operation o => .operation o
  | .fragment f => .fragment f

def Selection.node : Selection → Node
  | .field f => .field f
  | .spread s => .fragmentSpread s
  | .inline i => .inlineFragment i

structure Child where
  steps : List Segment
  node : Node

namespace Child

variable {α : Type}

def items (part : List Segment) (node : α → Node) : Nat → List α → List Child
  | _, [] => []
  | i, a :: as => ⟨part ++ [.index i], node a⟩ :: items part node (i + 1) as

theorem mem_items {part : List Segment} {node : α → Node} {i : Nat} {as : List α} {c : Child}
    (h : c ∈ items part node i as) :
    ∃ j a, i ≤ j ∧ a ∈ as ∧ c = ⟨part ++ [.index j], node a⟩ := by
  induction as generalizing i with
  | nil => simp [items] at h
  | cons a as ih =>
    rcases List.mem_cons.1 h with rfl | h
    · exact ⟨i, a, Nat.le_refl i, List.mem_cons_self, rfl⟩
    · obtain ⟨j, b, hj, hb, hc⟩ := ih h
      exact ⟨j, b, by omega, List.mem_cons_of_mem _ hb, hc⟩

theorem exists_mem_items (part : List Segment) (node : α → Node) (i : Nat) {as : List α} {a : α}
    (h : a ∈ as) : ∃ j, ⟨part ++ [.index j], node a⟩ ∈ items part node i as := by
  induction as generalizing i with
  | nil => simp at h
  | cons b bs ih =>
    rcases List.mem_cons.1 h with rfl | h
    · exact ⟨i, List.mem_cons_self⟩
    · obtain ⟨j, hj⟩ := ih (i + 1) h
      exact ⟨j, List.mem_cons_of_mem _ hj⟩

theorem smaller_of_mem_items [SizeOf α] {part : List Segment} {node : α → Node} {i : Nat}
    {as : List α} {c : Child} {size : Nat} (h : c ∈ items part node i as)
    (hnode : ∀ a, sizeOf (node a) ≤ 1 + sizeOf a) (hsize : sizeOf as < size) :
    c.steps ≠ [] ∧ sizeOf c.node < size := by
  obtain ⟨j, a, -, ha, rfl⟩ := mem_items h
  have hmember := List.sizeOf_lt_of_mem ha
  have hwrapped := hnode a
  exact ⟨by simp, by simp only; omega⟩

def Apart (a b : Child) : Prop := ¬ a.steps <+: b.steps ∧ ¬ b.steps <+: a.steps

instance : Std.Symm Apart := ⟨fun _ _ h => ⟨h.2, h.1⟩⟩

theorem Apart.not_prefix {a b : Child} (h : Apart a b) (base : List Segment) {p q : List Segment}
    (ha : (base ++ a.steps) <+: p) (hb : (base ++ b.steps) <+: q) : ¬ p <+: q := by
  intro hpq
  rcases List.prefix_or_prefix_of_prefix (ha.trans hpq) hb with hab | hba
  · exact h.1 ((List.prefix_append_right_inj base).1 hab)
  · exact h.2 ((List.prefix_append_right_inj base).1 hba)

theorem apart_of_ne {s t : Segment} (h : s ≠ t) (xs ys : List Segment) (m n : Node) :
    Apart ⟨s :: xs, m⟩ ⟨t :: ys, n⟩ := by
  simp [Apart, List.cons_prefix_cons, h, Ne.symm h]

theorem pairwise_items (part : List Segment) (node : α → Node) (i : Nat) (as : List α) :
    (items part node i as).Pairwise Apart := by
  induction as generalizing i with
  | nil => exact .nil
  | cons a as ih =>
    refine .cons ?_ (ih (i + 1))
    intro c hc
    obtain ⟨j, b, hj, -, rfl⟩ := mem_items hc
    have hij : i ≠ j := by omega
    simp [Apart, List.prefix_append_right_inj, hij, Ne.symm hij]

theorem apart_of_mem_items {s t : Segment} (h : s ≠ t) {node : α → Node} {i : Nat} {as : List α}
    {c : Child} (hc : c ∈ items [s] node i as) (ts : List Segment) (n : Node) :
    Apart c ⟨t :: ts, n⟩ := by
  obtain ⟨_, _, -, -, rfl⟩ := mem_items hc
  exact apart_of_ne h _ _ _ _

theorem pairwise_items_concat {s t : Segment} (h : s ≠ t) (node : α → Node) (i : Nat)
    (as : List α) (n : Node) :
    (items [s] node i as ++ [Child.mk [t] n]).Pairwise Apart := by
  refine List.pairwise_append.2 ⟨pairwise_items _ _ _ _, List.pairwise_singleton _ _, ?_⟩
  intro a ha b hb
  obtain rfl := List.mem_singleton.1 hb
  exact apart_of_mem_items h ha _ _

theorem pairwise_items_append {β : Type} {s t u : Segment} (hst : s ≠ t) (hsu : s ≠ u)
    (htu : t ≠ u) (f : α → Node) (g : β → Node) (i j : Nat) (as : List α) (bs : List β) (n : Node) :
    (items [s] f i as ++ items [t] g j bs ++ [Child.mk [u] n]).Pairwise Apart := by
  rw [List.append_assoc]
  refine List.pairwise_append.2 ⟨pairwise_items _ _ _ _, pairwise_items_concat htu _ _ _ _, ?_⟩
  intro a ha b hb
  rcases List.mem_append.1 hb with hb | hb
  · obtain ⟨_, _, -, -, rfl⟩ := mem_items hb
    exact apart_of_mem_items hst ha _ _
  · obtain rfl := List.mem_singleton.1 hb
    exact apart_of_mem_items hsu ha _ _

end Child

open Child in
def Node.children : Node → List Child
  | .document d => items [] Definition.node 0 d.definitions
  | .operation o =>
    items [.variableDefinitions] .variableDefinition 0 o.variableDefinitions
      ++ items [.directives] .directive 0 o.directives
      ++ [⟨[.selectionSet], .selectionSet o.selections⟩]
  | .fragment f =>
    items [.directives] .directive 0 f.directives
      ++ [⟨[.selectionSet], .selectionSet f.selections⟩]
  | .variableDefinition d =>
    (d.defaultValue.map fun x => ⟨[.defaultValue], .value x⟩).toList
      ++ items [.directives] .directive 0 d.directives
  | .selectionSet s => items [] Selection.node 0 s
  | .fragmentSpread s => items [.directives] .directive 0 s.directives
  | .inlineFragment i =>
    items [.directives] .directive 0 i.directives
      ++ [⟨[.selectionSet], .selectionSet i.selections⟩]
  | .field f =>
    items [.arguments] .argument 0 f.arguments
      ++ items [.directives] .directive 0 f.directives
      ++ [⟨[.selectionSet], .selectionSet f.selections⟩]
  | .directive d => items [.arguments] .argument 0 d.arguments
  | .argument a => [⟨[.value], .value a.value⟩]
  | .value (.list xs _) => items [.values] .value 0 xs
  | .value (.object fs _) => items [.fields] .objectField 0 fs
  | .value _ => []
  | .objectField f => [⟨[.value], .value f.value⟩]

namespace Node
open Child

theorem pairwise_children (n : Node) : n.children.Pairwise Apart := by
  cases n with
  | document d => exact pairwise_items _ _ _ _
  | operation o => apply pairwise_items_append <;> decide
  | fragment f => exact pairwise_items_concat (by simp) _ _ _ _
  | variableDefinition d =>
    refine List.pairwise_append.2 ⟨?_, pairwise_items _ _ _ _, ?_⟩
    · cases d.defaultValue with
      | none => exact .nil
      | some x => exact List.pairwise_singleton _ _
    · intro a ha b hb
      obtain ⟨x, -, rfl⟩ := Option.map_eq_some_iff.1 (Option.mem_toList.1 ha)
      exact symm (apart_of_mem_items (by decide) hb _ _)
  | selectionSet s => exact pairwise_items _ _ _ _
  | fragmentSpread s => exact pairwise_items _ _ _ _
  | inlineFragment i => exact pairwise_items_concat (by simp) _ _ _ _
  | field f => apply pairwise_items_append <;> decide
  | directive d => exact pairwise_items _ _ _ _
  | argument a => exact List.pairwise_singleton _ _
  | value v =>
    cases v with
    | list xs l => exact pairwise_items _ _ _ _
    | object fs l => exact pairwise_items _ _ _ _
    | _ => exact .nil
  | objectField f => exact List.pairwise_singleton _ _

theorem eq_of_mem_children {n : Node} {a b : Child} (ha : a ∈ n.children) (hb : b ∈ n.children)
    (h : ¬ Apart a b) : a = b := by
  by_contra hne
  exact h (n.pairwise_children.forall ha hb hne)

theorem sizeOf_definition (d : Definition) : sizeOf d.node ≤ 1 + sizeOf d := by
  cases d <;> simp [Definition.node]

theorem sizeOf_selection (s : Selection) : sizeOf s.node ≤ 1 + sizeOf s := by
  cases s <;> simp [Selection.node]

theorem child_smaller {n : Node} {c : Child} (h : c ∈ n.children) :
    c.steps ≠ [] ∧ sizeOf c.node < sizeOf n := by
  cases n with
  | document d =>
    obtain ⟨definitions, size⟩ := d
    exact smaller_of_mem_items h sizeOf_definition (by simp; omega)
  | operation o =>
    obtain ⟨kind, name, definitions, directives, selections, loc⟩ := o
    rcases List.mem_append.1 h with h | h
    · rcases List.mem_append.1 h with h | h
      · exact smaller_of_mem_items h (by simp) (by simp; omega)
      · exact smaller_of_mem_items h (by simp) (by simp; omega)
    · obtain rfl := List.mem_singleton.1 h
      simp
      omega
  | fragment f =>
    obtain ⟨name, condition, directives, selections, loc⟩ := f
    rcases List.mem_append.1 h with h | h
    · exact smaller_of_mem_items h (by simp) (by simp; omega)
    · obtain rfl := List.mem_singleton.1 h
      simp
      omega
  | variableDefinition d =>
    obtain ⟨var, type, defaultValue, directives, loc⟩ := d
    rcases List.mem_append.1 h with h | h
    · obtain ⟨x, hx, rfl⟩ := Option.map_eq_some_iff.1 (Option.mem_toList.1 h)
      simp_all
      omega
    · exact smaller_of_mem_items h (by simp) (by simp; omega)
  | selectionSet s => exact smaller_of_mem_items h sizeOf_selection (by simp)
  | fragmentSpread s =>
    obtain ⟨name, directives, loc⟩ := s
    exact smaller_of_mem_items h (by simp) (by simp; omega)
  | inlineFragment i =>
    obtain ⟨condition, directives, selections, loc⟩ := i
    rcases List.mem_append.1 h with h | h
    · exact smaller_of_mem_items h (by simp) (by simp; omega)
    · obtain rfl := List.mem_singleton.1 h
      simp
      omega
  | field f =>
    obtain ⟨responseAlias, name, arguments, directives, selections, loc⟩ := f
    rcases List.mem_append.1 h with h | h
    · rcases List.mem_append.1 h with h | h
      · exact smaller_of_mem_items h (by simp) (by simp; omega)
      · exact smaller_of_mem_items h (by simp) (by simp; omega)
    · obtain rfl := List.mem_singleton.1 h
      simp
      omega
  | directive d =>
    obtain ⟨name, arguments, loc⟩ := d
    exact smaller_of_mem_items h (by simp) (by simp; omega)
  | argument a =>
    obtain ⟨name, value, loc⟩ := a
    obtain rfl := List.mem_singleton.1 h
    simp
    omega
  | value v =>
    cases v with
    | list xs l => exact smaller_of_mem_items h (by simp) (by simp; omega)
    | object fs l => exact smaller_of_mem_items h (by simp) (by simp; omega)
    | _ => simp [children] at h
  | objectField f =>
    obtain ⟨name, value, loc⟩ := f
    obtain rfl := List.mem_singleton.1 h
    simp
    omega

def isLiteral : Node → Bool
  | .value _ | .objectField _ => true
  | _ => false

theorem isLiteral_child {n : Node} {c : Child} (hc : c ∈ n.children) (hn : n.isLiteral) :
    c.node.isLiteral := by
  cases n with
  | value v =>
    cases v with
    | list xs l =>
      obtain ⟨_, _, -, -, rfl⟩ := mem_items hc
      rfl
    | object fs l =>
      obtain ⟨_, _, -, -, rfl⟩ := mem_items hc
      rfl
    | _ => simp [children] at hc
  | objectField f =>
    obtain rfl := List.mem_singleton.1 hc
    rfl
  | _ => simp [isLiteral] at hn

def opensSelections : Node → Bool
  | .operation _ | .fragment _ | .inlineFragment _ | .field _ => true
  | _ => false

def takesDirectives : Node → Bool
  | .operation _ | .fragment _ | .variableDefinition _ | .fragmentSpread _ | .inlineFragment _
  | .field _ => true
  | _ => false

def takesArguments : Node → Bool
  | .field _ | .directive _ => true
  | _ => false

inductive Carries : Node → Node → Prop
  | definition (d : Document) (x : Definition) : Carries (.document d) x.node
  | variableDefinition (o : Operation) (v : VariableDefinition) :
    Carries (.operation o) (.variableDefinition v)
  | selectionSet {n : Node} (ss : List Selection) (hn : n.opensSelections) :
    Carries n (.selectionSet ss)
  | selection (ss : List Selection) (x : Selection) : Carries (.selectionSet ss) x.node
  | directive {n : Node} (d : Directive) (hn : n.takesDirectives) : Carries n (.directive d)
  | argument {n : Node} (a : Argument) (hn : n.takesArguments) : Carries n (.argument a)
  | defaultValue (d : VariableDefinition) (v : Value) : Carries (.variableDefinition d) (.value v)
  | argumentValue (a : Argument) (v : Value) : Carries (.argument a) (.value v)
  | item (vs : List Value) (loc : Option Location) (v : Value) :
    Carries (.value (.list vs loc)) (.value v)
  | objectField (fs : List ObjectField) (loc : Option Location) (f : ObjectField) :
    Carries (.value (.object fs loc)) (.objectField f)
  | fieldValue (f : ObjectField) (v : Value) : Carries (.objectField f) (.value v)

theorem carries_of_mem_items {α : Type} {n : Node} {part : List Segment} {node : α → Node} {i : Nat}
    {as : List α} {c : Child} (h : c ∈ items part node i as) (hnode : ∀ a, n.Carries (node a)) :
    n.Carries c.node := by
  obtain ⟨_, a, -, -, rfl⟩ := mem_items h
  exact hnode a

theorem carries_child {n : Node} {c : Child} (hc : c ∈ n.children) : n.Carries c.node := by
  have hdirectives : ∀ {ds : List Directive}, c ∈ items [.directives] .directive 0 ds →
      n.takesDirectives → n.Carries c.node :=
    fun hd hn => carries_of_mem_items hd fun d => .directive d hn
  have hselections : ∀ {ss : List Selection}, c ∈ [Child.mk [.selectionSet] (.selectionSet ss)] →
      n.opensSelections → n.Carries c.node := by
    intro ss hset hn
    obtain rfl := List.mem_singleton.1 hset
    exact .selectionSet ss hn
  cases n with
  | document d => exact carries_of_mem_items hc (.definition d)
  | operation o =>
    obtain hc | hc := List.mem_append.1 hc
    · obtain hc | hc := List.mem_append.1 hc
      · exact carries_of_mem_items hc (.variableDefinition o)
      · exact hdirectives hc rfl
    · exact hselections hc rfl
  | fragment f =>
    obtain hc | hc := List.mem_append.1 hc
    · exact hdirectives hc rfl
    · exact hselections hc rfl
  | variableDefinition d =>
    obtain hc | hc := List.mem_append.1 hc
    · obtain ⟨v, -, rfl⟩ := Option.map_eq_some_iff.1 (Option.mem_toList.1 hc)
      exact .defaultValue d v
    · exact hdirectives hc rfl
  | selectionSet ss => exact carries_of_mem_items hc (.selection ss)
  | fragmentSpread x => exact hdirectives hc rfl
  | inlineFragment i =>
    obtain hc | hc := List.mem_append.1 hc
    · exact hdirectives hc rfl
    · exact hselections hc rfl
  | field f =>
    obtain hc | hc := List.mem_append.1 hc
    · obtain hc | hc := List.mem_append.1 hc
      · exact carries_of_mem_items hc fun a => .argument a rfl
      · exact hdirectives hc rfl
    · exact hselections hc rfl
  | directive d => exact carries_of_mem_items hc fun a => .argument a rfl
  | argument a =>
    obtain rfl := List.mem_singleton.1 hc
    exact .argumentValue a a.value
  | value v =>
    cases v with
    | list vs loc => exact carries_of_mem_items hc (.item vs loc)
    | object fs loc => exact carries_of_mem_items hc (.objectField fs loc)
    | _ => simp [children] at hc
  | objectField f =>
    obtain rfl := List.mem_singleton.1 hc
    exact .fieldValue f f.value

/-- What holds of a node if it holds of all nodes right below it, holds of every node. -/
@[elab_as_elim]
theorem childInduction {P : Node → Prop} (n : Node)
    (step : ∀ n : Node, (∀ c ∈ n.children, P c.node) → P n) : P n :=
  step n fun c hc =>
    have := (child_smaller hc).2
    childInduction c.node step
termination_by sizeOf n

end Node

/-- `Leads n p above m`: the path `p` leads from `n` down to `m`, by way of the nodes `above`. -/
inductive Leads : Node → List Segment → List Node → Node → Prop
  | here (n : Node) : Leads n [] [] n
  | down {n m : Node} {c : Child} {p : List Segment} {above : List Node} :
    c ∈ n.children → Leads c.node p above m → Leads n (c.steps ++ p) (n :: above) m

namespace Leads

variable {n m k : Node} {p : List Segment} {above : List Node}

theorem unique (h : Leads n p above m) {as : List Node} (h' : Leads n p as k) :
    above = as ∧ m = k := by
  induction h generalizing as with
  | here n =>
    generalize hp : ([] : List Segment) = p at h'
    cases h' with
    | here => exact ⟨rfl, rfl⟩
    | down hc _ => exact absurd (List.append_eq_nil_iff.1 hp.symm).1 (Node.child_smaller hc).1
  | @down n m c p above hc _ ih =>
    generalize hq : c.steps ++ p = q at h'
    cases h' with
    | here => exact absurd (List.append_eq_nil_iff.1 hq).1 (Node.child_smaller hc).1
    | @down _ _ d q as hd h' =>
      -- Both ways begin at the same child: the ways to two of them would be apart.
      have hcd : c = d := by
        apply Node.eq_of_mem_children hc hd
        intro hap
        exact hap.not_prefix [] (List.prefix_append _ p) (List.prefix_append _ q)
          (hq ▸ List.prefix_rfl)
      subst hcd
      obtain rfl := List.append_cancel_left hq
      obtain ⟨rfl, rfl⟩ := ih h'
      exact ⟨rfl, rfl⟩

theorem child (h : Leads n p above m) {c : Child} (hc : c ∈ m.children) :
    Leads n (p ++ c.steps) (above ++ [m]) c.node := by
  induction h with
  | here n => simpa using Leads.down hc (.here c.node)
  | down hd _ ih =>
    rw [List.append_assoc]
    exact .down hd (ih hc)

theorem isLiteral (h : Leads n p above m) (hn : n.isLiteral) : m.isLiteral := by
  induction h with
  | here n => exact hn
  | down hc _ ih => exact ih (Node.isLiteral_child hc hn)

theorem above_not_literal (h : Leads n p above m) (hm : m.isLiteral = false) :
    ∀ k ∈ above, k.isLiteral = false := by
  induction h with
  | here n => simp
  | @down n m c p above hc h ih =>
    intro k hk
    rcases List.mem_cons.1 hk with rfl | hk
    · cases hn : k.isLiteral with
      | false => rfl
      | true => exact absurd ((h.isLiteral (Node.isLiteral_child hc hn)).symm.trans hm) (by simp)
    · exact ih hm k hk

end Leads
end GraphQLCheck
