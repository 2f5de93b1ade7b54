import GraphQLCheck.Proofs.Traversal.Start

/-!
What a path leads to. A key stands for the part of a node that it names and an index for a member
of a list, and `Part.at?` follows a path segment by segment. Every callback of a traversal is at
the node that its path leads to from where the traversal started (`paths_address`).
-/
namespace GraphQLCheck

universe u

/-- Documents and selection sets are lists without a key of their own. -/
def Node.part? : Node → Segment → Option Part
  | .document d, .index i => d.definitions[i]?.map fun x => .node x.node
  | .operation o, .variableDefinitions => some (.variableDefinitions o.variableDefinitions)
  | .operation o, .directives => some (.directives o.directives)
  | .operation o, .selectionSet => some (.node (.selectionSet o.selections))
  | .fragment f, .directives => some (.directives f.directives)
  | .fragment f, .selectionSet => some (.node (.selectionSet f.selections))
  | .variableDefinition d, .defaultValue => d.defaultValue.map fun x => .node (.value x)
  | .variableDefinition d, .directives => some (.directives d.directives)
  | .selectionSet s, .index i => s[i]?.map fun x => .node x.node
  | .fragmentSpread s, .directives => some (.directives s.directives)
  | .inlineFragment i, .directives => some (.directives i.directives)
  | .inlineFragment i, .selectionSet => some (.node (.selectionSet i.selections))
  | .field f, .arguments => some (.arguments f.arguments)
  | .field f, .directives => some (.directives f.directives)
  | .field f, .selectionSet => some (.node (.selectionSet f.selections))
  | .directive d, .arguments => some (.arguments d.arguments)
  | .argument a, .value => some (.node (.value a.value))
  | .value (.list xs _), .values => some (.values xs)
  | .value (.object fs _), .fields => some (.objectFields fs)
  | .objectField f, .value => some (.node (.value f.value))
  | _, _ => none

namespace Part

def step? : Part → Segment → Option Part
  | .node n, s => n.part? s
  | .arguments as, .index i => as[i]?.map fun a => .node (.argument a)
  | .directives ds, .index i => ds[i]?.map fun d => .node (.directive d)
  | .variableDefinitions ds, .index i => ds[i]?.map fun d => .node (.variableDefinition d)
  | .values xs, .index i => xs[i]?.map fun x => .node (.value x)
  | .objectFields fs, .index i => fs[i]?.map fun f => .node (.objectField f)
  | _, _ => none

def at? : Part → List Segment → Option Part
  | x, [] => some x
  | x, s :: steps => (x.step? s).bind fun y => y.at? steps

theorem at?_append (x : Part) (p q : List Segment) :
    x.at? (p ++ q) = (x.at? p).bind fun y => y.at? q := by
  induction p generalizing x with
  | nil => rfl
  | cons s p ih =>
    rw [List.cons_append, at?, at?]
    cases x.step? s with
    | none => rfl
    | some y => exact ih y

end Part

theorem Child.getElem?_of_mem_items {α : Type} {part : List Segment} {node : α → Node} {i : Nat}
    {as : List α} {c : Child} (h : c ∈ items part node i as) :
    ∃ j a, as[j]? = some a ∧ c = ⟨part ++ [.index (i + j)], node a⟩ := by
  induction as generalizing i with
  | nil => simp [items] at h
  | cons a as ih =>
    rcases List.mem_cons.1 h with rfl | h
    · exact ⟨0, a, rfl, rfl⟩
    · obtain ⟨j, b, hb, rfl⟩ := ih h
      exact ⟨j + 1, b, hb, by simp [Nat.add_comm, Nat.add_left_comm]⟩

namespace Part
open Child

theorem at?_items {α : Type} {x y : Part} {part : List Segment} {node : α → Node} {as : List α}
    (hpart : x.at? part = some y)
    (hstep : ∀ i, y.step? (.index i) = as[i]?.map fun a => .node (node a)) {c : Child}
    (hc : c ∈ items part node 0 as) : x.at? c.steps = some (.node c.node) := by
  obtain ⟨j, a, ha, rfl⟩ := getElem?_of_mem_items hc
  simp [at?_append, hpart, at?, hstep, ha]

theorem at?_child {n : Node} {c : Child} (hc : c ∈ n.children) :
    (Part.node n).at? c.steps = some (.node c.node) := by
  have hone : ∀ {s : Segment} {m : Node}, n.part? s = some (.node m) → c ∈ [Child.mk [s] m] →
      (Part.node n).at? c.steps = some (.node c.node) := by
    intro s m hs hc
    obtain rfl := List.mem_singleton.1 hc
    simp [at?, step?, hs]
  cases n with
  | document d => exact at?_items rfl (fun _ => rfl) hc
  | operation o =>
    rcases List.mem_append.1 hc with hc | hc
    · rcases List.mem_append.1 hc with hc | hc
      · exact at?_items (y := .variableDefinitions o.variableDefinitions) rfl (fun _ => rfl) hc
      · exact at?_items (y := .directives o.directives) rfl (fun _ => rfl) hc
    · exact hone rfl hc
  | fragment f =>
    rcases List.mem_append.1 hc with hc | hc
    · exact at?_items (y := .directives f.directives) rfl (fun _ => rfl) hc
    · exact hone rfl hc
  | variableDefinition d =>
    rcases List.mem_append.1 hc with hc | hc
    · obtain ⟨x, hx, rfl⟩ := Option.map_eq_some_iff.1 (Option.mem_toList.1 hc)
      simp [at?, step?, Node.part?, hx]
    · exact at?_items (y := .directives d.directives) rfl (fun _ => rfl) hc
  | selectionSet s => exact at?_items rfl (fun _ => rfl) hc
  | fragmentSpread s => exact at?_items (y := .directives s.directives) rfl (fun _ => rfl) hc
  | inlineFragment i =>
    rcases List.mem_append.1 hc with hc | hc
    · exact at?_items (y := .directives i.directives) rfl (fun _ => rfl) hc
    · exact hone rfl hc
  | field f =>
    rcases List.mem_append.1 hc with hc | hc
    · rcases List.mem_append.1 hc with hc | hc
      · exact at?_items (y := .arguments f.arguments) rfl (fun _ => rfl) hc
      · exact at?_items (y := .directives f.directives) rfl (fun _ => rfl) hc
    · exact hone rfl hc
  | directive d => exact at?_items (y := .arguments d.arguments) rfl (fun _ => rfl) hc
  | argument a => exact hone rfl hc
  | value v =>
    cases v with
    | list xs l => exact at?_items (y := .values xs) rfl (fun _ => rfl) hc
    | object fs l => exact at?_items (y := .objectFields fs) rfl (fun _ => rfl) hc
    | _ => simp [Node.children] at hc
  | objectField f => exact hone rfl hc

theorem at?_leads {n m : Node} {p : List Segment} {above : List Node} (h : Leads n p above m) :
    (Part.node n).at? p = some (.node m) := by
  induction h with
  | here n => rfl
  | down hc _ ih => rw [at?_append, at?_child hc, Option.bind_some, ih]

theorem at?_top {x : Part} {c : Child} (hc : c ∈ x.tops) :
    x.at? c.steps = some (.node c.node) := by
  cases x with
  | node n =>
    obtain rfl := List.mem_singleton.1 hc
    rfl
  | _ => exact at?_items rfl (fun _ => rfl) hc

theorem at?_place {x : Part} {y : Path × Node} (hy : y ∈ placesFrom .root x.tops) :
    x.at? y.1.segments = some (.node y.2) := by
  obtain ⟨c, hc, hy⟩ := List.mem_flatMap.1 hy
  obtain ⟨d, hd, rfl⟩ := List.mem_map.1 hy
  obtain ⟨above, hleads⟩ := Node.mem_places.1 hd
  have hpath : ((Path.root.append c.steps).append d.steps).segments = c.steps ++ d.steps := rfl
  rw [hpath, at?_append, at?_top hc, Option.bind_some, at?_leads hleads]

end Part

namespace Callback

/-- Of the callbacks before it, `b` answers the one that entered the same node by the same path:
what was called in between is nested. -/
def Closes (before : List Callback) (b : Callback) : Prop :=
  ∃ earlier e below, before = earlier ++ e :: below ∧ Nested below ∧
    e.phase = .enter ∧ e.flow = .next ∧ e.node = b.node ∧ e.path = b.path

def Paired (log : List Callback) : Prop :=
  ∀ before b after, log = before ++ b :: after → b.phase = .leave → Closes before b

theorem Closes.later {before : List Callback} {b : Callback} (h : Closes before b)
    (first : List Callback) : Closes (first ++ before) b := by
  obtain ⟨earlier, e, below, rfl, h⟩ := h
  exact ⟨first ++ earlier, e, below, (List.append_assoc _ _ _).symm, h⟩

theorem paired_nil : Paired [] := by
  intro before b after h
  simp at h

theorem Paired.cons {log : List Callback} (h : Paired log) {e : Callback}
    (he : e.phase = .enter) : Paired (e :: log) := by
  intro before b after hlog hb
  rcases List.cons_eq_append_iff.1 hlog with ⟨-, hcons⟩ | ⟨before', rfl, hrest⟩
  · obtain ⟨rfl, -⟩ := List.cons.inj hcons
    rw [he] at hb
    exact absurd hb (by simp)
  · exact (h before' b after hrest hb).later [e]

theorem Paired.append {log rest : List Callback} (h : Paired log) (hrest : Paired rest) :
    Paired (log ++ rest) := by
  intro before b after hlog hb
  rcases List.append_eq_append_iff.1 hlog with ⟨mid, rfl, hmid⟩ | ⟨mid, rfl, hmid⟩
  · exact (hrest mid b after hmid hb).later log
  · cases mid with
    | nil => simpa using (hrest [] b after hmid.symm hb).later before
    | cons d mid =>
      obtain ⟨rfl, -⟩ := List.cons.inj hmid
      exact h before b mid rfl hb

theorem Paired.concat {log : List Callback} (h : Paired log) {d : Callback} (hd : Closes log d) :
    Paired (log ++ [d]) := by
  intro before b after hlog hb
  rcases List.append_eq_append_iff.1 hlog with ⟨mid, rfl, hmid⟩ | ⟨mid, rfl, hmid⟩
  · cases mid with
    | nil =>
      obtain ⟨rfl, -⟩ := List.cons.inj hmid
      rwa [List.append_nil]
    | cons d mid => simp at hmid
  · cases mid with
    | nil =>
      obtain ⟨rfl, -⟩ := List.cons.inj hmid
      rwa [List.append_nil] at hd
    | cons d mid =>
      obtain ⟨rfl, -⟩ := List.cons.inj hmid
      exact h before b mid rfl hb

theorem Paired.around {log : List Callback} (h : Paired log) (hnested : Nested log) (n : Node)
    (p : Path) (flow : Flow) :
    Paired (⟨.enter, n, p, .next⟩ :: (log ++ [⟨.leave, n, p, flow⟩])) :=
  (h.cons rfl).concat ⟨[], ⟨.enter, n, p, .next⟩, log, rfl, hnested, rfl, rfl, rfl, rfl⟩

end Callback

theorem Traversal.paired {σ : Type u} {v : Visitor σ} {p : Path} {cs : List Child} {s s' : σ}
    {log : List Callback} {ended : Bool} (h : Traversal v p cs s log ended s') :
    Callback.Paired log := by
  induction h with
  | nil => exact Callback.paired_nil
  | passed _ _ ih => exact ih.cons rfl
  | ended => exact Callback.paired_nil.cons rfl
  | endedBelow _ _ ih => exact ih.cons rfl
  | endedLeaving _ hbelow _ ih => exact ih.around (hbelow.nested rfl) _ _ _
  | @left p c _ _ _ _ _ _ flow _ _ _ _ hbelow _ _ _ ihbelow ihrest =>
    have hnode := ihbelow.around (hbelow.nested rfl) c.node (p.append c.steps) flow
    simpa using hnode.append ihrest

/-- Every callback is at the node that its path leads to, and a node is left by the path by which
it was entered. Different nodes that are visited have different paths, and a traversal that nothing
ended is back where it started. -/
theorem paths_address {σ : Type u} (x : Part) (v : Visitor σ) (s : σ) :
    (∀ b ∈ x.callbacks v s, x.at? b.path.segments = some (.node b.node)) ∧
    (∀ before b after, x.callbacks v s = before ++ b :: after → b.phase = .leave →
      Callback.Closes before b) ∧
    ((Callback.entered (x.callbacks v s)).map Prod.fst).Nodup ∧
    ((x.tour v ⟨.root, s⟩).1 ≠ .stop → (x.tour v ⟨.root, s⟩).2.path = .root) := by
  have h := x.traversal_callbacks v s
  have hentered : ∀ b ∈ x.callbacks v s, b.phase = .enter →
      x.at? b.path.segments = some (.node b.node) := by
    intro b hb hphase
    have hplace : b.place ∈ Callback.entered (x.callbacks v s) :=
      List.mem_map_of_mem (List.mem_filter.2 ⟨hb, by simp [hphase]⟩)
    exact Part.at?_place (h.entered_sublist.subset hplace)
  refine ⟨fun b hb => ?_, h.paired,
    (Child.nodup_placesFrom .root x.pairwise_tops).sublist (h.entered_sublist.map Prod.fst), ?_⟩
  · cases hphase : b.phase with
    | enter => exact hentered b hb hphase
    | leave =>
      -- The callback that entered the node has its path.
      obtain ⟨before, after, hlog⟩ := List.append_of_mem hb
      obtain ⟨earlier, e, below, rfl, -, he, -, hnode, hpath⟩ := h.paired before b after hlog hphase
      rw [← hnode, ← hpath]
      exact hentered e (by simp [hlog]) he
  · intro hgoing
    have hended : decide (((x.tour v).start s).1 = .stop) = false := decide_eq_false hgoing
    rw [hended] at h
    obtain ⟨flow, -, hw⟩ := h.tour_going (w := ⟨.root, s⟩)
    rw [hw]

end GraphQLCheck
