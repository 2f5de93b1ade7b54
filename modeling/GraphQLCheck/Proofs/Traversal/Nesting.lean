import GraphQLCheck.Proofs.Traversal.Callbacks
import GraphQLCheck.Proofs.Traversal.Places

/-!
The order of the callbacks of a traversal. Nodes are entered from the top down and none of them
twice (`Traversal.entered_sublist`). Unless the traversal is ended, all are entered that are not
below one that was passed over (`Traversal.entered_eq`), and the callbacks at a node enclose those
below it (`Traversal.nested`).
-/
namespace GraphQLCheck

universe u

def Path.IsAbove (p q : Path) : Prop := p.segments <+: q.segments ∧ p ≠ q

instance (p q : Path) : Decidable (p.IsAbove q) := inferInstanceAs (Decidable (_ ∧ _))

namespace Callback

def place (b : Callback) : Path × Node := (b.path, b.node)

def entered (log : List Callback) : List (Path × Node) :=
  (log.filter (·.phase = .enter)).map place

def opened (log : List Callback) : List (Path × Node) :=
  (log.filter fun b => b.phase = .enter ∧ b.flow = .next).map place

def left (log : List Callback) : List (Path × Node) :=
  (log.filter (·.phase = .leave)).map place

def hides (log : List Callback) (q : Path) : Bool :=
  log.any fun b => b.phase = .enter ∧ b.flow = .skip ∧ b.path.IsAbove q

/-- Every node that is gone into is left once all is done that is below it. -/
inductive Nested : List Callback → Prop
  | nil : Nested []
  | passed (n : Node) (p : Path) {rest : List Callback} :
    Nested rest → Nested (⟨.enter, n, p, .skip⟩ :: rest)
  | around (n : Node) (p : Path) (flow : Flow) {below rest : List Callback} :
    Nested below → Nested rest →
    Nested (⟨.enter, n, p, .next⟩ :: (below ++ ⟨.leave, n, p, flow⟩ :: rest))

theorem entered_cons (n : Node) (p : Path) (flow : Flow) (log : List Callback) :
    entered (⟨.enter, n, p, flow⟩ :: log) = (p, n) :: entered log := rfl

theorem entered_around (n : Node) (p : Path) (flow : Flow) (log rest : List Callback) :
    entered (⟨.enter, n, p, .next⟩ :: (log ++ ⟨.leave, n, p, flow⟩ :: rest)) =
      (p, n) :: (entered log ++ entered rest) := by
  simp [entered, place]

theorem hides_passed (n : Node) (p q : Path) (log : List Callback) :
    hides (⟨.enter, n, p, .skip⟩ :: log) q = (decide (p.IsAbove q) || hides log q) := by
  simp [hides]

theorem hides_around (n : Node) (p q : Path) (flow : Flow) (log rest : List Callback) :
    hides (⟨.enter, n, p, .next⟩ :: (log ++ ⟨.leave, n, p, flow⟩ :: rest)) q =
      (hides log q || hides rest q) := by
  simp [hides]

theorem Nested.perm_left {log : List Callback} (h : Nested log) : (left log).Perm (opened log) := by
  induction h with
  | nil => exact .nil
  | passed n p _ ih => simpa [left, opened] using ih
  | around n p flow _ _ ihbelow ihrest =>
    simp only [left, opened, List.filter_append, List.filter_cons] at *
    simpa [place] using List.perm_middle.trans ((ihbelow.append ihrest).cons _)

end Callback

def Child.placesFrom (p : Path) (cs : List Child) : List (Path × Node) :=
  cs.flatMap fun c => c.node.places.map fun d => ((p.append c.steps).append d.steps, d.node)

namespace Child

theorem placesFrom_cons (p : Path) (c : Child) (cs : List Child) :
    placesFrom p (c :: cs) =
      (p.append c.steps, c.node) ::
        (placesFrom (p.append c.steps) c.node.children ++ placesFrom p cs) := by
  rw [placesFrom, List.flatMap_cons, Node.places_eq]
  simp [placesFrom, List.map_flatMap, onward, Function.comp_def, Path.append]

theorem prefix_of_mem_placesFrom {p : Path} {cs : List Child} {x : Path × Node}
    (h : x ∈ placesFrom p cs) : ∃ c ∈ cs, (p.append c.steps).segments <+: x.1.segments := by
  obtain ⟨c, hc, hx⟩ := List.mem_flatMap.1 h
  obtain ⟨d, -, rfl⟩ := List.mem_map.1 hx
  exact ⟨c, hc, List.prefix_append _ _⟩

theorem isAbove_of_mem_children {n : Node} {c : Child} (hc : c ∈ n.children) {p q : Path}
    (h : (p.append c.steps).segments <+: q.segments) : p.IsAbove q := by
  refine ⟨(List.prefix_append _ _).trans h, ?_⟩
  rintro rfl
  have hlength := h.length_le
  have hsteps := List.length_pos_iff.2 (Node.child_smaller hc).1
  rw [Path.segments_append, List.length_append] at hlength
  omega

theorem Apart.not_isAbove {c d : Child} (h : Apart c d) {p q : Path}
    (hq : (p.append d.steps).segments <+: q.segments) : ¬ (p.append c.steps).IsAbove q :=
  fun habove => Apart.not_prefix h p.segments List.prefix_rfl hq habove.1

end Child

namespace Traversal
open Callback Child

variable {σ : Type u} {v : Visitor σ} {p : Path} {cs : List Child} {s s' : σ}
  {log : List Callback} {ended : Bool}

theorem nested (h : Traversal v p cs s log ended s') (hended : ended = false) : Nested log := by
  induction h with
  | nil => exact .nil
  | passed _ _ ih => exact .passed _ _ (ih hended)
  | ended => simp at hended
  | endedBelow => simp at hended
  | endedLeaving => simp at hended
  | left _ _ _ _ _ ihbelow ihrest => exact .around _ _ _ (ihbelow rfl) (ihrest hended)

theorem entered_sublist (h : Traversal v p cs s log ended s') :
    (entered log).Sublist (placesFrom p cs) := by
  induction h with
  | nil => exact .slnil
  | passed _ _ ih =>
    rw [placesFrom_cons, entered_cons]
    exact (ih.trans (List.sublist_append_right _ _)).cons_cons _
  | ended =>
    rw [placesFrom_cons, entered_cons]
    exact (List.nil_sublist _).cons_cons _
  | endedBelow _ _ ih =>
    rw [placesFrom_cons, entered_cons]
    exact (ih.trans (List.sublist_append_left _ _)).cons_cons _
  | endedLeaving _ _ _ ih =>
    rw [placesFrom_cons, entered_around]
    exact (ih.append (List.nil_sublist _)).cons_cons _
  | left _ _ _ _ _ ihbelow ihrest =>
    rw [placesFrom_cons, entered_around]
    exact (ihbelow.append ihrest).cons_cons _

theorem hides_eq_false {q : Path} (h : ∀ b ∈ log, ¬ b.path.IsAbove q) : hides log q = false := by
  simp only [hides, List.any_eq_false]
  intro b hb
  simp [h b hb]

theorem hides_beside (h : Traversal v p cs s log ended s') {c : Child}
    (hapart : ∀ d ∈ cs, Apart c d) {q : Path} (hq : (p.append c.steps).segments <+: q.segments) :
    hides log q = false := by
  refine hides_eq_false fun b hb habove => ?_
  obtain ⟨d, hd, hextends⟩ := h.prefix_of_mem hb
  exact Child.Apart.not_prefix (symm (hapart d hd)) p.segments hextends hq habove.1

theorem hides_below {c : Child}
    (h : Traversal v (p.append c.steps) c.node.children s log ended s') {q : Path}
    (hq : ¬ (p.append c.steps).IsAbove q) : hides log q = false := by
  refine hides_eq_false fun b hb habove => hq ?_
  obtain ⟨d, hd, hextends⟩ := h.prefix_of_mem hb
  exact isAbove_of_mem_children hd (hextends.trans habove.1)

/-- A traversal that was not ended enters what it did not pass over. -/
theorem entered_eq (h : Traversal v p cs s log ended s') (hended : ended = false)
    (hcs : cs.Pairwise Apart) :
    entered log = (placesFrom p cs).filter fun x => !hides log x.1 := by
  induction h with
  | nil => rfl
  | @passed p c cs _ _ _ log _ _ hrest ih =>
    obtain ⟨hapart, hcs⟩ := List.pairwise_cons.1 hcs
    have hself : hides log (p.append c.steps) = false := hrest.hides_beside hapart List.prefix_rfl
    have hbelow : ((placesFrom (p.append c.steps) c.node.children).filter fun x =>
        !hides (⟨.enter, c.node, p.append c.steps, .skip⟩ :: log) x.1) = [] := by
      refine List.filter_eq_nil_iff.2 fun x hx => ?_
      obtain ⟨d, hd, hextends⟩ := prefix_of_mem_placesFrom hx
      simp [hides_passed, isAbove_of_mem_children hd hextends]
    have hbeside : ((placesFrom p cs).filter fun x =>
        !hides (⟨.enter, c.node, p.append c.steps, .skip⟩ :: log) x.1) =
        (placesFrom p cs).filter fun x => !hides log x.1 := by
      refine List.filter_congr fun x hx => ?_
      obtain ⟨d, hd, hextends⟩ := prefix_of_mem_placesFrom hx
      simp [hides_passed, (hapart d hd).not_isAbove hextends]
    rw [placesFrom_cons, entered_cons, List.filter_cons_of_pos, List.filter_append, hbelow,
      hbeside, ih hended hcs, List.nil_append]
    simp [hides_passed, hself, Path.IsAbove]
  | ended => simp at hended
  | endedBelow => simp at hended
  | endedLeaving => simp at hended
  | @left p c cs _ _ _ _ _ flow log rest _ _ hlog _ _ hrest ihbelow ihrest =>
    obtain ⟨hapart, hcs⟩ := List.pairwise_cons.1 hcs
    have hself : hides log (p.append c.steps) = false ∧ hides rest (p.append c.steps) = false :=
      ⟨hlog.hides_below (by simp [Path.IsAbove]), hrest.hides_beside hapart List.prefix_rfl⟩
    have hbelow : ((placesFrom (p.append c.steps) c.node.children).filter fun x =>
        !(hides log x.1 || hides rest x.1)) =
        (placesFrom (p.append c.steps) c.node.children).filter fun x => !hides log x.1 := by
      refine List.filter_congr fun x hx => ?_
      obtain ⟨d, hd, hextends⟩ := prefix_of_mem_placesFrom hx
      rw [hrest.hides_beside hapart (isAbove_of_mem_children hd hextends).1, Bool.or_false]
    have hbeside : ((placesFrom p cs).filter fun x => !(hides log x.1 || hides rest x.1)) =
        (placesFrom p cs).filter fun x => !hides rest x.1 := by
      refine List.filter_congr fun x hx => ?_
      obtain ⟨d, hd, hextends⟩ := prefix_of_mem_placesFrom hx
      rw [hlog.hides_below ((hapart d hd).not_isAbove hextends), Bool.false_or]
    simp only [hides_around]
    rw [placesFrom_cons, entered_around, List.filter_cons_of_pos (by simp [hself]),
      List.filter_append, hbelow, hbeside, ihbelow rfl c.node.pairwise_children,
      ihrest hended hcs]

end Traversal

theorem Child.nodup_placesFrom (p : Path) {cs : List Child} (hcs : cs.Pairwise Apart) :
    ((placesFrom p cs).map Prod.fst).Nodup := by
  have hbelow : ∀ c : Child, ((c.node.places.map fun d =>
      ((p.append c.steps).append d.steps, d.node)).map Prod.fst) =
      (c.node.places.map Child.steps).map (p.append c.steps).append := by
    intro c
    simp [Function.comp_def]
  rw [placesFrom, List.map_flatMap, List.nodup_flatMap]
  refine ⟨fun c _ => ?_, hcs.imp fun {c d} hapart q hq hq' => ?_⟩
  · rw [hbelow]
    refine c.node.nodup_steps_places.map fun xs ys hxy => ?_
    exact List.append_cancel_left (congrArg Path.segments hxy)
  · simp only [hbelow] at hq hq'
    obtain ⟨xs, -, rfl⟩ := List.mem_map.1 hq
    obtain ⟨ys, -, hys⟩ := List.mem_map.1 hq'
    exact Child.Apart.not_prefix hapart p.segments (List.prefix_append _ xs)
      ⟨ys, congrArg Path.segments hys⟩ List.prefix_rfl

end GraphQLCheck
