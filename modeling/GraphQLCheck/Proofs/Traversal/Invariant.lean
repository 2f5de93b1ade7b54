import GraphQLCheck.Proofs.Traversal.Tree

/-!
Reasoning about traversals by what the callbacks keep. `ends_run` is the rule for one visitor: what
holds in front of a node may hang on the nodes above it, and entering and leaving have to agree on
what holds below it. `run_map` is the rule for two visitors that do the same to states which differ
in what neither looks at, and `Simulates.run` the one for two visitors of which the second one may
end its traversal before the first.
-/
namespace GraphQLCheck

universe u

namespace Tree

variable {σ τ : Type u}

/-- After a callback or a part of a traversal: `ended` if that ended the traversal, and otherwise
what holds in front of what comes next, which for a node that was entered is what is below it. -/
def Ends (ended passed below : σ → Prop) : Flow × σ → Prop
  | (.stop, s) => ended s
  | (.skip, s) => passed s
  | (.next, s) => below s

section
variable {v : Visitor σ} {ended : σ → Prop}

theorem ends_runAll {kept : σ → Prop} {ts : List Tree}
    (hts : ∀ t ∈ ts, ∀ s, kept s → Ends ended kept kept (t.run v s)) {s : σ} (h : kept s) :
    Ends ended kept kept (runAll v ts s) := by
  induction ts generalizing s with
  | nil => exact h
  | cons t ts ih =>
    have ht := hts t List.mem_cons_self s h
    have hrest := fun {x} => ih (fun u hu => hts u (List.mem_cons_of_mem _ hu)) (s := x)
    simp only [runAll]
    generalize run v t s = result at ht
    rcases result with ⟨_ | _ | _, x⟩
    · exact hrest ht
    · exact ht
    · exact hrest ht

theorem ends_run {root : Node} {kept : List Node → σ → Prop}
    (henter : ∀ {n p above s}, Leads root p.segments above n → kept above s →
      Ends ended (kept above) (kept (above ++ [n])) (v.enter n p s))
    (hleave : ∀ {n p above s}, Leads root p.segments above n → kept (above ++ [n]) s →
      Ends ended (kept above) (kept above) (v.leave n p s))
    (n : Node) {p : Path} {above : List Node} {s : σ} (hn : Leads root p.segments above n)
    (h : kept above s) : Ends ended (kept above) (kept above) ((n.tree p).run v s) := by
  -- On the tree of the node: the nodes above a child are those above `n`, and `n`.
  induction n using Node.childInduction generalizing p above s with
  | step n ih =>
    have hbelow : ∀ x, kept (above ++ [n]) x → Ends ended (kept (above ++ [n]))
        (kept (above ++ [n])) (runAll v (n.children.map (Child.tree p)) x) := by
      intro x hx
      refine ends_runAll (fun t ht y hy => ?_) hx
      obtain ⟨c, hc, rfl⟩ := List.mem_map.1 ht
      exact ih c hc (hn.child hc) hy
    have he := henter hn h
    rw [Node.tree_eq]
    simp only [run]
    generalize v.enter n p s = entered at he
    rcases entered with ⟨_ | _ | _, x⟩
    · have hb := hbelow x he
      simp only
      generalize runAll v (n.children.map (Child.tree p)) x = result at hb
      rcases result with ⟨_ | _ | _, y⟩
      · exact hleave hn hb
      · exact hb
      · exact hleave hn hb
    · exact he
    · exact he

end

/-- What every callback keeps, wherever it is called. -/
structure Keeps (v : Visitor σ) (kept : σ → Prop) : Prop where
  enter : ∀ n p s, kept s → kept (v.enter n p s).2
  leave : ∀ n p s, kept s → kept (v.leave n p s).2

section
variable {v : Visitor σ} {kept : σ → Prop}

theorem Keeps.below (hv : Keeps v kept) {n : Node} {p : Path} {ts : List Tree}
    (hts : ∀ x, kept x → kept (runAll v ts x).2) {s : σ} (h : kept (v.enter n p s).2) :
    kept ((Tree.mk p n ts).run v s).2 := by
  simp only [Tree.run]
  generalize v.enter n p s = entered at h
  rcases entered with ⟨_ | _ | _, x⟩
  · have hb := hts x h
    simp only
    generalize runAll v ts x = result at hb
    rcases result with ⟨_ | _ | _, y⟩
    · exact hv.leave n p y hb
    · exact hb
    · exact hv.leave n p y hb
  · exact h
  · exact h

theorem Keeps.cons {t : Tree} {ts : List Tree} (hts : ∀ x, kept x → kept (runAll v ts x).2)
    {s : σ} (h : kept (t.run v s).2) : kept (runAll v (t :: ts) s).2 := by
  simp only [Tree.runAll]
  generalize t.run v s = result at h
  rcases result with ⟨_ | _ | _, x⟩
  · exact hts x h
  · exact h
  · exact hts x h

mutual

theorem Keeps.run (hv : Keeps v kept) : ∀ (t : Tree) {s : σ}, kept s → kept (t.run v s).2
  | .mk p n ts, s, h => hv.below (fun _ hx => hv.runAll ts hx) (hv.enter n p s h)

theorem Keeps.runAll (hv : Keeps v kept) :
    ∀ (ts : List Tree) {s : σ}, kept s → kept (runAll v ts s).2
  | [], _, h => h
  | t :: ts, _, h => Keeps.cons (fun _ hx => hv.runAll ts hx) (hv.run t h)

end

end

section
variable {v : Visitor σ} {w : Visitor τ} {f : σ → τ}

mutual

/-- A change of the state that the callbacks do not see is not seen by the traversal. -/
theorem run_map (henter : ∀ n p s, w.enter n p (f s) = Prod.map id f (v.enter n p s))
    (hleave : ∀ n p s, w.leave n p (f s) = Prod.map id f (v.leave n p s)) :
    ∀ (t : Tree) (s : σ), t.run w (f s) = Prod.map id f (t.run v s)
  | .mk p n ts, s => by
    simp only [Tree.run, henter]
    rcases v.enter n p s with ⟨_ | _ | _, x⟩
    · simp only [Prod.map_apply, id, runAll_map henter hleave ts x]
      rcases Tree.runAll v ts x with ⟨_ | _ | _, y⟩
      · exact hleave n p y
      · rfl
      · exact hleave n p y
    · rfl
    · rfl

theorem runAll_map (henter : ∀ n p s, w.enter n p (f s) = Prod.map id f (v.enter n p s))
    (hleave : ∀ n p s, w.leave n p (f s) = Prod.map id f (v.leave n p s)) :
    ∀ (ts : List Tree) (s : σ), runAll w ts (f s) = Prod.map id f (runAll v ts s)
  | [], _ => rfl
  | t :: ts, s => by
    simp only [Tree.runAll, run_map henter hleave t s]
    rcases t.run v s with ⟨_ | _ | _, x⟩
    · exact runAll_map henter hleave ts x
    · rfl
    · exact runAll_map henter hleave ts x

end

end

inductive InStep (together ahead : σ → τ → Prop) : Flow × σ → Flow × τ → Prop
  | same {flow : Flow} {s : σ} {t : τ} :
    flow ≠ .stop → together s t → InStep together ahead (flow, s) (flow, t)
  | ended {result : Flow × σ} {t : τ} :
    ahead result.2 t → InStep together ahead result (.stop, t)

/-- Two visitors keep in step until the second one ends its traversal; the first one then goes on
alone. -/
structure Simulates (v : Visitor σ) (w : Visitor τ) (together ahead : σ → τ → Prop) : Prop where
  enter : ∀ n p s t, together s t → InStep together ahead (v.enter n p s) (w.enter n p t)
  leave : ∀ n p s t, together s t → InStep together ahead (v.leave n p s) (w.leave n p t)
  alone : ∀ t, Keeps v fun s => ahead s t

section
variable {v : Visitor σ} {w : Visitor τ} {together ahead : σ → τ → Prop}

mutual

theorem Simulates.run (hv : Simulates v w together ahead) : ∀ (tree : Tree) {s : σ} {t : τ},
    together s t → InStep together ahead (tree.run v s) (tree.run w t)
  | .mk p n ts, s, t, h => by
    have he := hv.enter n p s t h
    generalize hx : v.enter n p s = x at he
    generalize hy : w.enter n p t = y at he
    cases he with
    | @same flow s' t' hflow hst =>
      have hb := hv.runAll ts hst
      cases flow with
      | next =>
        simp only [Tree.run, hx, hy]
        generalize Tree.runAll v ts s' = x' at hb
        generalize Tree.runAll w ts t' = y' at hb
        cases hb with
        | @same flow s'' t'' hflow hst =>
          cases flow with
          | next => exact hv.leave n p s'' t'' hst
          | stop => exact absurd rfl hflow
          | skip => exact hv.leave n p s'' t'' hst
        | @ended _ t'' ha =>
          refine .ended ?_
          rcases x' with ⟨_ | _ | _, s''⟩
          · exact (hv.alone t'').leave n p s'' ha
          · exact ha
          · exact (hv.alone t'').leave n p s'' ha
      | stop => exact absurd rfl hflow
      | skip =>
        simp only [Tree.run, hx, hy]
        exact .same hflow hst
    -- The first traversal may go on below the node, alone.
    | @ended _ t' ha =>
      have hrest := (hv.alone t').below (n := n) (p := p) (s := s)
        (fun _ hz => (hv.alone t').runAll ts hz) (hx ▸ ha)
      have hw : (Tree.mk p n ts).run w t = (.stop, t') := by simp only [Tree.run, hy]
      rw [hw]
      exact .ended hrest

theorem Simulates.runAll (hv : Simulates v w together ahead) :
    ∀ (trees : List Tree) {s : σ} {t : τ}, together s t →
      InStep together ahead (runAll v trees s) (runAll w trees t)
  | [], _, _, h => .same (by simp) h
  | tree :: trees, s, t, h => by
    have ht := hv.run tree h
    generalize hx : tree.run v s = x at ht
    generalize hy : tree.run w t = y at ht
    cases ht with
    | @same flow s' t' hflow hst =>
      cases flow with
      | next =>
        simp only [Tree.runAll, hx, hy]
        exact hv.runAll trees hst
      | stop => exact absurd rfl hflow
      | skip =>
        simp only [Tree.runAll, hx, hy]
        exact hv.runAll trees hst
    | @ended _ t' ha =>
      have hrest := @Keeps.cons _ v (fun z => ahead z t') tree trees
        (fun _ hz => (hv.alone t').runAll trees hz) s (hx ▸ ha)
      have hw : Tree.runAll w (tree :: trees) t = (.stop, t') := by simp only [Tree.runAll, hy]
      rw [hw]
      exact .ended hrest

end

end

end Tree
end GraphQLCheck
