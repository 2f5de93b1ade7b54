import GraphQLCheck.Proofs.Validation.Position

/-!
The visits that a traversal of a whole tree makes, in their order. Those below a node stand
together (`visits_split`): before and after them no visit is at a path that continues the path of
the node.
-/
namespace GraphQLCheck

namespace Tree

variable (p : Provider) (s : Schema)

mutual

def visits (t : Tracker) : Tree → List Visit
  | .mk path n below =>
    Run.visitNow .enter n path (t.enter p s n) ::
      (visitsAll (t.enter p s n) below ++ [Run.visitNow .leave n path (t.enter p s n)])

def visitsAll (t : Tracker) : List Tree → List Visit
  | [] => []
  | tree :: trees => visits t tree ++ visitsAll t trees

end

theorem visitsAll_append (t : Tracker) (ts us : List Tree) :
    visitsAll p s t (ts ++ us) = visitsAll p s t ts ++ visitsAll p s t us := by
  induction ts with
  | nil => rfl
  | cons tree ts ih => simp [visitsAll, ih]

theorem mem_visitsAll {t : Tracker} {ts : List Tree} {v : Visit} :
    v ∈ visitsAll p s t ts ↔ ∃ tree ∈ ts, v ∈ tree.visits p s t := by
  induction ts with
  | nil => simp [visitsAll]
  | cons tree ts ih => simp [visitsAll, ih]

end Tree

namespace Node

variable {p : Provider} {s : Schema}

theorem visits_tree (q : Path) (t : Tracker) (n : Node) :
    (n.tree q).visits p s t =
      Run.visitNow .enter n q (t.enter p s n) ::
        (Tree.visitsAll p s (t.enter p s n) (n.children.map (Child.tree q))
          ++ [Run.visitNow .leave n q (t.enter p s n)]) := by
  rw [tree_eq, Tree.visits]

theorem mem_visitsAll {cs : List Child} {q : Path} {t : Tracker} {v : Visit} :
    v ∈ Tree.visitsAll p s t (cs.map (Child.tree q)) ↔ ∃ c ∈ cs, v ∈ (c.tree q).visits p s t := by
  simp [Tree.mem_visitsAll]

theorem mem_visits {n : Node} {q : Path} {t : Tracker} {v : Visit} :
    v ∈ (n.tree q).visits p s t ↔
      v = Run.visitNow .enter n q (t.enter p s n) ∨
      (∃ c ∈ n.children, v ∈ (c.tree q).visits p s (t.enter p s n)) ∨
      v = Run.visitNow .leave n q (t.enter p s n) := by
  rw [visits_tree, List.mem_cons, List.mem_append, mem_visitsAll, List.mem_singleton]

theorem mem_visits_of_child {n : Node} {c : Child} (hc : c ∈ n.children) {q : Path} {t : Tracker}
    {v : Visit} (hv : v ∈ (c.tree q).visits p s (t.enter p s n)) :
    v ∈ (n.tree q).visits p s t :=
  mem_visits.2 (.inr (.inl ⟨c, hc, hv⟩))

theorem prefix_of_mem_visits (n : Node) {q : Path} {t : Tracker} {v : Visit}
    (h : v ∈ (n.tree q).visits p s t) : q.segments <+: v.path.segments := by
  induction n using childInduction generalizing q t with
  | step n ih =>
    rcases mem_visits.1 h with rfl | ⟨c, hc, hv⟩ | rfl
    · exact List.prefix_rfl
    · exact (List.prefix_append _ _).trans (ih c hc hv)
    · exact List.prefix_rfl

theorem not_prefix_beside {n : Node} {c : Child} {cs ds : List Child}
    (hchildren : n.children = cs ++ c :: ds) {q : Path} {t : Tracker} {v : Visit}
    (hv : v ∈ Tree.visitsAll p s t (cs.map (Child.tree q))
      ++ Tree.visitsAll p s t (ds.map (Child.tree q))) :
    ¬ (q.append c.steps).segments <+: v.path.segments := by
  rw [← Tree.visitsAll_append, ← List.map_append] at hv
  obtain ⟨d, hd, hv⟩ := mem_visitsAll.1 hv
  have hpairwise := n.pairwise_children
  rw [hchildren] at hpairwise
  obtain ⟨-, hright, hcross⟩ := List.pairwise_append.1 hpairwise
  have hapart : Child.Apart c d := by
    rcases List.mem_append.1 hd with hd | hd
    · exact symm (hcross d hd c List.mem_cons_self)
    · exact (List.pairwise_cons.1 hright).1 d hd
  exact hapart.not_prefix q.segments List.prefix_rfl (d.node.prefix_of_mem_visits hv)

end Node

/-- The visits on the way to a node are those of whole trees and those on the way in at the nodes
`above`, so that they keep what each of these keeps. -/
def Approach (p : Provider) (s : Schema) (above : List Node) (visits : List Visit) : Prop :=
  ∀ {σ : Type} (f : σ → Visit → σ) (kept : σ → Prop),
    (∀ k ∈ above, ∀ q t x, kept x → kept (f x (Run.visitNow .enter k q t))) →
    (∀ (k : Node) q t x, kept x → kept (((k.tree q).visits p s t).foldl f x)) →
    ∀ x, kept x → kept (visits.foldl f x)

theorem approach_down {p : Provider} {s : Schema} {n : Node} {above : List Node}
    {visits : List Visit} (h : Approach p s above visits) (q : Path) (t : Tracker)
    (cs : List Child) :
    Approach p s (n :: above) (Run.visitNow .enter n q t ::
      (Tree.visitsAll p s t (cs.map (Child.tree q)) ++ visits)) := by
  intro σ f kept henter htree x hx
  have hcs : ∀ y, kept y → kept ((Tree.visitsAll p s t (cs.map (Child.tree q))).foldl f y) := by
    induction cs with
    | nil => exact fun y hy => hy
    | cons c cs ih =>
      intro y hy
      rw [List.map_cons, Tree.visitsAll, List.foldl_append]
      exact ih _ (htree c.node _ t y hy)
  rw [List.foldl_cons, List.foldl_append]
  refine h f kept (fun k hk => henter k (List.mem_cons_of_mem _ hk)) htree _ (hcs _ ?_)
  exact henter n List.mem_cons_self q t x hx

namespace Leads

variable {p : Provider} {s : Schema}

theorem visits_split {n m : Node} {steps : List Segment} {above : List Node}
    (h : Leads n steps above m) (q : Path) (t : Tracker) :
    ∃ before after,
      (n.tree q).visits p s t =
        before ++ (m.tree (q.append steps)).visits p s (above.foldl (Tracker.enter p s) t)
          ++ after ∧
      Approach p s above before ∧
      ∀ v ∈ before ++ after, ¬ (q.append steps).segments <+: v.path.segments := by
  induction h generalizing q t with
  | here n =>
    refine ⟨[], [], ?_, fun f kept _ _ x hx => hx, by simp⟩
    simp [Path.append]
  | @down n m c steps above hc _ ih =>
    obtain ⟨before, after, hvisits, happroach, houtside⟩ := ih (q.append c.steps) (t.enter p s n)
    obtain ⟨cs, ds, hchildren⟩ := List.append_of_mem hc
    rw [Path.append_append] at hvisits houtside
    -- The visits at `n` itself and those below its other children are not below `m`.
    have hat : ∀ {v : Visit}, v.path = q →
        ¬ (q.append (c.steps ++ steps)).segments <+: v.path.segments := by
      intro v hv hprefix
      have hlength := hprefix.length_le
      have hsteps := List.length_pos_iff.2 (Node.child_smaller hc).1
      rw [hv, Path.segments_append, List.length_append, List.length_append] at hlength
      omega
    have hbeside : ∀ {v : Visit},
        v ∈ Tree.visitsAll p s (t.enter p s n) (cs.map (Child.tree q))
          ++ Tree.visitsAll p s (t.enter p s n) (ds.map (Child.tree q)) →
        ¬ (q.append (c.steps ++ steps)).segments <+: v.path.segments := by
      intro v hv hprefix
      refine Node.not_prefix_beside hchildren hv (List.IsPrefix.trans ?_ hprefix)
      rw [← Path.append_append]
      exact List.prefix_append _ _
    refine ⟨Run.visitNow .enter n q (t.enter p s n) ::
        (Tree.visitsAll p s (t.enter p s n) (cs.map (Child.tree q)) ++ before),
      after ++ (Tree.visitsAll p s (t.enter p s n) (ds.map (Child.tree q))
        ++ [Run.visitNow .leave n q (t.enter p s n)]), ?_, approach_down happroach _ _ _, ?_⟩
    · rw [Node.visits_tree, hchildren]
      simp only [List.map_append, List.map_cons, Tree.visitsAll_append, Tree.visitsAll, Child.tree]
      rw [hvisits]
      simp
    · intro v hv
      simp only [List.mem_append, List.mem_cons, List.not_mem_nil, or_false] at hv
      rcases hv with (rfl | hv | hv) | hv | hv | rfl
      · exact hat rfl
      · exact hbeside (List.mem_append_left _ hv)
      · exact houtside v (List.mem_append_left _ hv)
      · exact houtside v (List.mem_append_right _ hv)
      · exact hbeside (List.mem_append_right _ hv)
      · exact hat rfl

end Leads
end GraphQLCheck
