import GraphQLCheck.Proofs.Traversal.Tree

/-!
Which callbacks a traversal makes. `Traversal` is the reference: it enters a node and, if the
answer was to go on, goes through the children in their order and leaves the node; what is passed
over is neither gone into nor left, and an answer that ends the traversal is the last one. A run
over trees makes just these callbacks (`Traversal.runAll_eq`), noted or not (`Traversal.noting`).
-/
namespace GraphQLCheck

universe u

structure Callback where
  phase : Phase
  node : Node
  path : Path
  flow : Flow

def Visitor.noting {σ : Type u} (v : Visitor σ) : Visitor (σ × List Callback) where
  enter n p x := ((v.enter n p x.1).1, (v.enter n p x.1).2,
    x.2 ++ [⟨.enter, n, p, (v.enter n p x.1).1⟩])
  leave n p x := ((v.leave n p x.1).1, (v.leave n p x.1).2,
    x.2 ++ [⟨.leave, n, p, (v.leave n p x.1).1⟩])

/-- A traversal of some nodes that stand side by side, and of what is below them: the callbacks it
makes, whether the last of them ended it, and the state that it leaves. -/
inductive Traversal {σ : Type u} (v : Visitor σ) :
    Path → List Child → σ → List Callback → Bool → σ → Prop
  | nil (p : Path) (s : σ) : Traversal v p [] s [] false s
  | passed {p : Path} {c : Child} {cs : List Child} {s s₁ s₂ : σ} {log : List Callback}
      {ended : Bool} :
    v.enter c.node (p.append c.steps) s = (.skip, s₁) →
    Traversal v p cs s₁ log ended s₂ →
    Traversal v p (c :: cs) s (⟨.enter, c.node, p.append c.steps, .skip⟩ :: log) ended s₂
  | ended {p : Path} {c : Child} {cs : List Child} {s s₁ : σ} :
    v.enter c.node (p.append c.steps) s = (.stop, s₁) →
    Traversal v p (c :: cs) s [⟨.enter, c.node, p.append c.steps, .stop⟩] true s₁
  | endedBelow {p : Path} {c : Child} {cs : List Child} {s s₁ s₂ : σ} {log : List Callback} :
    v.enter c.node (p.append c.steps) s = (.next, s₁) →
    Traversal v (p.append c.steps) c.node.children s₁ log true s₂ →
    Traversal v p (c :: cs) s (⟨.enter, c.node, p.append c.steps, .next⟩ :: log) true s₂
  | endedLeaving {p : Path} {c : Child} {cs : List Child} {s s₁ s₂ s₃ : σ} {log : List Callback} :
    v.enter c.node (p.append c.steps) s = (.next, s₁) →
    Traversal v (p.append c.steps) c.node.children s₁ log false s₂ →
    v.leave c.node (p.append c.steps) s₂ = (.stop, s₃) →
    Traversal v p (c :: cs) s
      (⟨.enter, c.node, p.append c.steps, .next⟩ ::
        (log ++ [⟨.leave, c.node, p.append c.steps, .stop⟩])) true s₃
  | left {p : Path} {c : Child} {cs : List Child} {s s₁ s₂ s₃ s₄ : σ} {flow : Flow}
      {log rest : List Callback} {ended : Bool} :
    v.enter c.node (p.append c.steps) s = (.next, s₁) →
    Traversal v (p.append c.steps) c.node.children s₁ log false s₂ →
    v.leave c.node (p.append c.steps) s₂ = (flow, s₃) → flow ≠ .stop →
    Traversal v p cs s₃ rest ended s₄ →
    Traversal v p (c :: cs) s
      (⟨.enter, c.node, p.append c.steps, .next⟩ ::
        (log ++ ⟨.leave, c.node, p.append c.steps, flow⟩ :: rest)) ended s₄

namespace Traversal

variable {σ : Type u} {v : Visitor σ} {p : Path} {cs : List Child} {s s' : σ}
  {log : List Callback} {ended : Bool}

theorem exists_cons {c : Child}
    (hbelow : ∀ s, ∃ log ended s', Traversal v (p.append c.steps) c.node.children s log ended s')
    (hrest : ∀ s, ∃ log ended s', Traversal v p cs s log ended s') (s : σ) :
    ∃ log ended s', Traversal v p (c :: cs) s log ended s' := by
  rcases henter : v.enter c.node (p.append c.steps) s with ⟨_ | _ | _, s₁⟩
  · obtain ⟨log, ended, s₂, hlog⟩ := hbelow s₁
    cases ended with
    | true => exact ⟨_, _, _, .endedBelow henter hlog⟩
    | false =>
      obtain ⟨rest, ended, s₄, hrest⟩ := hrest (v.leave c.node (p.append c.steps) s₂).2
      rcases hleave : v.leave c.node (p.append c.steps) s₂ with ⟨_ | _ | _, s₃⟩
      · rw [hleave] at hrest
        exact ⟨_, _, _, .left henter hlog hleave (by simp) hrest⟩
      · exact ⟨_, _, _, .endedLeaving henter hlog hleave⟩
      · rw [hleave] at hrest
        exact ⟨_, _, _, .left henter hlog hleave (by simp) hrest⟩
  · exact ⟨_, _, _, .ended henter⟩
  · obtain ⟨log, ended, s₂, hlog⟩ := hrest s₁
    exact ⟨_, _, _, .passed henter hlog⟩

theorem exists_of_nodes
    (h : ∀ c ∈ cs, ∀ p s, ∃ log ended s', Traversal v p c.node.children s log ended s')
    (p : Path) (s : σ) : ∃ log ended s', Traversal v p cs s log ended s' := by
  induction cs generalizing s with
  | nil => exact ⟨_, _, _, .nil p s⟩
  | cons c cs ih =>
    exact exists_cons (fun s => h c List.mem_cons_self _ s)
      (fun s => ih (fun d hd => h d (List.mem_cons_of_mem _ hd)) s) s

variable (v) in
theorem exists_traversal (p : Path) (cs : List Child) (s : σ) :
    ∃ log ended s', Traversal v p cs s log ended s' := by
  have hnode : ∀ n : Node, ∀ p s, ∃ log ended s', Traversal v p n.children s log ended s' := by
    intro n
    induction n using Node.childInduction with
    | step n ih => exact exists_of_nodes ih
  exact exists_of_nodes (fun c _ => hnode c.node) p s

def outcome (ended : Bool) : Flow := if ended then .stop else .next

theorem runAll_eq (h : Traversal v p cs s log ended s') :
    Tree.runAll v (cs.map (Child.tree p)) s = (outcome ended, s') := by
  induction h with
  | nil => rfl
  | passed henter _ ih => simp_all [Tree.runAll, Tree.run, Child.tree, Node.tree_eq]
  | ended henter => simp_all [Tree.runAll, Tree.run, Child.tree, Node.tree_eq, outcome]
  | endedBelow henter _ ih =>
    simp_all [Tree.runAll, Tree.run, Child.tree, Node.tree_eq, outcome]
  | endedLeaving henter _ hleave ih =>
    simp_all [Tree.runAll, Tree.run, Child.tree, Node.tree_eq, outcome]
  | @left _ _ _ _ _ _ _ _ flow _ _ _ henter _ hleave hflow _ ihbelow ihrest =>
    cases flow <;> simp_all [Tree.runAll, Tree.run, Child.tree, Node.tree_eq, outcome]

theorem noting (h : Traversal v p cs s log ended s') (before : List Callback) :
    Traversal v.noting p cs (s, before) log ended (s', before ++ log) := by
  induction h generalizing before with
  | nil p s =>
    rw [List.append_nil]
    exact .nil p (s, before)
  | @passed p c _ _ _ _ _ _ henter _ ih =>
    have hrest := ih (before ++ [⟨.enter, c.node, p.append c.steps, .skip⟩])
    rw [List.append_assoc] at hrest
    exact .passed (by simp [Visitor.noting, henter]) hrest
  | ended henter => exact .ended (by simp [Visitor.noting, henter])
  | @endedBelow p c _ _ _ _ _ henter _ ih =>
    have hbelow := ih (before ++ [⟨.enter, c.node, p.append c.steps, .next⟩])
    rw [List.append_assoc] at hbelow
    exact .endedBelow (by simp [Visitor.noting, henter]) hbelow
  | @endedLeaving p c _ _ _ _ _ _ henter _ hleave ih =>
    have hbelow := ih (before ++ [⟨.enter, c.node, p.append c.steps, .next⟩])
    exact .endedLeaving (by simp [Visitor.noting, henter]) hbelow
      (by simp [Visitor.noting, hleave])
  | @left p c _ s s₁ s₂ s₃ _ flow log _ _ henter _ hleave hflow _ ihbelow ihrest =>
    let entered := before ++ [⟨.enter, c.node, p.append c.steps, .next⟩]
    have henter' : v.noting.enter c.node (p.append c.steps) (s, before) =
        (.next, (s₁, entered)) := by
      simp [Visitor.noting, henter, entered]
    have hleave' : v.noting.leave c.node (p.append c.steps) (s₂, entered ++ log) =
        (flow, (s₃, entered ++ log ++ [⟨.leave, c.node, p.append c.steps, flow⟩])) := by
      simp [Visitor.noting, hleave]
    have hall := Traversal.left henter' (ihbelow _) hleave' hflow (ihrest _)
    simpa [entered] using hall

theorem unique (h : Traversal v p cs s log ended s') {log' : List Callback} {ended' : Bool}
    {s'' : σ} (h' : Traversal v p cs s log' ended' s'') :
    log' = log ∧ ended' = ended ∧ s'' = s' := by
  have hrun := (h'.noting []).runAll_eq.symm.trans (h.noting []).runAll_eq
  obtain ⟨houtcome, hstate⟩ := Prod.mk.inj hrun
  obtain ⟨rfl, rfl⟩ := Prod.mk.inj hstate
  exact ⟨rfl, by cases ended <;> cases ended' <;> simp_all [outcome], rfl⟩

theorem flow_ne_stop (h : Traversal v p cs s log ended s') (hended : ended = false) :
    ∀ b ∈ log, b.flow ≠ .stop := by
  induction h with
  | nil => simp
  | passed _ _ ih =>
    have hrest := ih hended
    simpa using hrest
  | ended => simp at hended
  | endedBelow => simp at hended
  | endedLeaving => simp at hended
  | left _ _ _ hflow _ ihbelow ihrest =>
    have hbelow := ihbelow rfl
    have hrest := ihrest hended
    intro b hb
    rcases List.mem_cons.1 hb with rfl | hb
    · simp
    · rcases List.mem_append.1 hb with hb | hb
      · exact hbelow b hb
      · rcases List.mem_cons.1 hb with rfl | hb
        · exact hflow
        · exact hrest b hb

theorem exists_last (h : Traversal v p cs s log ended s') (hended : ended = true) :
    ∃ before b, log = before ++ [b] ∧ b.flow = .stop ∧ ∀ a ∈ before, a.flow ≠ .stop := by
  induction h with
  | nil => simp at hended
  | @passed p c _ _ _ _ _ _ _ _ ih =>
    obtain ⟨before, b, rfl, hb, hbefore⟩ := ih hended
    refine ⟨⟨.enter, c.node, p.append c.steps, .skip⟩ :: before, b, rfl, hb, ?_⟩
    simpa using hbefore
  | ended => exact ⟨[], _, rfl, rfl, by simp⟩
  | @endedBelow p c _ _ _ _ _ _ _ ih =>
    obtain ⟨before, b, rfl, hb, hbefore⟩ := ih rfl
    refine ⟨⟨.enter, c.node, p.append c.steps, .next⟩ :: before, b, rfl, hb, ?_⟩
    simpa using hbefore
  | @endedLeaving p c _ _ _ _ _ log _ hbelow _ _ =>
    refine ⟨⟨.enter, c.node, p.append c.steps, .next⟩ :: log, _, rfl, rfl, ?_⟩
    simpa using hbelow.flow_ne_stop rfl
  | @left p c _ _ _ _ _ _ flow log _ _ _ hbelow _ hflow _ _ ih =>
    obtain ⟨before, b, rfl, hb, hbefore⟩ := ih hended
    refine ⟨⟨.enter, c.node, p.append c.steps, .next⟩ ::
      (log ++ ⟨.leave, c.node, p.append c.steps, flow⟩ :: before), b, by simp, hb, ?_⟩
    intro a ha
    have hlog := hbelow.flow_ne_stop rfl
    simp only [List.mem_cons, List.mem_append] at ha
    rcases ha with rfl | ha | rfl | ha
    · simp
    · exact hlog a ha
    · exact hflow
    · exact hbefore a ha

theorem prefix_of_mem (h : Traversal v p cs s log ended s') {b : Callback} (hb : b ∈ log) :
    ∃ c ∈ cs, (p.append c.steps).segments <+: b.path.segments := by
  induction h with
  | nil => simp at hb
  | passed _ _ ih =>
    rcases List.mem_cons.1 hb with rfl | hb
    · exact ⟨_, List.mem_cons_self, List.prefix_rfl⟩
    · obtain ⟨d, hd, hextends⟩ := ih hb
      exact ⟨d, List.mem_cons_of_mem _ hd, hextends⟩
  | ended =>
    obtain rfl := List.mem_singleton.1 hb
    exact ⟨_, List.mem_cons_self, List.prefix_rfl⟩
  | endedBelow _ _ ih =>
    refine ⟨_, List.mem_cons_self, ?_⟩
    rcases List.mem_cons.1 hb with rfl | hb
    · exact List.prefix_rfl
    · obtain ⟨d, -, hextends⟩ := ih hb
      exact (List.prefix_append _ _).trans hextends
  | endedLeaving _ _ _ ih =>
    refine ⟨_, List.mem_cons_self, ?_⟩
    rcases List.mem_cons.1 hb with rfl | hb
    · exact List.prefix_rfl
    · rcases List.mem_append.1 hb with hb | hb
      · obtain ⟨d, -, hextends⟩ := ih hb
        exact (List.prefix_append _ _).trans hextends
      · obtain rfl := List.mem_singleton.1 hb
        exact List.prefix_rfl
  | left _ _ _ _ _ ihbelow ihrest =>
    rcases List.mem_cons.1 hb with rfl | hb
    · exact ⟨_, List.mem_cons_self, List.prefix_rfl⟩
    · rcases List.mem_append.1 hb with hb | hb
      · obtain ⟨d, -, hextends⟩ := ihbelow hb
        exact ⟨_, List.mem_cons_self, (List.prefix_append _ _).trans hextends⟩
      · rcases List.mem_cons.1 hb with rfl | hb
        · exact ⟨_, List.mem_cons_self, List.prefix_rfl⟩
        · obtain ⟨d, hd, hextends⟩ := ihrest hb
          exact ⟨d, List.mem_cons_of_mem _ hd, hextends⟩

end Traversal

end GraphQLCheck
