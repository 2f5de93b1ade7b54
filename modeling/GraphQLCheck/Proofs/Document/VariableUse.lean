import GraphQLCheck.Proofs.Document.Reachability

/-!
The occurrences of variables that an operation has, itself or through the fragments it reaches.
The variables that are collected for an operation stand at these places, each place once
(`mem_uses`, `nodup_uses`). Which they are hangs on the operation and on the fragments of its
document, not on the other operations (`variableUses_congr`).
-/
namespace GraphQLCheck

structure VariableUse where
  fragment : Option String
  path : List Segment
  var : Variable

namespace Document

variable (d : Document)

/-- In the operation itself, what stands in its variable definitions is no use. -/
inductive Uses (o : Operation) : VariableUse → Prop
  | own {p : List Segment} {above : List Node} {x : Variable} :
    Leads (.operation o) p above (.value (.variable x)) →
    (∀ v, Node.variableDefinition v ∉ above) → Uses o ⟨none, p, x⟩
  | shared {f : Fragment} {p : List Segment} {above : List Node} {x : Variable} :
    d.Reaches o f.name.text → d.fragment? f.name.text = some f →
    Leads (.fragment f) p above (.value (.variable x)) → Uses o ⟨some f.name.text, p, x⟩

end Document

namespace Operation
open Child

def body (o : Operation) : List Child :=
  items [.directives] .directive 0 o.directives ++ [⟨[.selectionSet], .selectionSet o.selections⟩]

theorem children_eq (o : Operation) :
    (Node.operation o).children =
      items [.variableDefinitions] .variableDefinition 0 o.variableDefinitions ++ o.body := by
  rw [Node.children, body, List.append_assoc]

theorem level_body {o : Operation} {c : Child} (h : c ∈ o.body) : 3 ≤ c.node.level := by
  rcases List.mem_append.1 h with h | h
  · rw [Node.level_of_mem_items h (k := 4) fun _ => rfl]
    decide
  · obtain rfl := List.mem_singleton.1 h
    exact Nat.le_refl _

theorem leads_variable_iff {o : Operation} {p : List Segment} {x : Variable} :
    (∃ above, Leads (.operation o) p above (.value (.variable x)) ∧
        ∀ v, Node.variableDefinition v ∉ above) ↔
      ∃ c ∈ o.body, ∃ q, p = c.steps ++ q ∧
        ∃ above, Leads c.node q above (.value (.variable x)) := by
  constructor
  · rintro ⟨above, hleads, hdefinitions⟩
    cases hleads with
    | @down _ _ c q above hc hleads =>
      rw [children_eq] at hc
      rcases List.mem_append.1 hc with hc | hc
      · obtain ⟨j, v, -, -, rfl⟩ := mem_items hc
        cases hleads with
        | down _ _ => exact absurd (by simp) (hdefinitions v)
      · exact ⟨c, hc, q, rfl, above, hleads⟩
  · rintro ⟨c, hc, q, rfl, above, hleads⟩
    have hchild : c ∈ (Node.operation o).children := by
      rw [children_eq]
      exact List.mem_append_right _ hc
    refine ⟨_, .down hchild hleads, fun v hv => ?_⟩
    rcases List.mem_cons.1 hv with hv | hv
    · exact Node.noConfusion hv
    · have hlevel : 3 ≤ 2 := Nat.le_trans (level_body hc) (hleads.level_le.2 _ hv)
      exact absurd hlevel (by decide)

end Operation

namespace Document

variable (d : Document)

def ownUses (o : Operation) : List VariableUse :=
  (Node.findsBelow Node.variableUse? o.body).map fun x => ⟨none, x.1, x.2⟩

def sharedUses (f : Fragment) : List VariableUse :=
  ((Node.fragment f).finds Node.variableUse?).map fun x => ⟨some f.name.text, x.1, x.2⟩

def uses (o : Operation) : List VariableUse :=
  ownUses o ++ (d.referencedFragments o).flatMap sharedUses

theorem map_var_uses (o : Operation) : (d.uses o).map VariableUse.var = d.variableUses o := by
  have hown : (ownUses o).map VariableUse.var = o.variableUses := by
    have hsnd : (ownUses o).map VariableUse.var =
        (Node.findsBelow Node.variableUse? o.body).map Prod.snd := by
      simp [ownUses]
    rw [hsnd, Node.map_snd_findsBelow, Operation.body, List.flatMap_append,
      Node.flatMap_picks_items, Node.uses_directives, List.flatMap_singleton,
      Node.uses_selectionSet, Operation.variableUses]
  have hshared : ∀ f, (sharedUses f).map VariableUse.var = f.variableUses := by
    intro f
    rw [← Node.uses_fragment, ← Node.map_snd_finds]
    simp [sharedUses]
  rw [uses, List.map_append, hown, List.map_flatMap, variableUses]
  simp only [hshared]

theorem mem_ownUses {o : Operation} {u : VariableUse} :
    u ∈ ownUses o ↔ u.fragment = none ∧ ∃ above,
      Leads (.operation o) u.path above (.value (.variable u.var)) ∧
        ∀ v, Node.variableDefinition v ∉ above := by
  obtain ⟨fragment, p, x⟩ := u
  rw [Operation.leads_variable_iff, ownUses, List.mem_map]
  constructor
  · rintro ⟨⟨q, y⟩, hq, heq⟩
    obtain ⟨rfl, rfl, rfl⟩ := VariableUse.mk.inj heq
    obtain ⟨c, hc, r, hr, above, m, hleads, hm⟩ := (Node.mem_findsBelow _).1 hq
    rw [Node.variableUse?_eq_some.1 hm] at hleads
    exact ⟨rfl, c, hc, r, hr, above, hleads⟩
  · rintro ⟨rfl, c, hc, q, hq, above, hleads⟩
    exact ⟨(p, x), (Node.mem_findsBelow _).2 ⟨c, hc, q, hq, above, _, hleads, rfl⟩, rfl⟩

theorem mem_sharedUses {f : Fragment} {u : VariableUse} :
    u ∈ sharedUses f ↔ u.fragment = some f.name.text ∧
      ∃ above, Leads (.fragment f) u.path above (.value (.variable u.var)) := by
  obtain ⟨fragment, p, x⟩ := u
  rw [← Node.mem_finds_variable, sharedUses, List.mem_map]
  constructor
  · rintro ⟨⟨q, y⟩, hq, heq⟩
    obtain ⟨rfl, rfl, rfl⟩ := VariableUse.mk.inj heq
    exact ⟨rfl, hq⟩
  · rintro ⟨rfl, hq⟩
    exact ⟨(p, x), hq, rfl⟩

theorem mem_uses {o : Operation} {u : VariableUse} : u ∈ d.uses o ↔ d.Uses o u := by
  rw [uses, List.mem_append, List.mem_flatMap]
  constructor
  · rintro (hown | ⟨f, hf, hshared⟩)
    · obtain ⟨hfragment, above, hleads, hdefinitions⟩ := mem_ownUses.1 hown
      obtain ⟨fragment, p, x⟩ := u
      obtain rfl : fragment = none := hfragment
      exact .own hleads hdefinitions
    · obtain ⟨hfragment, above, hleads⟩ := mem_sharedUses.1 hshared
      obtain ⟨hreaches, hfirst⟩ := mem_referencedFragments.1 hf
      obtain ⟨fragment, p, x⟩ := u
      obtain rfl : fragment = some f.name.text := hfragment
      exact .shared hreaches hfirst hleads
  · rintro (⟨hleads, hdefinitions⟩ | ⟨hreaches, hfirst, hleads⟩)
    · exact .inl (mem_ownUses.2 ⟨rfl, _, hleads, hdefinitions⟩)
    · have hreferenced := mem_referencedFragments.2 ⟨hreaches, hfirst⟩
      exact .inr ⟨_, hreferenced, mem_sharedUses.2 ⟨rfl, _, hleads⟩⟩

theorem nodup_uses (o : Operation) : (d.uses o).Nodup := by
  have hown : (ownUses o).Nodup := by
    have hbody : o.body.Sublist (Node.operation o).children := by
      rw [Operation.children_eq]
      exact List.sublist_append_right _ _
    have hpaths : (ownUses o).map VariableUse.path =
        (Node.findsBelow Node.variableUse? o.body).map Prod.fst := by
      simp [ownUses]
    exact (hpaths ▸ Node.nodup_steps_findsBelow _ hbody).of_map
  have hshared : ∀ f, (sharedUses f).Nodup := by
    intro f
    have hpaths : (sharedUses f).map VariableUse.path =
        ((Node.fragment f).finds Node.variableUse?).map Prod.fst := by
      simp [sharedUses]
    exact (hpaths ▸ Node.nodup_steps_finds _ (.fragment f)).of_map
  have hnames := (d.collects_referencedFragments o).nodup
  rw [List.Nodup, List.pairwise_map] at hnames
  rw [uses, List.nodup_append', List.nodup_flatMap]
  refine ⟨hown, ⟨fun f _ => hshared f, hnames.imp fun {f g} hne u hf hg => ?_⟩, fun u ho hu => ?_⟩
  · have hf := (mem_sharedUses.1 hf).1
    have hg := (mem_sharedUses.1 hg).1
    exact hne (Option.some.inj (hf.symm.trans hg))
  · obtain ⟨f, -, hf⟩ := List.mem_flatMap.1 hu
    exact Option.some_ne_none _ ((mem_sharedUses.1 hf).1.symm.trans (mem_ownUses.1 ho).1)

section
variable {d} {e : Document}

theorem fragment?_congr (h : d.fragments = e.fragments) (name : String) :
    d.fragment? name = e.fragment? name := by
  rw [fragment?, h, ← fragment?]

theorem unseen_congr (h : d.fragments = e.fragments) (seen : List String)
    (ss : List FragmentSpread) : d.unseen seen ss = e.unseen seen ss := by
  induction ss generalizing seen with
  | nil => rfl
  | cons s ss ih => rw [unseen, unseen, ih, ih, fragment?_congr h]

theorem reachWithin_congr (h : d.fragments = e.fragments) (n : Nat) (seen : List String)
    (waiting : List (List Selection)) :
    d.reachWithin n seen waiting = e.reachWithin n seen waiting := by
  induction n generalizing seen waiting with
  | zero => rfl
  | succ n ih =>
    cases waiting with
    | nil => rfl
    | cons set waiting => simp only [reachWithin, unseen_congr h, ih]

theorem variableUses_congr (h : d.fragments = e.fragments) (o : Operation) :
    d.variableUses o = e.variableUses o := by
  simp only [variableUses, referencedFragments, h, reachWithin_congr h]

end

end Document
end GraphQLCheck
