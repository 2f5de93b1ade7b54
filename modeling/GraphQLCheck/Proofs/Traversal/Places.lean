import GraphQLCheck.Proofs.Traversal.Children
import Mathlib.Data.List.Flatten
import Mathlib.Data.List.Nodup

/-!
All places below a node, from the top down. A place is a node with the steps that lead to it; the
list of places has each of them once (`nodup_steps_places`), so that what occurs twice in a
document has two places even where the nodes are the same. `Node.picks` takes what is looked for
from the nodes at these places.
-/
namespace GraphQLCheck

namespace NodeClass

def level : NodeClass → Nat
  | .document => 0
  | .operation | .fragment => 1
  | .variableDefinition => 2
  | .selectionSet | .fragmentSpread | .inlineFragment | .field => 3
  | .directive => 4
  | .argument => 5
  | .value | .objectField => 6

end NodeClass

namespace Node
open Child

def level (n : Node) : Nat := n.classOf.level

theorem level_of_mem_items {α : Type} {part : List Segment} {node : α → Node} {i : Nat}
    {as : List α} {c : Child} {k : Nat} (h : c ∈ items part node i as)
    (hnode : ∀ a, (node a).level = k) : c.node.level = k := by
  obtain ⟨_, a, -, -, rfl⟩ := mem_items h
  exact hnode a

theorem level_definition (d : Definition) : d.node.level = 1 := by
  cases d <;> rfl

theorem level_selection (s : Selection) : s.node.level = 3 := by
  cases s <;> rfl

theorem level_child {n : Node} {c : Child} (h : c ∈ n.children) :
    n.level < c.node.level ∨ n.level = c.node.level ∧ 3 ≤ n.level := by
  have hcarries := carries_child h
  generalize c.node = m at hcarries ⊢
  cases hcarries with
  | definition d x =>
    rw [level_definition]
    exact .inl (by decide : 0 < 1)
  | variableDefinition o v => exact .inl (by decide : 1 < 2)
  | selectionSet ss hn =>
    cases n with
    | operation _ | fragment _ => exact .inl (by decide : 1 < 3)
    | inlineFragment _ | field _ => exact .inr (by decide : 3 = 3 ∧ 3 ≤ 3)
    | _ => cases hn
  | selection ss x =>
    rw [level_selection]
    exact .inr (by decide : 3 = 3 ∧ 3 ≤ 3)
  | directive d hn =>
    cases n with
    | operation _ | fragment _ => exact .inl (by decide : 1 < 4)
    | variableDefinition _ => exact .inl (by decide : 2 < 4)
    | fragmentSpread _ | inlineFragment _ | field _ => exact .inl (by decide : 3 < 4)
    | _ => cases hn
  | argument a hn =>
    cases n with
    | field _ => exact .inl (by decide : 3 < 5)
    | directive _ => exact .inl (by decide : 4 < 5)
    | _ => cases hn
  | defaultValue d v => exact .inl (by decide : 2 < 6)
  | argumentValue a v => exact .inl (by decide : 5 < 6)
  | item vs loc v => exact .inr (by decide : 6 = 6 ∧ 3 ≤ 6)
  | objectField fs loc f => exact .inr (by decide : 6 = 6 ∧ 3 ≤ 6)
  | fieldValue f v => exact .inr (by decide : 6 = 6 ∧ 3 ≤ 6)

end Node

theorem Leads.level_le {n m : Node} {p : List Segment} {above : List Node}
    (h : Leads n p above m) : n.level ≤ m.level ∧ ∀ k ∈ above, n.level ≤ k.level := by
  induction h with
  | here n => simp
  | @down n m c p above hc _ ih =>
    have hchild := Node.level_child hc
    refine ⟨by omega, fun k hk => ?_⟩
    rcases List.mem_cons.1 hk with rfl | hk
    · exact Nat.le_refl _
    · have hbelow := ih.2 k hk
      omega

def Child.onward (c d : Child) : Child := ⟨c.steps ++ d.steps, d.node⟩

namespace Node
open Child

def places (n : Node) : List Child :=
  ⟨[], n⟩ :: n.children.attach.flatMap fun c => c.1.node.places.map c.1.onward
termination_by sizeOf n
decreasing_by exact (child_smaller c.2).2

theorem places_eq (n : Node) :
    n.places = ⟨[], n⟩ :: n.children.flatMap fun c => c.node.places.map c.onward := by
  rw [places, List.flatMap_def, List.flatMap_def]
  congr 2
  exact List.attach_map_val (f := fun c : Child => c.node.places.map c.onward)

theorem mem_places {n : Node} {x : Child} :
    x ∈ n.places ↔ ∃ above, Leads n x.steps above x.node := by
  induction n using childInduction generalizing x with
  | step n ih =>
    rw [places_eq, List.mem_cons, List.mem_flatMap]
    constructor
    · rintro (rfl | ⟨c, hc, hx⟩)
      · exact ⟨[], .here n⟩
      · obtain ⟨d, hd, rfl⟩ := List.mem_map.1 hx
        obtain ⟨above, hleads⟩ := (ih c hc).1 hd
        exact ⟨n :: above, .down hc hleads⟩
    · obtain ⟨steps, m⟩ := x
      rintro ⟨above, hleads⟩
      cases hleads with
      | here => exact .inl rfl
      | @down _ _ c p above hc hleads =>
        have hd : (⟨p, m⟩ : Child) ∈ c.node.places := (ih c hc).2 ⟨above, hleads⟩
        exact .inr ⟨c, hc, List.mem_map.2 ⟨⟨p, m⟩, hd, rfl⟩⟩

theorem nodup_steps_places (n : Node) : (n.places.map Child.steps).Nodup := by
  induction n using childInduction with
  | step n ih =>
    have hbelow : ∀ c : Child, (c.node.places.map c.onward).map Child.steps =
        (c.node.places.map Child.steps).map (c.steps ++ ·) := by
      intro c
      simp [Child.onward, Function.comp_def]
    rw [places_eq, List.map_cons, List.map_flatMap, List.nodup_cons, List.nodup_flatMap]
    refine ⟨?_, ?_, ?_⟩
    · intro hnil
      obtain ⟨c, hc, hx⟩ := List.mem_flatMap.1 hnil
      rw [hbelow] at hx
      obtain ⟨p, -, hp⟩ := List.mem_map.1 hx
      exact (child_smaller hc).1 (List.append_eq_nil_iff.1 hp).1
    · intro c hc
      rw [hbelow]
      exact (ih c hc).map (List.append_right_injective c.steps)
    · refine n.pairwise_children.imp fun {c d} hapart => ?_
      intro p hp hq
      simp only [hbelow] at hp hq
      obtain ⟨x, -, rfl⟩ := List.mem_map.1 hp
      obtain ⟨y, -, hy⟩ := List.mem_map.1 hq
      exact hapart.not_prefix [] (List.prefix_append _ x) (List.prefix_append _ y)
        (hy ▸ List.prefix_rfl)

section
variable {α : Type} (pick : Node → Option α)

def picks (n : Node) : List α := n.places.filterMap fun c => pick c.node

theorem picks_eq (n : Node) :
    n.picks pick = (pick n).toList ++ n.children.flatMap fun c => c.node.picks pick := by
  have hbelow : ∀ c : Child, (c.node.places.map c.onward).filterMap (fun d => pick d.node) =
      c.node.picks pick := by
    intro c
    simp [picks, Child.onward, List.filterMap_map, Function.comp_def]
  rw [picks, places_eq, List.filterMap_cons, List.filterMap_flatMap]
  simp only [hbelow]
  cases pick n with
  | none => rfl
  | some a => rfl

theorem flatMap_picks_items {β : Type} (part : List Segment) (node : β → Node) (i : Nat)
    (bs : List β) :
    ((items part node i bs).flatMap fun c => c.node.picks pick) =
      bs.flatMap fun b => (node b).picks pick := by
  induction bs generalizing i with
  | nil => rfl
  | cons b bs ih => simp [items, ih]

variable {pick} in
theorem picks_eq_nil {n : Node} (h : ∀ m : Node, n.level ≤ m.level → pick m = none) :
    n.picks pick = [] := by
  refine List.filterMap_eq_nil_iff.2 fun c hc => ?_
  obtain ⟨above, hleads⟩ := mem_places.1 hc
  exact h c.node hleads.level_le.1

def finds (n : Node) : List (List Segment × α) :=
  n.places.filterMap fun c => (pick c.node).map (c.steps, ·)

theorem map_snd_finds (n : Node) : (n.finds pick).map Prod.snd = n.picks pick := by
  rw [finds, List.map_filterMap, picks]
  simp [Option.map_map, Function.comp_def]

theorem mem_finds {n : Node} {p : List Segment} {a : α} :
    (p, a) ∈ n.finds pick ↔ ∃ above m, Leads n p above m ∧ pick m = some a := by
  rw [finds, List.mem_filterMap]
  constructor
  · rintro ⟨c, hc, hpick⟩
    obtain ⟨b, hb, heq⟩ := Option.map_eq_some_iff.1 hpick
    obtain ⟨rfl, rfl⟩ := Prod.mk.inj heq
    obtain ⟨above, hleads⟩ := mem_places.1 hc
    exact ⟨above, c.node, hleads, hb⟩
  · rintro ⟨above, m, hleads, hm⟩
    exact ⟨⟨p, m⟩, mem_places.2 ⟨above, hleads⟩, by simp [hm]⟩

def findsBelow (cs : List Child) : List (List Segment × α) :=
  cs.flatMap fun c => (c.node.finds pick).map fun x => (c.steps ++ x.1, x.2)

theorem map_snd_findsBelow (cs : List Child) :
    (findsBelow pick cs).map Prod.snd = cs.flatMap fun c => c.node.picks pick := by
  rw [findsBelow, List.map_flatMap]
  refine List.flatMap_congr fun c _ => ?_
  rw [← map_snd_finds, List.map_map]
  rfl

theorem mem_findsBelow {cs : List Child} {p : List Segment} {a : α} :
    (p, a) ∈ findsBelow pick cs ↔
      ∃ c ∈ cs, ∃ q, p = c.steps ++ q ∧ ∃ above m, Leads c.node q above m ∧ pick m = some a := by
  rw [findsBelow, List.mem_flatMap]
  refine exists_congr fun c => and_congr_right fun _ => ?_
  rw [List.mem_map]
  constructor
  · rintro ⟨⟨q, b⟩, hq, heq⟩
    obtain ⟨rfl, rfl⟩ := Prod.mk.inj heq
    exact ⟨q, rfl, (mem_finds pick).1 hq⟩
  · rintro ⟨q, rfl, hq⟩
    exact ⟨(q, a), (mem_finds pick).2 hq, rfl⟩

theorem finds_eq (n : Node) :
    n.finds pick = (pick n).toList.map ([], ·) ++ findsBelow pick n.children := by
  have hbelow : ∀ c : Child, ((c.node.places.map c.onward).filterMap fun d =>
        (pick d.node).map (d.steps, ·)) =
      (c.node.finds pick).map fun x => (c.steps ++ x.1, x.2) := by
    intro c
    rw [finds, List.filterMap_map, List.map_filterMap]
    simp [Child.onward, Option.map_map, Function.comp_def]
  rw [finds, places_eq, List.filterMap_cons, List.filterMap_flatMap]
  simp only [hbelow]
  cases pick n with
  | none => rfl
  | some a => rfl

theorem nodup_steps_finds (n : Node) : ((n.finds pick).map Prod.fst).Nodup := by
  have hplaces := n.nodup_steps_places
  rw [List.Nodup, List.pairwise_map] at hplaces ⊢
  rw [finds, List.pairwise_filterMap]
  refine hplaces.imp fun {c d} hne x hx y hy => ?_
  obtain ⟨a, -, rfl⟩ := Option.map_eq_some_iff.1 hx
  obtain ⟨b, -, rfl⟩ := Option.map_eq_some_iff.1 hy
  exact hne

theorem nodup_steps_findsBelow {n : Node} {cs : List Child} (h : cs.Sublist n.children) :
    ((findsBelow pick cs).map Prod.fst).Nodup := by
  have hbelow : (findsBelow pick cs).Sublist (n.finds pick) := by
    rw [finds_eq]
    exact (h.flatMap _).trans (List.sublist_append_right _ _)
  exact (n.nodup_steps_finds pick).sublist (hbelow.map Prod.fst)

end

end Node
end GraphQLCheck
