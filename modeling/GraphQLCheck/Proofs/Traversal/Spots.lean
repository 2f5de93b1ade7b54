import GraphQLCheck.Proofs.Traversal.Places

/-!
Places with the nodes above them. `Node.spots` goes through a document in the order of a traversal
and has every node once (`Node.mem_spots`, `Document.nodup_spots`), with all that stands above it,
so that what applies at a node can be said without the traversal.
-/
namespace GraphQLCheck

/-- A node with the steps that lead to it and the nodes above it, the nearest first. -/
structure Spot where
  steps : List Segment
  above : List Node
  node : Node

namespace Node

def spots (steps : List Segment) (above : List Node) (n : Node) : List Spot :=
  ⟨steps, above, n⟩ ::
    n.children.attach.flatMap fun c => c.1.node.spots (steps ++ c.1.steps) (n :: above)
termination_by sizeOf n
decreasing_by exact (child_smaller c.2).2

theorem spots_eq (steps : List Segment) (above : List Node) (n : Node) :
    n.spots steps above = ⟨steps, above, n⟩ ::
      n.children.flatMap fun c => c.node.spots (steps ++ c.steps) (n :: above) := by
  rw [spots, List.flatMap_def, List.flatMap_def]
  congr 2
  exact List.attach_map_val
    (f := fun c : Child => c.node.spots (steps ++ c.steps) (n :: above))

theorem map_spots (n : Node) (steps : List Segment) (above : List Node) :
    (n.spots steps above).map (fun x => Child.mk x.steps x.node) =
      n.places.map (Child.onward ⟨steps, n⟩) := by
  induction n using childInduction generalizing steps above with
  | step n ih =>
    have hbelow : ∀ c ∈ n.children,
        (c.node.spots (steps ++ c.steps) (n :: above)).map (fun x => Child.mk x.steps x.node) =
          (c.node.places.map c.onward).map (Child.onward ⟨steps, n⟩) := by
      intro c hc
      rw [ih c hc, List.map_map]
      simp [Child.onward, Function.comp_def]
    rw [spots_eq, places_eq, List.map_cons, List.map_cons, List.map_flatMap, List.map_flatMap,
      List.flatMap_congr hbelow]
    simp [Child.onward]

theorem mem_spots {n : Node} {steps : List Segment} {above : List Node} {x : Spot} :
    x ∈ n.spots steps above ↔ ∃ p way, Leads n p way x.node ∧ x.steps = steps ++ p ∧
      x.above = way.reverse ++ above := by
  induction n using childInduction generalizing steps above with
  | step n ih =>
    rw [spots_eq, List.mem_cons, List.mem_flatMap]
    constructor
    · rintro (rfl | ⟨c, hc, hx⟩)
      · exact ⟨[], [], .here n, by simp, rfl⟩
      · obtain ⟨p, way, hleads, hsteps, habove⟩ := (ih c hc).1 hx
        exact ⟨c.steps ++ p, n :: way, .down hc hleads, by simp [hsteps], by simp [habove]⟩
    · obtain ⟨xsteps, xabove, m⟩ := x
      rintro ⟨p, way, hleads, rfl, rfl⟩
      cases hleads with
      | here => exact .inl (by simp)
      | @down _ _ c p way hc hleads =>
        exact .inr ⟨c, hc, (ih c hc).2 ⟨p, way, hleads, by simp, by simp⟩⟩

end Node

namespace Document

def spots (d : Document) : List Spot := (Node.document d).spots [] []

variable {d : Document}

theorem mem_spots {x : Spot} :
    x ∈ d.spots ↔ Leads (.document d) x.steps x.above.reverse x.node := by
  rw [spots, Node.mem_spots]
  constructor
  · rintro ⟨p, way, hleads, hsteps, habove⟩
    rw [hsteps, habove]
    simpa using hleads
  · exact fun hleads => ⟨x.steps, x.above.reverse, hleads, rfl, by simp⟩

theorem nodup_spots (d : Document) : (d.spots.map Spot.steps).Nodup := by
  have hplaces := congrArg (List.map Child.steps) ((Node.document d).map_spots [] [])
  rw [List.map_map, List.map_map] at hplaces
  have hsteps : d.spots.map Spot.steps = (Node.document d).places.map Child.steps := hplaces
  rw [hsteps]
  exact (Node.document d).nodup_steps_places

end Document
end GraphQLCheck
