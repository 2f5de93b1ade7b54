import GraphQLCheck.Proofs.Schema.Closed
import GraphQLCheck.Proofs.Validation.Position

/-!
What frames hold comes from the schema, if everything is looked up in the standard way: the type
that selections are made on is a type of the schema that has fields, and the arguments of the
current field or directive have types that the schema defines.
-/
namespace GraphQLCheck

def ArgumentOwner.arguments : ArgumentOwner → List InputDef
  | .field f => f.arguments
  | .directive d => d.arguments

theorem ArgumentOwner.mem_arguments {o : ArgumentOwner} {name : String} {i : InputDef}
    (h : o.argument? name = some i) : i ∈ o.arguments := by
  cases o with
  | field f => exact List.mem_of_find?_eq_some h
  | directive d => exact List.mem_of_find?_eq_some h

namespace Provider

theorem schemaField?_cases {s : Schema} {t : TypeDef} {name : String} {f : FieldDef}
    (h : schemaField? s t name = some f) :
    name = "__typename" ∧ f = MetaField.typename ∨
      name = "__schema" ∧ isQueryRoot s t ∧ f = MetaField.schema ∨
      name = "__type" ∧ isQueryRoot s t ∧ f = MetaField.type ∨
      ∃ fs, t.fields? = some fs ∧ f ∈ fs := by
  rw [schemaField?] at h
  split at h
  · rename_i hname
    exact .inl ⟨hname.1, (Option.some.inj h).symm⟩
  · split at h
    · rename_i hname
      exact .inr (.inl ⟨hname.1, hname.2, (Option.some.inj h).symm⟩)
    · split at h
      · rename_i hname
        exact .inr (.inr (.inl ⟨hname.1, hname.2, (Option.some.inj h).symm⟩))
      · obtain ⟨fs, hfs, hf⟩ := Option.bind_eq_some_iff.1 h
        exact .inr (.inr (.inr ⟨fs, hfs, List.mem_of_find?_eq_some hf⟩))

theorem argument_resolves {s : Schema} (hs : s.Closed) {t : TypeDef} (ht : t ∈ s.types)
    {name : String} {f : FieldDef} (h : schemaField? s t name = some f) {a : InputDef}
    (ha : a ∈ f.arguments) : (s.resolve? a.type).isSome := by
  rcases schemaField?_cases h with ⟨-, rfl⟩ | ⟨-, -, rfl⟩ | ⟨-, -, rfl⟩ | ⟨fs, hfs, hf⟩
  · simp [MetaField.typename] at ha
  · simp [MetaField.schema] at ha
  · obtain rfl := List.mem_singleton.1 ha
    exact hs.builtin (by decide)
  · have hinput := hs.argument ht hfs hf ha
    rw [Schema.hasInputType] at hinput
    exact Option.isSome_of_any hinput

end Provider

namespace Frame

structure Known (s : Schema) (f : Frame) : Prop where
  parent {t} : f.parent = some t → s.type? t.name = some t ∧ t.isComposite
  owner {o i} : f.owner = some o → i ∈ o.arguments → (s.resolve? i.type).isSome
  argument {i} : f.argument = some i → (s.resolve? i.type).isSome

variable {s : Schema} {f : Frame}

theorem known_empty : Known s .empty where
  parent h := by simp [empty] at h
  owner h := by simp [empty] at h
  argument h := by simp [empty] at h

theorem Known.enter (hs : s.Closed) (h : Known s f) (n : Node) :
    Known s (f.enter .standard s n) := by
  cases n with
  | document d => exact known_empty
  | operation o => exact { known_empty with }
  | fragment x => exact { known_empty with }
  | variableDefinition d => exact { h with }
  | selectionSet ss =>
    refine { h with parent := ?_ }
    intro t ht
    obtain ⟨u, hu, ht⟩ := Option.bind_eq_some_iff.1 ht
    obtain ⟨r, -, hr⟩ := Option.bind_eq_some_iff.1 hu
    split at ht
    · rename_i hcomposite
      obtain rfl := Option.some.inj ht
      have hname : u.name = r.name := (Schema.mem_of_type? hr).2
      refine ⟨?_, hcomposite⟩
      rw [hname]
      exact hr
    · simp at ht
  | fragmentSpread x => exact h
  | inlineFragment i => exact { h with }
  | field x =>
    refine { known_empty with parent := h.parent, owner := ?_ }
    intro o i ho hi
    obtain ⟨d, hd, rfl⟩ := Option.map_eq_some_iff.1 ho
    obtain ⟨t, ht, hd⟩ := Option.bind_eq_some_iff.1 hd
    exact Provider.argument_resolves hs (Schema.mem_of_type? (h.parent ht).1).1 hd hi
  | directive x =>
    refine { h with owner := ?_ }
    intro o i ho hi
    obtain ⟨d, hd, rfl⟩ := Option.map_eq_some_iff.1 ho
    have hinput := hs.directive (List.mem_of_find?_eq_some hd) hi
    exact Option.isSome_of_any hinput
  | argument a =>
    refine { h with argument := ?_ }
    intro i hi
    obtain ⟨o, ho, hi⟩ := Option.bind_eq_some_iff.1 hi
    exact h.owner ho (ArgumentOwner.mem_arguments hi)
  | value v =>
    cases v <;> exact { h with }
  | objectField x => exact { h with }

theorem known_foldl (hs : s.Closed) (above : List Node) :
    Known s (above.foldl (Frame.enter .standard s) .empty) := by
  induction above using List.reverseRecOn with
  | nil => exact known_empty
  | append_singleton above n ih =>
    rw [List.foldl_append]
    exact ih.enter hs n

end Frame
end GraphQLCheck
