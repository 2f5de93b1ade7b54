import GraphQLCheck.Proofs.Schema.Acceptance

/-!
Interfaces and what implements them. A loaded interface names its implementors in the order of
their declarations and as often as they name the interface, so that it makes no difference which
of the two is asked.
-/
namespace GraphQLCheck

def TypeDef.objectNaming (interface : String) : TypeDef → List String
  | .object o => List.replicate (o.interfaces.count interface) o.name
  | _ => []

def TypeDef.interfaceNaming (interface : String) : TypeDef → List String
  | .interface i => List.replicate (i.interfaces.count interface) i.name
  | _ => []

namespace Declarations

variable {d : Declarations}

theorem replicate_filter (names : List String) (interface name : String) :
    ((names.filter (· == interface)).map fun _ => name) =
      List.replicate (names.count interface) name := by
  rw [List.filter_beq, List.map_replicate]

theorem objectsOf_eq (types : List TypeDef) (interface : String) :
    objectsOf types interface = types.flatMap (TypeDef.objectNaming interface) := by
  refine congrArg (List.flatMap · types) (funext fun t => ?_)
  cases t with
  | object o => exact replicate_filter o.interfaces interface o.name
  | _ => rfl

theorem interfacesOf_eq (types : List TypeDef) (interface : String) :
    interfacesOf types interface = types.flatMap (TypeDef.interfaceNaming interface) := by
  refine congrArg (List.flatMap · types) (funext fun t => ?_)
  cases t with
  | interface i => exact replicate_filter i.interfaces interface i.name
  | _ => rfl

theorem count_flatMap_of_nodup {f : TypeDef → List String}
    (hf : ∀ t, ∀ n ∈ f t, n = t.name) {types : List TypeDef}
    (hnodup : (types.map TypeDef.name).Nodup) {t : TypeDef} (ht : t ∈ types) :
    (types.flatMap f).count t.name = (f t).count t.name := by
  induction types with
  | nil => simp at ht
  | cons u us ih =>
    obtain ⟨hu, hus⟩ := List.nodup_cons.1 hnodup
    rw [List.flatMap_cons, List.count_append]
    obtain rfl | ht := List.mem_cons.1 ht
    · have hothers : (us.flatMap f).count t.name = 0 := by
        refine List.count_eq_zero.2 fun hmem => ?_
        obtain ⟨v, hv, hname⟩ := List.mem_flatMap.1 hmem
        exact hu (hf v _ hname ▸ List.mem_map_of_mem hv)
      rw [hothers, Nat.add_zero]
    · have hfirst : (f u).count t.name = 0 := by
        refine List.count_eq_zero.2 fun hmem => ?_
        exact hu (hf u _ hmem ▸ List.mem_map_of_mem ht)
      rw [hfirst, Nat.zero_add, ih hus ht]

theorem mem_objectNaming {interface : String} (t : TypeDef) :
    ∀ n ∈ t.objectNaming interface, n = t.name := by
  cases t with
  | object o => exact fun n hn => (List.mem_replicate.1 hn).2
  | _ => exact fun n hn => absurd hn List.not_mem_nil

theorem mem_interfaceNaming {interface : String} (t : TypeDef) :
    ∀ n ∈ t.interfaceNaming interface, n = t.name := by
  cases t with
  | interface i => exact fun n hn => (List.mem_replicate.1 hn).2
  | _ => exact fun n hn => absurd hn List.not_mem_nil

theorem types_load {s : Schema} (h : d.load = .ok s) : s.types = d.toSchema.types := by
  rw [load] at h
  split at h
  · simp at h
  · obtain rfl := Except.ok.inj h
    rfl

theorem mem_types_toSchema {t : TypeDef} (ht : t ∈ d.toSchema.types)
    (hscalar : ∀ x, t ≠ .scalar x) : ∃ u ∈ d.types, t = link d.types u := by
  rw [toSchema, List.mem_append, List.mem_map, mem_without] at ht
  obtain ⟨u, hu, rfl⟩ | ⟨name, -, -, rfl⟩ := ht
  · exact ⟨u, hu, rfl⟩
  · exact absurd rfl (hscalar _)

theorem object_mem_toSchema {o : ObjectType} (h : .object o ∈ d.toSchema.types) :
    .object o ∈ d.types := by
  obtain ⟨u, hu, heq⟩ := mem_types_toSchema h (by simp)
  cases u with
  | object p => rwa [heq]
  | _ => simp [link] at heq

theorem interface_mem_toSchema (hd : d.Distinct) {i : InterfaceType}
    (h : .interface i ∈ d.toSchema.types) :
    i.possibleTypes = d.types.flatMap (TypeDef.objectNaming i.name) ∧
      i.possibleInterfaces = d.types.flatMap (TypeDef.interfaceNaming i.name) ∧
      .interface ⟨i.name, i.fields, i.interfaces, [], []⟩ ∈ d.types := by
  obtain ⟨u, hu, heq⟩ := mem_types_toSchema h (by simp)
  cases u with
  | interface j =>
    obtain ⟨name, fields, interfaces, possibleInterfaces, possibleTypes⟩ := j
    obtain ⟨rfl, rfl⟩ : possibleInterfaces = [] ∧ possibleTypes = [] := hd.unlinked _ hu
    obtain rfl := TypeDef.interface.inj heq
    exact ⟨objectsOf_eq d.types name, interfacesOf_eq d.types name, hu⟩
  | _ => simp [link] at heq

end Declarations

namespace Schema

variable {s : Schema}

theorem exists_declarations {source : String} (h : read source = .ok s) :
    ∃ d rest, readDeclarations (.ofSource false source.toList) = .done d rest ∧ d.Distinct ∧
      s.types = d.toSchema.types := by
  obtain ⟨d, rest, hd, hdistinct, hload⟩ := read_eq_ok_iff.1 h
  exact ⟨d, rest, hd, hdistinct, Declarations.types_load hload⟩

theorem mem_possibleObjects (hnodup : (s.types.map TypeDef.name).Nodup) {t : TypeDef}
    {names : List String} (ht : t.possibleTypes? = some names) {o : ObjectType}
    (ho : .object o ∈ s.types) : o ∈ s.possibleObjects t ↔ names.contains o.name = true := by
  have hobjects : s.possibleObjects t =
      names.filterMap fun n => (s.type? n).bind TypeDef.object? := by
    cases t with
    | interface i =>
      obtain rfl := Option.some.inj ht
      rfl
    | union u =>
      obtain rfl := Option.some.inj ht
      rfl
    | _ => simp [TypeDef.possibleTypes?] at ht
  have hfind : ∀ {name : String} {p : ObjectType},
      (s.type? name).bind TypeDef.object? = some p → p.name = name := by
    intro name p hp
    obtain ⟨u, hu, hobject⟩ := Option.bind_eq_some_iff.1 hp
    have hname := (mem_of_type? hu).2
    cases u with
    | object q =>
      obtain rfl := Option.some.inj hobject
      exact hname
    | _ => simp [TypeDef.object?] at hobject
  have hself : (s.type? o.name).bind TypeDef.object? = some o := by
    have htype : s.type? o.name = some (.object o) := (Named.find?_eq_some hnodup).2 ⟨ho, rfl⟩
    rw [htype]
    rfl
  rw [hobjects, List.mem_filterMap, List.contains_iff_mem]
  constructor
  · rintro ⟨name, hname, ho⟩
    exact hfind ho ▸ hname
  · exact fun hname => ⟨o.name, hname, hself⟩

/-- The two directions of implementation agree in a loaded schema. An interface names the objects
and interfaces that implement it in the order of their declarations and as often as they name it;
so it makes no difference whether the object is asked for its interfaces, the interface for its
possible types, or the schema for subtypes or possible objects. With unions it makes no
difference either. -/
theorem implementors_agree {source : String} (h : read source = .ok s) :
    (∃ d rest, readDeclarations (.ofSource false source.toList) = .done d rest ∧
      ∀ i, .interface i ∈ s.types →
        i.possibleTypes = d.types.flatMap (TypeDef.objectNaming i.name) ∧
        i.possibleInterfaces = d.types.flatMap (TypeDef.interfaceNaming i.name)) ∧
    (∀ i o, .interface i ∈ s.types → .object o ∈ s.types →
      i.possibleTypes.count o.name = o.interfaces.count i.name ∧
      (o.interfaces.contains i.name = true ↔ i.possibleTypes.contains o.name = true) ∧
      (TypeDef.isSubType (.interface i) (.object o) = true ↔
        i.possibleTypes.contains o.name = true) ∧
      (o ∈ s.possibleObjects (.interface i) ↔ i.possibleTypes.contains o.name = true)) ∧
    (∀ i j, .interface i ∈ s.types → .interface j ∈ s.types →
      i.possibleInterfaces.count j.name = j.interfaces.count i.name) ∧
    ∀ u o, .union u ∈ s.types → .object o ∈ s.types →
      (TypeDef.isSubType (.union u) (.object o) = true ↔
        u.possibleTypes.contains o.name = true) ∧
      (o ∈ s.possibleObjects (.union u) ↔ u.possibleTypes.contains o.name = true) := by
  obtain ⟨d, rest, hd, hdistinct, htypes⟩ := exists_declarations h
  have hnodup : (s.types.map TypeDef.name).Nodup := htypes ▸ Declarations.nodup_types hdistinct
  rw [htypes]
  have hlinks := fun i hi => Declarations.interface_mem_toSchema (i := i) hdistinct hi
  refine ⟨⟨d, rest, hd, fun i hi => ⟨(hlinks i hi).1, (hlinks i hi).2.1⟩⟩, fun i o hi ho => ?_,
    fun i j hi hj => ?_, fun u o hu ho => ?_⟩
  · have hcount : i.possibleTypes.count o.name = o.interfaces.count i.name := by
      rw [(hlinks i hi).1]
      refine (Declarations.count_flatMap_of_nodup Declarations.mem_objectNaming hdistinct.types
        (Declarations.object_mem_toSchema ho)).trans ?_
      rw [TypeDef.objectNaming, TypeDef.name, List.count_replicate_self]
    have hagree : o.interfaces.contains i.name = true ↔
        i.possibleTypes.contains o.name = true := by
      rw [List.contains_iff_mem, List.contains_iff_mem, ← List.count_pos_iff, ← hcount,
        List.count_pos_iff]
    exact ⟨hcount, hagree, hagree, mem_possibleObjects hnodup rfl (htypes ▸ ho)⟩
  · rw [(hlinks i hi).2.1]
    refine (Declarations.count_flatMap_of_nodup Declarations.mem_interfaceNaming hdistinct.types
      (hlinks j hj).2.2).trans ?_
    rw [TypeDef.interfaceNaming, TypeDef.name, List.count_replicate_self]
  · exact ⟨Iff.rfl, mem_possibleObjects hnodup rfl (htypes ▸ ho)⟩

def repeatedNames : Declarations :=
  ⟨[.interface ⟨"I", [], [], [], []⟩, .object ⟨"A", [], ["I", "I"]⟩,
    .interface ⟨"J", [], ["I"], [], []⟩, .union ⟨"U", ["A"]⟩], [], none⟩

theorem implementors_agree_repeatedNames :
    read "interface I type A implements I & I interface J implements I union U = A" =
      .ok repeatedNames.toSchema ∧
    ∃ i o, .interface i ∈ repeatedNames.toSchema.types ∧
      .object o ∈ repeatedNames.toSchema.types ∧ o.interfaces.count i.name = 2 ∧
      i.possibleTypes.count o.name = o.interfaces.count i.name ∧
      o ∈ repeatedNames.toSchema.possibleObjects (.interface i) := by
  have hread : readDeclarations.run SchemaFault.error false
      "interface I type A implements I & I interface J implements I union U = A" =
      .ok repeatedNames := rfl
  have hload : repeatedNames.load = .ok repeatedNames.toSchema :=
    Declarations.load_of_fits (by decide +kernel) (by decide +kernel) rfl
  have hschema := read_eq_ok hread hload
  have hinterface : .interface ⟨"I", [], [], ["J"], ["A", "A"]⟩ ∈ repeatedNames.toSchema.types :=
    List.mem_cons_self
  have hobject : .object ⟨"A", [], ["I", "I"]⟩ ∈ repeatedNames.toSchema.types :=
    List.mem_cons_of_mem _ List.mem_cons_self
  obtain ⟨hcount, -, -, hpossible⟩ := (implementors_agree hschema).2.1 _ _ hinterface hobject
  exact ⟨hschema, _, _, hinterface, hobject, by decide, hcount, hpossible.2 (by decide)⟩

end Schema
end GraphQLCheck
