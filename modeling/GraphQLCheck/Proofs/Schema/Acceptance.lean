import GraphQLCheck.Proofs.Schema.Closed
import GraphQLCheck.Proofs.Schema.Reading

/-!
Which declarations are accepted. `ReferenceClosed` says of declarations that every reference in
them leads to a type of the kind that is wanted there, among the declared types and the built-in
scalars that are not declared again. Declarations are loaded exactly if they are closed in this
sense (`load_isOk`).
-/
namespace GraphQLCheck

namespace Named

variable {α : Type} {nameOf : α → String} {as : List α} {a : α} {name : String}

theorem find?_eq_some (h : (as.map nameOf).Nodup) :
    find? nameOf name as = some a ↔ a ∈ as ∧ nameOf a = name := by
  constructor
  · intro hfind
    exact ⟨List.mem_of_find?_eq_some hfind, by simpa using List.find?_some hfind⟩
  · rintro ⟨ha, rfl⟩
    induction as with
    | nil => simp at ha
    | cons b bs ih =>
      obtain ⟨hb, hbs⟩ := List.nodup_cons.1 h
      rw [find?, List.find?_cons]
      obtain rfl | ha := List.mem_cons.1 ha
      · simp
      · have hne : (nameOf b == nameOf a) = false :=
          beq_eq_false_iff_ne.2 fun heq => hb (heq ▸ List.mem_map_of_mem ha)
        rw [hne]
        exact ih hbs ha

end Named

namespace Declarations

/-- What a name stands for: a declaration, or a built-in scalar that is not declared again. -/
inductive Declares (d : Declarations) (name : String) : TypeDef → Prop
  | declared {t : TypeDef} : t ∈ d.types → t.name = name → Declares d name t
  | builtin : name ∈ Builtin.scalarNames → (∀ t ∈ d.types, t.name ≠ name) →
    Declares d name (.scalar ⟨name, Builtin.check? name⟩)

def HasInputType (d : Declarations) (i : InputDef) : Prop :=
  ∃ t, d.Declares i.type.name t ∧ t.isInput = true

def FieldFits (d : Declarations) (f : FieldDef) : Prop :=
  (∃ t, d.Declares f.type.name t ∧ t.isOutput = true) ∧ ∀ a ∈ f.arguments, d.HasInputType a

def Fits (d : Declarations) : TypeDef → Prop
  | .object o =>
    (∀ i ∈ o.interfaces, ∃ j, d.Declares i (.interface j)) ∧ ∀ f ∈ o.fields, d.FieldFits f
  | .interface i =>
    (∀ j ∈ i.interfaces, ∃ k, d.Declares j (.interface k)) ∧ ∀ f ∈ i.fields, d.FieldFits f
  | .union u => ∀ m ∈ u.possibleTypes, ∃ o, d.Declares m (.object o)
  | .input i => ∀ f ∈ i.fields, d.HasInputType f
  | .scalar _ | .enum _ => True

/-- Every reference leads to a type of the kind that is wanted. Without a schema definition a type
that has the default name of a root is taken for that root. -/
structure ReferenceClosed (d : Declarations) : Prop where
  types : ∀ t ∈ d.types, d.Fits t
  directives : ∀ x ∈ d.directives, ∀ a ∈ x.arguments, d.HasInputType a
  builtinDirectives : ∀ x ∈ Builtin.directives, (∀ y ∈ d.directives, y.name ≠ x.name) →
    ∀ a ∈ x.arguments, d.HasInputType a
  namedRoots : ∀ r, d.roots = some r → ∀ kind name, r.get? kind = some name →
    ∃ o, d.Declares name (.object o)
  defaultRoots : d.roots = none → ∀ (kind : OperationKind) t, d.Declares kind.defaultRoot t →
    ∃ o, t = .object o

/-- The object that a schema definition names for a kind of operation, or else the one of the
default name. -/
def IsRoot (d : Declarations) (kind : OperationKind) (o : ObjectType) : Prop :=
  (∃ r name, d.roots = some r ∧ r.get? kind = some name ∧ d.Declares name (.object o)) ∨
    d.roots = none ∧ d.Declares kind.defaultRoot (.object o)

variable {d : Declarations}

theorem mem_without {u : TypeDef} :
    u ∈ Named.without TypeDef.name d.types Builtin.scalars ↔
      ∃ name ∈ Builtin.scalarNames, (∀ t ∈ d.types, t.name ≠ name) ∧
        u = .scalar ⟨name, Builtin.check? name⟩ := by
  simp only [Named.without, List.mem_filter, Builtin.scalars, List.mem_map]
  constructor
  · rintro ⟨⟨name, hname, rfl⟩, hfree⟩
    refine ⟨name, hname, fun t ht heq => ?_, rfl⟩
    simp only [TypeDef.name, Bool.not_eq_true', List.any_eq_false, beq_iff_eq] at hfree
    exact hfree t ht heq
  · rintro ⟨name, hname, hfree, rfl⟩
    refine ⟨⟨name, hname, rfl⟩, ?_⟩
    simpa only [TypeDef.name, Bool.not_eq_true', List.any_eq_false, beq_iff_eq] using hfree

theorem nodup_types (hd : d.Distinct) : (d.toSchema.types.map TypeDef.name).Nodup := by
  have hlinked : (d.types.map (link d.types)).map TypeDef.name = d.types.map TypeDef.name := by
    rw [List.map_map]
    exact List.map_congr_left fun t _ => name_link d.types t
  have hscalars : (Builtin.scalars.map TypeDef.name).Nodup := by decide
  have hkept : ((Named.without TypeDef.name d.types Builtin.scalars).map TypeDef.name).Nodup :=
    hscalars.sublist (List.filter_sublist.map _)
  rw [toSchema, List.map_append, hlinked, List.nodup_append]
  refine ⟨hd.types, hkept, ?_⟩
  rintro _ ht _ hu rfl
  obtain ⟨t, ht, hname⟩ := List.mem_map.1 ht
  obtain ⟨u, hu, hsame⟩ := List.mem_map.1 hu
  obtain ⟨name, -, hfree, rfl⟩ := mem_without.1 hu
  exact hfree t ht (hname.trans hsame.symm)

theorem link_builtin (name : String) :
    link d.types (.scalar ⟨name, Builtin.check? name⟩) =
      .scalar ⟨name, Builtin.check? name⟩ := by
  rw [link, Option.or_self]

theorem type?_toSchema (hd : d.Distinct) {name : String} {t : TypeDef} :
    d.toSchema.type? name = some t ↔ ∃ u, d.Declares name u ∧ t = link d.types u := by
  rw [Schema.type?, Named.find?_eq_some (nodup_types hd), toSchema, List.mem_append, List.mem_map,
    mem_without]
  constructor
  · rintro ⟨⟨u, hu, rfl⟩ | ⟨n, hn, hfree, rfl⟩, hname⟩
    · exact ⟨u, .declared hu ((name_link d.types u).symm.trans hname), rfl⟩
    · obtain rfl : n = name := hname
      exact ⟨_, .builtin hn hfree, (link_builtin n).symm⟩
  · rintro ⟨u, hu | ⟨hn, hfree⟩, rfl⟩
    · rename_i hname
      exact ⟨.inl ⟨u, hu, rfl⟩, (name_link d.types u).trans hname⟩
    · rw [link_builtin]
      exact ⟨.inr ⟨name, hn, hfree, rfl⟩, rfl⟩

theorem any_type? (hd : d.Distinct) {p : TypeDef → Bool}
    (hp : ∀ t, p (link d.types t) = p t) (name : String) :
    (d.toSchema.type? name).any p = true ↔ ∃ t, d.Declares name t ∧ p t = true := by
  rw [Option.any_eq_true]
  simp only [type?_toSchema hd]
  constructor
  · rintro ⟨_, ⟨t, ht, rfl⟩, h⟩
    exact ⟨t, ht, hp t ▸ h⟩
  · rintro ⟨t, ht, h⟩
    exact ⟨_, ⟨t, ht, rfl⟩, (hp t).symm ▸ h⟩

theorem hasInputType_toSchema (hd : d.Distinct) (i : InputDef) :
    d.toSchema.hasInputType i = true ↔ d.HasInputType i :=
  any_type? hd (fun t => by cases t <;> rfl) i.type.name

theorem output_toSchema (hd : d.Distinct) (t : TypeRef) :
    (d.toSchema.resolve? t).any TypeDef.isOutput = true ↔
      ∃ u, d.Declares t.name u ∧ u.isOutput = true :=
  any_type? hd (fun t => by cases t <;> rfl) t.name

theorem object_toSchema (hd : d.Distinct) {name : String} {o : ObjectType} :
    (d.toSchema.type? name).bind TypeDef.object? = some o ↔ d.Declares name (.object o) := by
  rw [Option.bind_eq_some_iff]
  simp only [type?_toSchema hd]
  constructor
  · rintro ⟨_, ⟨t, ht, rfl⟩, h⟩
    cases t with
    | object p =>
      obtain rfl := Option.some.inj h
      exact ht
    | _ => simp [link, TypeDef.object?] at h
  · intro h
    exact ⟨_, ⟨_, h, rfl⟩, rfl⟩

theorem interface_toSchema (hd : d.Distinct) (name : String) :
    ((d.toSchema.type? name).bind TypeDef.interface?).isSome = true ↔
      ∃ i, d.Declares name (.interface i) := by
  rw [Option.isSome_iff_exists]
  simp only [Option.bind_eq_some_iff, type?_toSchema hd]
  constructor
  · rintro ⟨_, _, ⟨t, ht, rfl⟩, h⟩
    cases t with
    | interface i => exact ⟨i, ht⟩
    | _ => simp [link, TypeDef.interface?] at h
  · rintro ⟨i, h⟩
    exact ⟨_, _, ⟨_, h, rfl⟩, rfl⟩

theorem fits_toSchema (hd : d.Distinct) (t : TypeDef) :
    d.toSchema.fits (link d.types t) = true ↔ d.Fits t := by
  have hinputs : ∀ is : List InputDef,
      is.all d.toSchema.hasInputType = true ↔ ∀ i ∈ is, d.HasInputType i := by
    intro is
    rw [List.all_eq_true]
    exact forall₂_congr fun i _ => hasInputType_toSchema hd i
  have hfields : ∀ (interfaces : List String) (fields : List FieldDef),
      Schema.fits.fitsFields d.toSchema interfaces fields = true ↔
        (∀ i ∈ interfaces, ∃ j, d.Declares i (.interface j)) ∧ ∀ f ∈ fields, d.FieldFits f := by
    intro interfaces fields
    simp only [Schema.fits.fitsFields, Bool.and_eq_true, List.all_eq_true (l := interfaces),
      List.all_eq_true (l := fields), interface_toSchema hd, output_toSchema hd, hinputs, FieldFits]
  cases t with
  | object o => exact hfields o.interfaces o.fields
  | interface i => exact hfields i.interfaces i.fields
  | union u =>
    simp only [link, Schema.fits, Fits, List.all_eq_true, Option.isSome_iff_exists,
      object_toSchema hd]
  | input i => exact hinputs i.fields
  | scalar x => exact iff_of_true rfl trivial
  | enum e => exact iff_of_true rfl trivial

theorem all_fits_toSchema (hd : d.Distinct) :
    d.toSchema.types.all d.toSchema.fits = true ↔ ∀ t ∈ d.types, d.Fits t := by
  have hbuiltin : ∀ u ∈ Named.without TypeDef.name d.types Builtin.scalars,
      d.toSchema.fits u = true := by
    intro u hu
    obtain ⟨name, -, -, rfl⟩ := mem_without.1 hu
    rfl
  have htypes : d.toSchema.types =
      d.types.map (link d.types) ++ Named.without TypeDef.name d.types Builtin.scalars := rfl
  rw [htypes, List.all_append, Bool.and_eq_true, List.all_map, List.all_eq_true,
    and_iff_left (List.all_eq_true.2 hbuiltin)]
  exact forall₂_congr fun t _ => fits_toSchema hd t

theorem all_directives_toSchema (hd : d.Distinct) :
    (d.toSchema.directives.all fun x => x.arguments.all d.toSchema.hasInputType) = true ↔
      (∀ x ∈ d.directives, ∀ a ∈ x.arguments, d.HasInputType a) ∧
      ∀ x ∈ Builtin.directives, (∀ y ∈ d.directives, y.name ≠ x.name) →
        ∀ a ∈ x.arguments, d.HasInputType a := by
  have hdirectives : d.toSchema.directives =
      d.directives ++ Named.without DirectiveDef.name d.directives Builtin.directives := rfl
  simp only [hdirectives, List.all_append, Bool.and_eq_true, List.all_eq_true,
    hasInputType_toSchema hd, Named.without, List.mem_filter, Bool.not_eq_true',
    List.any_eq_false, beq_iff_eq, and_imp]

theorem rootFaults_of_name {kind : OperationKind} {name : String}
    (hname : d.rootName? kind = some name) :
    d.rootFaults d.toSchema kind = [] ↔
      (∃ o, d.toSchema.type? name = some (.object o)) ∨
        d.toSchema.type? name = none ∧ d.roots = none := by
  rw [rootFaults, hname]
  dsimp only
  cases ht : d.toSchema.type? name with
  | none => simp
  | some t => cases t <;> simp

theorem rootFaults_eq_nil (hd : d.Distinct) (kind : OperationKind) :
    d.rootFaults d.toSchema kind = [] ↔
      (∀ r, d.roots = some r → ∀ name, r.get? kind = some name →
        ∃ o, d.Declares name (.object o)) ∧
      (d.roots = none → ∀ t, d.Declares kind.defaultRoot t → ∃ o, t = .object o) := by
  have hobject : ∀ name, (∃ o, d.toSchema.type? name = some (.object o)) ↔
      ∃ o, d.Declares name (.object o) := by
    intro name
    simp only [← object_toSchema hd]
    cases d.toSchema.type? name with
    | none => simp
    | some t => cases t <;> simp [TypeDef.object?]
  cases hroots : d.roots with
  | some r =>
    cases hname : r.get? kind with
    | none =>
      have hrootName : d.rootName? kind = none := by rw [rootName?, hroots]; exact hname
      simp [rootFaults, hrootName, hname]
    | some name =>
      have hrootName : d.rootName? kind = some name := by rw [rootName?, hroots]; exact hname
      simp [rootFaults_of_name hrootName, hobject, hroots, hname]
  | none =>
    have hrootName : d.rootName? kind = some kind.defaultRoot := by rw [rootName?, hroots]
    simp only [rootFaults_of_name hrootName, hroots, and_true, reduceCtorEq, false_implies,
      implies_true, true_and, forall_const]
    constructor
    · rintro (⟨o, ho⟩ | hnone) t ht
      · have hlink := (type?_toSchema hd).2 ⟨t, ht, rfl⟩
        rw [ho, Option.some.injEq] at hlink
        cases t with
        | object p => exact ⟨p, rfl⟩
        | _ => simp [link] at hlink
      · rw [(type?_toSchema hd).2 ⟨t, ht, rfl⟩] at hnone
        simp at hnone
    · intro h
      cases ht : d.toSchema.type? kind.defaultRoot with
      | none => exact .inr rfl
      | some t =>
        obtain ⟨u, hu, rfl⟩ := (type?_toSchema hd).1 ht
        obtain ⟨o, rfl⟩ := h u hu
        exact .inl ⟨o, rfl⟩

theorem faults_eq_nil (hd : d.Distinct) : d.faults = [] ↔ d.ReferenceClosed := by
  have hkinds : ∀ kind : OperationKind, kind ∈ OperationKind.all := by
    intro kind
    cases kind <;> simp [OperationKind.all]
  rw [faults, List.append_eq_nil_iff, Schema.faults_eq_nil, all_fits_toSchema hd,
    all_directives_toSchema hd, List.flatMap_eq_nil_iff]
  simp only [rootFaults_eq_nil hd]
  constructor
  · rintro ⟨⟨htypes, hdirectives, hbuiltins⟩, hroots⟩
    exact ⟨htypes, hdirectives, hbuiltins, fun r hr kind => (hroots kind (hkinds kind)).1 r hr,
      fun hnone kind => (hroots kind (hkinds kind)).2 hnone⟩
  · intro h
    exact ⟨⟨h.types, h.directives, h.builtinDirectives⟩, fun kind _ =>
      ⟨fun r hr => h.namedRoots r hr kind, fun hnone => h.defaultRoots hnone kind⟩⟩

theorem load_isOk (hd : d.Distinct) : (∃ s, d.load = .ok s) ↔ d.ReferenceClosed := by
  rw [← faults_eq_nil hd, load]
  cases d.faults with
  | nil => simp
  | cons f fs => simp

theorem root?_load (hd : d.Distinct) {s : Schema} (h : d.load = .ok s) (kind : OperationKind)
    (o : ObjectType) : s.root? kind = some o ↔ d.IsRoot kind o := by
  have hroot : s.root? kind = d.root? d.toSchema kind := by
    rw [load] at h
    split at h
    · simp at h
    · obtain rfl := Except.ok.inj h
      cases kind <;> rfl
  rw [hroot, root?, Option.bind_eq_bind, Option.bind_eq_some_iff, IsRoot]
  have hobject : ∀ name, (do
      let type ← d.toSchema.type? name
      type.object?) = some o ↔ d.Declares name (.object o) := fun name => object_toSchema hd
  simp only [hobject, rootName?]
  cases d.roots with
  | none => simp
  | some r => simp

end Declarations

namespace Schema

theorem read_of_failed {source : String} {f : SchemaFault} {rest : Cursor}
    (h : readDeclarations (.ofSource false source.toList) = .failed f rest) :
    read source = .error (f.error source.toList rest.head) := by
  rw [read, Reader.run]
  simp [h, bind, Except.bind]

theorem read_of_done {source : String} {d : Declarations} {rest : Cursor}
    (h : readDeclarations (.ofSource false source.toList) = .done d rest) :
    read source = match d.load with
      | .ok s => .ok s
      | .error fault =>
        .error (.plain ("Validation error: " ++ fault.message) (some .graphQL)) := by
  rw [read, Reader.run]
  cases hload : d.load <;> simp [h, hload, bind, Except.bind]

theorem read_eq_ok_iff {source : String} {s : Schema} :
    read source = .ok s ↔ ∃ d rest,
      readDeclarations (.ofSource false source.toList) = .done d rest ∧ d.Distinct ∧
        d.load = .ok s := by
  constructor
  · intro h
    obtain ⟨f, rest, hf, -⟩ | ⟨d, rest, hd, hdistinct⟩ :=
      readDeclarations_cases false source.toList
    · rw [read_of_failed hf] at h
      simp at h
    · refine ⟨d, rest, hd, hdistinct, ?_⟩
      rw [read_of_done hd] at h
      cases hload : d.load with
      | ok t => simpa [hload] using h
      | error fault => simp [hload] at h
  · rintro ⟨d, rest, hd, -, hload⟩
    rw [read_of_done hd, hload]

end Schema
end GraphQLCheck
