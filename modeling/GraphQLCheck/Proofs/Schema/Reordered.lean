import GraphQLCheck.Proofs.Schema.Ordered
import GraphQLCheck.Proofs.Schema.References

/-!
Schemas and declarations in another order. What a schema keeps by name may come in any order
(`Schema.Rearranged`), and a text may write the members of types, the arguments and the
definitions of directives in another order (`Declarations.Reordered`). As names are distinct,
putting everything in the order of names brings both back to the same schema.
-/
namespace GraphQLCheck

namespace Named

variable {α β : Type} {R : α → α → Prop} {as bs : List α}

/-- The same things up to `R`, in any order. -/
def Rearranged (R : α → α → Prop) (as bs : List α) : Prop :=
  ∃ cs, List.Forall₂ R as cs ∧ cs.Perm bs

theorem Rearranged.of_perm (hR : ∀ a, R a a) (h : as.Perm bs) : Rearranged R as bs :=
  ⟨as, List.forall₂_same.2 fun a _ => hR a, h⟩

theorem map_eq_of_forall₂ {f : α → β} (h : List.Forall₂ R as bs)
    (hR : ∀ a ∈ as, ∀ b, R a b → f a = f b) : as.map f = bs.map f := by
  induction h with
  | nil => rfl
  | cons hab _ ih =>
    rw [List.map_cons, List.map_cons, hR _ List.mem_cons_self _ hab,
      ih fun a ha => hR a (List.mem_cons_of_mem _ ha)]

theorem Rearranged.map_perm {f : α → β} (h : Rearranged R as bs)
    (hR : ∀ a ∈ as, ∀ b, R a b → f a = f b) : (as.map f).Perm (bs.map f) := by
  obtain ⟨cs, hcs, hperm⟩ := h
  rw [map_eq_of_forall₂ hcs hR]
  exact hperm.map f

theorem exists_of_forall₂ (h : List.Forall₂ R as bs) {b : α} (hb : b ∈ bs) :
    ∃ a ∈ as, R a b := by
  induction h with
  | nil => exact absurd hb List.not_mem_nil
  | @cons a _ _ _ hab _ ih =>
    obtain rfl | hb := List.mem_cons.1 hb
    · exact ⟨a, List.mem_cons_self, hab⟩
    · obtain ⟨a, ha, hR⟩ := ih hb
      exact ⟨a, List.mem_cons_of_mem _ ha, hR⟩

theorem Rearranged.exists_of_mem (h : Rearranged R as bs) {b : α} (hb : b ∈ bs) :
    ∃ a ∈ as, R a b := by
  obtain ⟨cs, hcs, hperm⟩ := h
  exact exists_of_forall₂ hcs (hperm.mem_iff.2 hb)

theorem Rearranged.sorted_map (nameOf : α → String) {g : α → α} (h : Rearranged R as bs)
    (hg : ∀ a, nameOf (g a) = nameOf a) (hR : ∀ a ∈ as, ∀ b, R a b → g a = g b)
    (hdistinct : (as.map nameOf).Nodup) :
    sorted nameOf (as.map g) = sorted nameOf (bs.map g) := by
  have hnames : (as.map g).map nameOf = as.map nameOf := by
    rw [List.map_map]
    exact List.map_congr_left fun a _ => hg a
  exact sorted_eq_of_perm nameOf (hnames ▸ hdistinct) (h.map_perm hR)

end Named

/-! ### Schemas -/

def FieldDef.Rearranged (f g : FieldDef) : Prop :=
  ∃ as, f.arguments.Perm as ∧ g = { f with arguments := as }

def FieldsRearranged (fs gs : List FieldDef) : Prop := Named.Rearranged FieldDef.Rearranged fs gs

def ObjectType.Rearranged (o p : ObjectType) : Prop :=
  ∃ fs, FieldsRearranged o.fields fs ∧ p = { o with fields := fs }

/-- The members of a type, in any order. Those of a union and the interfaces keep their order. -/
inductive TypeDef.Rearranged : TypeDef → TypeDef → Prop
  | object {o p : ObjectType} (h : o.Rearranged p) : Rearranged (.object o) (.object p)
  | interface {i : InterfaceType} {fs : List FieldDef} (h : FieldsRearranged i.fields fs) :
    Rearranged (.interface i) (.interface { i with fields := fs })
  | enum {e : EnumType} {values : List String} (h : e.values.Perm values) :
    Rearranged (.enum e) (.enum { e with values := values })
  | input {i : InputObjectType} {fs : List InputDef} (h : i.fields.Perm fs) :
    Rearranged (.input i) (.input { i with fields := fs })
  | union (u : UnionType) : Rearranged (.union u) (.union u)
  | scalar (s : ScalarType) : Rearranged (.scalar s) (.scalar s)

def DirectiveDef.Rearranged (x y : DirectiveDef) : Prop :=
  ∃ as, x.arguments.Perm as ∧ y = { x with arguments := as }

/-- Everything that is looked up by name, in any order. -/
structure Schema.Rearranged (s s' : Schema) : Prop where
  types : Named.Rearranged TypeDef.Rearranged s.types s'.types
  directives : Named.Rearranged DirectiveDef.Rearranged s.directives s'.directives
  queryRoot : Option.Rel ObjectType.Rearranged s.queryRoot s'.queryRoot
  mutationRoot : Option.Rel ObjectType.Rearranged s.mutationRoot s'.mutationRoot
  subscriptionRoot : Option.Rel ObjectType.Rearranged s.subscriptionRoot s'.subscriptionRoot

theorem FieldDef.Rearranged.refl (f : FieldDef) : f.Rearranged f := ⟨_, .refl _, rfl⟩

theorem FieldsRearranged.of_perm {fs gs : List FieldDef} (h : fs.Perm gs) :
    FieldsRearranged fs gs :=
  Named.Rearranged.of_perm FieldDef.Rearranged.refl h

theorem ObjectType.Rearranged.refl (o : ObjectType) : o.Rearranged o :=
  ⟨_, .of_perm (.refl _), rfl⟩

theorem ObjectType.rel_refl (o : Option ObjectType) : Option.Rel ObjectType.Rearranged o o := by
  cases o with
  | none => exact .none
  | some o => exact .some (.refl o)

theorem TypeDef.Rearranged.refl (t : TypeDef) : t.Rearranged t := by
  cases t with
  | object o => exact .object (.refl o)
  | interface i => exact .interface (.of_perm (.refl _))
  | enum e => exact .enum (.refl _)
  | input i => exact .input (.refl _)
  | union u => exact .union u
  | scalar s => exact .scalar s

theorem DirectiveDef.Rearranged.refl (x : DirectiveDef) : x.Rearranged x := ⟨_, .refl _, rfl⟩

theorem Schema.Rearranged.of_perm {s : Schema} {types : List TypeDef}
    {directives : List DirectiveDef} (htypes : s.types.Perm types)
    (hdirectives : s.directives.Perm directives) :
    s.Rearranged { s with types := types, directives := directives } where
  types := .of_perm TypeDef.Rearranged.refl htypes
  directives := .of_perm DirectiveDef.Rearranged.refl hdirectives
  queryRoot := ObjectType.rel_refl s.queryRoot
  mutationRoot := ObjectType.rel_refl s.mutationRoot
  subscriptionRoot := ObjectType.rel_refl s.subscriptionRoot

structure Schema.Distinct (s : Schema) : Prop where
  types : (s.types.map TypeDef.name).Nodup
  directives : (s.directives.map DirectiveDef.name).Nodup
  members : ∀ t ∈ s.types, t.DistinctMembers
  arguments : ∀ x ∈ s.directives, DistinctInputs x.arguments
  roots : ∀ kind o, s.root? kind = some o → DistinctFields o.fields

theorem Named.agree_self {α : Type} {nameOf : α → String} {same : α → α → Bool} {as : List α}
    (hnodup : (as.map nameOf).Nodup) (hsame : ∀ a ∈ as, same a a = true) :
    agree nameOf same as as = true := by
  rw [agree, beq_self_eq_true, Bool.true_and, List.all_eq_true]
  intro a ha
  rw [(find?_eq_some hnodup).2 ⟨ha, rfl⟩]
  exact hsame a ha

theorem ObjectType.same_self {o : ObjectType} (h : DistinctFields o.fields) :
    o.same o = true := by
  have hfield : ∀ f ∈ o.fields, f.same f = true := by
    intro f hf
    have harguments : Named.agree InputDef.name (fun i j => decide (i = j)) f.arguments
        f.arguments = true :=
      Named.agree_self (h.2 f hf) fun _ _ => decide_eq_true rfl
    rw [FieldDef.same, harguments, beq_self_eq_true, beq_self_eq_true]
    rfl
  rw [same, Named.agree_self h.1 hfield, beq_self_eq_true, beq_self_eq_true]
  rfl

theorem Schema.Distinct.isSubType_object {s : Schema} (hd : s.Distinct) {o p : ObjectType}
    (ho : .object o ∈ s.types) (hp : .object p ∈ s.types) :
    TypeDef.isSubType (.object o) (.object p) = true ↔ o = p := by
  rw [TypeDef.isSubType]
  constructor
  · intro hsame
    simp only [ObjectType.same, Bool.and_eq_true, beq_iff_eq] at hsame
    exact TypeDef.object.inj (List.inj_on_of_nodup_map hd.types ho hp hsame.1.1)
  · rintro rfl
    exact ObjectType.same_self (hd.members _ ho)

theorem FieldDef.Rearranged.ordered_eq {f g : FieldDef} (h : f.Rearranged g)
    (hd : DistinctInputs f.arguments) : f.ordered = g.ordered := by
  obtain ⟨as, hperm, rfl⟩ := h
  rw [FieldDef.ordered, FieldDef.ordered, Named.sorted_eq_of_perm InputDef.name hd hperm]

theorem FieldsRearranged.ordered_eq {fs gs : List FieldDef} (h : FieldsRearranged fs gs)
    (hd : DistinctFields fs) : orderedFields fs = orderedFields gs :=
  Named.Rearranged.sorted_map FieldDef.name h (fun _ => rfl)
    (fun f hf _ hfg => hfg.ordered_eq (hd.2 f hf)) hd.1

theorem ObjectType.Rearranged.ordered_eq {o p : ObjectType} (h : o.Rearranged p)
    (hd : DistinctFields o.fields) : o.ordered = p.ordered := by
  obtain ⟨fs, hfs, rfl⟩ := h
  rw [ObjectType.ordered, ObjectType.ordered, hfs.ordered_eq hd]

theorem TypeDef.Rearranged.ordered_eq {t u : TypeDef} (h : t.Rearranged u)
    (hd : t.DistinctMembers) : t.ordered = u.ordered := by
  cases h with
  | object h => exact congrArg TypeDef.object (h.ordered_eq hd)
  | interface h =>
    simp only [TypeDef.ordered, InterfaceType.ordered, h.ordered_eq hd]
  | enum h => simp only [TypeDef.ordered, EnumType.ordered, sortedNames_eq_of_perm h]
  | input h =>
    simp only [TypeDef.ordered, InputObjectType.ordered, Named.sorted_eq_of_perm InputDef.name hd h]
  | union _ => rfl
  | scalar _ => rfl

theorem DirectiveDef.Rearranged.ordered_eq {x y : DirectiveDef} (h : x.Rearranged y)
    (hd : DistinctInputs x.arguments) : x.ordered = y.ordered := by
  obtain ⟨as, hperm, rfl⟩ := h
  rw [DirectiveDef.ordered, DirectiveDef.ordered,
    Named.sorted_eq_of_perm InputDef.name hd hperm]

theorem ordered_eq_of_rel {a b : Option ObjectType}
    (h : Option.Rel ObjectType.Rearranged a b) (hd : ∀ o, a = some o → DistinctFields o.fields) :
    a.map ObjectType.ordered = b.map ObjectType.ordered := by
  cases h with
  | some h => exact congrArg some (h.ordered_eq (hd _ rfl))
  | none => rfl

theorem Schema.Rearranged.ordered_eq {s s' : Schema} (h : s.Rearranged s') (hd : s.Distinct) :
    s.ordered = s'.ordered := by
  rw [Schema.ordered, Schema.ordered,
    h.types.sorted_map TypeDef.name TypeDef.name_ordered
      (fun t ht _ htu => htu.ordered_eq (hd.members t ht)) hd.types,
    h.directives.sorted_map DirectiveDef.name (g := DirectiveDef.ordered) (fun _ => rfl)
      (fun x hx _ hxy => hxy.ordered_eq (hd.arguments x hx)) hd.directives,
    ordered_eq_of_rel h.queryRoot (hd.roots .query),
    ordered_eq_of_rel h.mutationRoot (hd.roots .mutation),
    ordered_eq_of_rel h.subscriptionRoot (hd.roots .subscription)]

/-! ### Loaded schemas -/

namespace Declarations

variable {d d' : Declarations}

theorem distinctMembers_link {t : TypeDef} (types : List TypeDef) (h : t.DistinctMembers) :
    (link types t).DistinctMembers := by
  cases t <;> exact h

theorem distinctMembers_toSchema (h : d.DistinctMembers) {t : TypeDef}
    (ht : t ∈ d.toSchema.types) : t.DistinctMembers := by
  rw [toSchema, List.mem_append, List.mem_map, mem_without] at ht
  obtain ⟨u, hu, rfl⟩ | ⟨name, -, -, rfl⟩ := ht
  · exact distinctMembers_link d.types (h.types u hu)
  · trivial

theorem distinct_load (hd : d.Distinct) (hmembers : d.DistinctMembers) {s : Schema}
    (h : d.load = .ok s) : s.Distinct where
  types := types_load h ▸ nodup_types hd
  directives := directives_load h ▸ nodup_directives hd
  members t ht := distinctMembers_toSchema hmembers (types_load h ▸ ht)
  arguments x hx := by
    rw [directives_load h, mem_directives_toSchema] at hx
    obtain hx | ⟨hx, -⟩ := hx
    · exact hmembers.directives x hx
    · have hbuiltin : ∀ x ∈ Builtin.directives, DistinctInputs x.arguments := by
        simp [Builtin.directives, DistinctInputs]
      exact hbuiltin x hx
  roots kind o ho := by
    have hdeclared : .object o ∈ d.types := by
      obtain ⟨_, _, -, -, hdeclares⟩ | ⟨-, hdeclares⟩ := (root?_load hd h kind o).1 ho <;>
        cases hdeclares with
        | declared ho _ => exact ho
    exact hmembers.types _ hdeclared

end Declarations

/-! ### Declarations -/

/-- A type is left as it is, or its members, no two of them of one name, are in another order. -/
def TypeDef.Reordered (t u : TypeDef) : Prop := t = u ∨ t.DistinctMembers ∧ t.Rearranged u

def DirectiveDef.Reordered (x y : DirectiveDef) : Prop :=
  x = y ∨ DistinctInputs x.arguments ∧ x.Rearranged y

/-- Types keep their order, as it is that of the objects that may stand for an interface. -/
structure Declarations.Reordered (d d' : Declarations) : Prop where
  types : List.Forall₂ TypeDef.Reordered d.types d'.types
  directives : Named.Rearranged DirectiveDef.Reordered d.directives d'.directives
  roots : d'.roots = d.roots

theorem FieldsRearranged.distinct {fs gs : List FieldDef} (h : FieldsRearranged fs gs)
    (hd : DistinctFields fs) : DistinctFields gs := by
  refine ⟨(h.map_perm fun f _ g hfg => ?_).nodup_iff.1 hd.1, fun g hg => ?_⟩
  · obtain ⟨as, -, rfl⟩ := hfg
    rfl
  · obtain ⟨f, hf, as, hperm, rfl⟩ := h.exists_of_mem hg
    exact (hperm.map InputDef.name).nodup_iff.1 (hd.2 f hf)

namespace TypeDef

variable {t u : TypeDef}

theorem Rearranged.distinct (h : t.Rearranged u) (hd : t.DistinctMembers) : u.DistinctMembers := by
  cases h with
  | object h =>
    obtain ⟨fs, hfs, rfl⟩ := h
    exact hfs.distinct hd
  | interface h => exact h.distinct hd
  | enum h => exact h.nodup_iff.1 hd
  | input h => exact (h.map InputDef.name).nodup_iff.1 hd
  | union _ => trivial
  | scalar _ => trivial

theorem Rearranged.name_eq (h : t.Rearranged u) : t.name = u.name := by
  cases h with
  | object h =>
    obtain ⟨_, -, rfl⟩ := h
    rfl
  | _ => rfl

theorem Reordered.name_eq (h : t.Reordered u) : t.name = u.name := by
  obtain rfl | ⟨-, h⟩ := h
  · rfl
  · exact h.name_eq

theorem Reordered.unlinked (h : t.Reordered u) (ht : t.Unlinked) : u.Unlinked := by
  obtain rfl | ⟨-, h⟩ := h
  · exact ht
  · cases h <;> exact ht

theorem Reordered.ordered_eq (h : t.Reordered u) : t.merged.ordered = u.merged.ordered := by
  obtain rfl | ⟨hd, h⟩ := h
  · rfl
  · rw [merged_eq_self hd, merged_eq_self (h.distinct hd), h.ordered_eq hd]

end TypeDef

namespace DirectiveDef

variable {x y : DirectiveDef}

theorem Reordered.name_eq (h : x.Reordered y) : x.name = y.name := by
  obtain rfl | ⟨-, as, -, rfl⟩ := h <;> rfl

theorem Reordered.ordered_eq (h : x.Reordered y) : x.merged.ordered = y.merged.ordered := by
  obtain rfl | ⟨hd, h⟩ := h
  · rfl
  · have hy : DistinctInputs y.arguments := by
      obtain ⟨as, hperm, rfl⟩ := h
      exact (hperm.map InputDef.name).nodup_iff.1 hd
    rw [merged_eq_self hd, merged_eq_self hy, h.ordered_eq hd]

end DirectiveDef

namespace Declarations

variable {d d' : Declarations}

theorem Reordered.distinct (h : d.Reordered d') (hd : d.Distinct) : d'.Distinct where
  types := Named.map_eq_of_forall₂ h.types (fun _ _ _ h => h.name_eq) ▸ hd.types
  directives := (h.directives.map_perm fun _ _ _ h => h.name_eq).nodup_iff.1 hd.directives
  unlinked u hu := by
    obtain ⟨t, ht, htu⟩ := Named.exists_of_forall₂ h.types hu
    exact htu.unlinked (hd.unlinked t ht)

structure Agree (d d' : Declarations) : Prop where
  types : d.types.map TypeDef.ordered = d'.types.map TypeDef.ordered
  directives : (d.directives.map DirectiveDef.ordered).Perm (d'.directives.map DirectiveDef.ordered)
  roots : d'.roots = d.roots

theorem Reordered.agree (h : d.Reordered d') : d.merged.Agree d'.merged where
  types := by
    rw [merged, merged, List.map_map, List.map_map]
    exact Named.map_eq_of_forall₂ h.types fun _ _ _ h => h.ordered_eq
  directives := by
    rw [merged, merged, List.map_map, List.map_map]
    exact h.directives.map_perm fun _ _ _ h => h.ordered_eq
  roots := h.roots

theorem objectsOf_ordered (types : List TypeDef) (interface : String) :
    objectsOf (types.map TypeDef.ordered) interface = objectsOf types interface := by
  rw [objectsOf, objectsOf, List.flatMap_map]
  refine List.flatMap_congr fun t _ => ?_
  cases t <;> rfl

theorem interfacesOf_ordered (types : List TypeDef) (interface : String) :
    interfacesOf (types.map TypeDef.ordered) interface = interfacesOf types interface := by
  rw [interfacesOf, interfacesOf, List.flatMap_map]
  refine List.flatMap_congr fun t _ => ?_
  cases t <;> rfl

theorem link_ordered (types : List TypeDef) (t : TypeDef) :
    link (types.map TypeDef.ordered) t.ordered = (link types t).ordered := by
  cases t with
  | interface i =>
    simp only [TypeDef.ordered, InterfaceType.ordered, link, objectsOf_ordered,
      interfacesOf_ordered]
  | _ => rfl

theorem without_map {α : Type} (nameOf : α → String) {f : α → α}
    (hf : ∀ a, nameOf (f a) = nameOf a) (taken as : List α) :
    Named.without nameOf (taken.map f) as = Named.without nameOf taken as := by
  simp only [Named.without, List.any_map, Function.comp_def, hf]

theorem Agree.types_toSchema (h : d.Agree d') :
    d.toSchema.types.map TypeDef.ordered = d'.toSchema.types.map TypeDef.ordered := by
  have hlinked : ∀ d : Declarations, (d.types.map (link d.types)).map TypeDef.ordered =
      (d.types.map TypeDef.ordered).map (link (d.types.map TypeDef.ordered)) := by
    intro d
    rw [List.map_map, List.map_map]
    exact List.map_congr_left fun t _ => (link_ordered d.types t).symm
  have hwithout := fun ts : List TypeDef =>
    without_map TypeDef.name TypeDef.name_ordered ts Builtin.scalars
  rw [toSchema, toSchema, List.map_append, List.map_append, hlinked, hlinked,
    ← hwithout d.types, ← hwithout d'.types, h.types]

theorem Agree.directives_toSchema (h : d.Agree d') :
    (d.toSchema.directives.map DirectiveDef.ordered).Perm
      (d'.toSchema.directives.map DirectiveDef.ordered) := by
  have hwithout := fun xs : List DirectiveDef =>
    without_map DirectiveDef.name (f := DirectiveDef.ordered) (fun _ => rfl) xs
      Builtin.directives
  have hkept : Named.without DirectiveDef.name d.directives Builtin.directives =
      Named.without DirectiveDef.name d'.directives Builtin.directives := by
    rw [← hwithout d.directives, ← hwithout d'.directives]
    exact List.filter_congr fun x _ => congrArg not h.directives.any_eq
  rw [toSchema, toSchema, List.map_append, List.map_append, hkept]
  exact h.directives.append_right _

theorem Agree.ordered_toSchema (h : d.Agree d') (hd : d.Distinct) :
    d.toSchema.ordered = d'.toSchema.ordered := by
  have hdirectives := Named.sorted_eq_of_perm DirectiveDef.name
    (by rw [List.map_map]; exact nodup_directives hd) h.directives_toSchema
  rw [Schema.ordered, Schema.ordered, h.types_toSchema, hdirectives]
  rfl

theorem Agree.rootName?_eq (h : d.Agree d') : d'.rootName? = d.rootName? := by
  funext kind
  rw [rootName?, rootName?, h.roots]

theorem Agree.faults_eq (h : d.Agree d') (hd : d.Distinct) : d'.faults = d.faults := by
  have hordered := h.ordered_toSchema hd
  have hroots : ∀ kind, d'.rootFaults d'.toSchema kind = d.rootFaults d.toSchema kind := by
    intro kind
    rw [← rootFaults_ordered, ← hordered, rootFaults_ordered, rootFaults, rootFaults,
      h.rootName?_eq, h.roots]
  rw [faults, faults, funext hroots, ← Schema.faults_ordered, ← hordered, Schema.faults_ordered]

theorem Agree.root?_eq (h : d.Agree d') (hd : d.Distinct) (kind : OperationKind) :
    (d'.root? d'.toSchema kind).map ObjectType.ordered =
      (d.root? d.toSchema kind).map ObjectType.ordered := by
  rw [← root?_ordered, ← root?_ordered, h.ordered_toSchema hd, root?, root?, h.rootName?_eq]

theorem Agree.load (h : d.Agree d') (hd : d.Distinct) {s : Schema} (hs : d.load = .ok s) :
    ∃ s', d'.load = .ok s' ∧ s'.ordered = s.ordered := by
  have hordered := (h.ordered_toSchema hd).symm
  rw [Declarations.load] at hs ⊢
  rw [h.faults_eq hd]
  cases hfaults : d.faults with
  | cons fault faults => simp [hfaults] at hs
  | nil =>
    rw [hfaults] at hs
    obtain rfl := Except.ok.inj hs
    refine ⟨_, rfl, Schema.mk.injEq .. |>.mpr ?_⟩
    exact ⟨congrArg Schema.types hordered, congrArg Schema.directives hordered,
      h.root?_eq hd .query, h.root?_eq hd .mutation, h.root?_eq hd .subscription⟩

end Declarations
end GraphQLCheck
