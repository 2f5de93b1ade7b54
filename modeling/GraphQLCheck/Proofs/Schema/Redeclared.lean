import GraphQLCheck.Proofs.Schema.Reordered
import Mathlib.Data.List.Perm.Basic

/-!
Types in another order. Where types are declared in another order, and unions name their members
in another order, every name still stands for the same type, up to the order in which unions name
their members and interfaces what implements them (`Declarations.Redeclared.type?`).
-/
namespace GraphQLCheck

/-- One type, up to the order in which it names what may stand for it. -/
inductive TypeDef.Redeclared : TypeDef → TypeDef → Prop
  | same (t : TypeDef) : Redeclared t t
  | union (name : String) {members members' : List String} (h : members.Perm members') :
    Redeclared (.union ⟨name, members⟩) (.union ⟨name, members'⟩)
  | interface (i : InterfaceType) {interfaces types : List String}
    (hinterfaces : i.possibleInterfaces.Perm interfaces) (htypes : i.possibleTypes.Perm types) :
    Redeclared (.interface i)
      (.interface { i with possibleInterfaces := interfaces, possibleTypes := types })

namespace TypeDef.Redeclared

variable {t u : TypeDef} (h : t.Redeclared u)
include h

theorem symm : u.Redeclared t := by
  cases h with
  | same => exact .same t
  | union name h => exact .union name h.symm
  | interface i hinterfaces htypes => exact .interface _ hinterfaces.symm htypes.symm

theorem name_eq : t.name = u.name := by
  cases h <;> rfl

theorem object?_eq : t.object? = u.object? := by
  cases h <;> rfl

theorem isAbstract_eq : t.isAbstract = u.isAbstract := by
  cases h <;> rfl

theorem possibleTypes?_perm : (t.possibleTypes?.getD []).Perm (u.possibleTypes?.getD []) := by
  cases h with
  | same => exact .refl _
  | union _ h => exact h
  | interface _ _ h => exact h

theorem objectNaming_eq (interface : String) :
    t.objectNaming interface = u.objectNaming interface := by
  cases h <;> rfl

theorem interfaceNaming_eq (interface : String) :
    t.interfaceNaming interface = u.interfaceNaming interface := by
  cases h <;> rfl

end TypeDef.Redeclared

namespace Declarations

variable {d d' : Declarations}

def Redeclared (d d' : Declarations) : Prop :=
  Named.Rearranged TypeDef.Redeclared d.types d'.types

theorem Redeclared.flatMap_perm {α : Type} {f : TypeDef → List α} (h : d.Redeclared d')
    (hf : ∀ t u, TypeDef.Redeclared t u → f t = f u) :
    (d.types.flatMap f).Perm (d'.types.flatMap f) := by
  rw [List.flatMap_def, List.flatMap_def]
  exact (h.map_perm fun t _ u htu => hf t u htu).flatten

theorem Redeclared.link (h : d.Redeclared d') {t u : TypeDef} (htu : t.Redeclared u) :
    (link d.types t).Redeclared (link d'.types u) := by
  have hobjects : ∀ i, (objectsOf d.types i).Perm (objectsOf d'.types i) := by
    intro i
    rw [objectsOf_eq, objectsOf_eq]
    exact h.flatMap_perm fun t u htu => htu.objectNaming_eq i
  have hinterfaces : ∀ i, (interfacesOf d.types i).Perm (interfacesOf d'.types i) := by
    intro i
    rw [interfacesOf_eq, interfacesOf_eq]
    exact h.flatMap_perm fun t u htu => htu.interfaceNaming_eq i
  cases htu with
  | same =>
    cases t with
    | interface i =>
      exact .interface _ ((hinterfaces i.name).append_left _) ((hobjects i.name).append_left _)
    | _ => exact .same _
  | union name h => exact .union name h
  | interface i hi ht =>
    exact .interface _ (hi.append (hinterfaces i.name)) (ht.append (hobjects i.name))

theorem Redeclared.symm (h : d.Redeclared d') : d'.Redeclared d := by
  obtain ⟨cs, hcs, hperm⟩ := h
  have hback : List.Forall₂ TypeDef.Redeclared cs d.types :=
    (hcs.imp fun _ _ htu => htu.symm).flip
  exact List.perm_comp_forall₂ hperm.symm hback

theorem Redeclared.declares (h : d.Redeclared d') {name : String} {t : TypeDef}
    (ht : d.Declares name t) : ∃ u, d'.Declares name u ∧ t.Redeclared u := by
  cases ht with
  | declared ht hname =>
    obtain ⟨u, hu, hut⟩ := h.symm.exists_of_mem ht
    exact ⟨u, .declared hu (hut.name_eq.trans hname), hut.symm⟩
  | builtin hbuiltin hfree =>
    refine ⟨_, .builtin hbuiltin fun u hu hname => ?_, .same _⟩
    obtain ⟨t, ht, htu⟩ := h.exists_of_mem hu
    exact hfree t ht (htu.name_eq.trans hname)

theorem Redeclared.type?_isSome (h : d.Redeclared d') (hd : d.Distinct) (hd' : d'.Distinct)
    {name : String} {t : TypeDef} (ht : d.toSchema.type? name = some t) :
    ∃ u, d'.toSchema.type? name = some u ∧ t.Redeclared u := by
  obtain ⟨v, hv, rfl⟩ := (type?_toSchema hd).1 ht
  obtain ⟨u, hu, htu⟩ := h.declares hv
  exact ⟨_, (type?_toSchema hd').2 ⟨u, hu, rfl⟩, h.link htu⟩

theorem Redeclared.type? (h : d.Redeclared d') (hd : d.Distinct) (hd' : d'.Distinct)
    (name : String) :
    Option.Rel TypeDef.Redeclared (d.toSchema.type? name) (d'.toSchema.type? name) := by
  cases ht : d.toSchema.type? name with
  | some t =>
    obtain ⟨u, hu, htu⟩ := h.type?_isSome hd hd' ht
    exact hu ▸ .some htu
  | none =>
    cases hu : d'.toSchema.type? name with
    | none => exact .none
    | some u =>
      obtain ⟨t, ht', -⟩ := h.symm.type?_isSome hd' hd hu
      exact absurd (ht.symm.trans ht') nofun

end Declarations
end GraphQLCheck
