import GraphQLCheck.Proofs.Schema.Lookahead

/-!
Reading declarations. The reader comes to an end on every source, and where it fails, a token did
not fit or something was declared twice. What it reads has distinct names.
-/
namespace GraphQLCheck
open Reader

/-- No interface knows what implements it, and no scalar has a check. -/
def TypeDef.Unlinked : TypeDef → Prop
  | .interface i => i.possibleInterfaces = [] ∧ i.possibleTypes = []
  | .scalar s => s.check = none
  | .object _ | .union _ | .enum _ | .input _ => True

theorem unlinked_readTypeDef : Yields TypeDef.Unlinked readTypeDef := by
  have hbodies : ∀ body ∈ [readObjectType, readInterfaceType, readUnionType, readEnumType,
      readScalarType, readInputObjectType], Yields TypeDef.Unlinked body := by
    simp only [List.forall_mem_cons, List.not_mem_nil, false_implies, implies_true, and_true]
    refine ⟨?_, ?_, ?_, ?_, ?_, ?_⟩
    · exact yields_bind fun _ => yields_bind fun _ => yields_bind fun _ => yields_bind fun _ =>
        yields_pure trivial
    · exact yields_bind fun _ => yields_bind fun _ => yields_bind fun _ => yields_bind fun _ =>
        yields_pure ⟨rfl, rfl⟩
    · exact yields_bind fun _ => yields_bind fun _ => yields_bind fun _ => yields_ite
        (fun _ => yields_bind fun _ => yields_pure trivial)
        fun _ => yields_bind fun _ => yields_pure trivial
    · exact yields_bind fun _ => yields_bind fun _ => yields_bind fun _ => yields_ite
        (fun _ => yields_bind fun _ => yields_bind fun _ => yields_pure trivial)
        fun _ => yields_pure trivial
    · exact yields_bind fun _ => yields_bind fun _ => yields_pure rfl
    · exact yields_bind fun _ => yields_bind fun _ => yields_bind fun _ => yields_pure trivial
  rw [readTypeDef_eq]
  refine yields_bind fun keyword => ?_
  cases hbody : typeBody? keyword with
  | none => exact yields_fail _
  | some body => exact yields_bind fun _ => hbodies body (mem_of_typeBody? hbody)

namespace Declarations

structure Distinct (d : Declarations) : Prop where
  types : (d.types.map TypeDef.name).Nodup
  directives : (d.directives.map DirectiveDef.name).Nodup
  unlinked : ∀ t ∈ d.types, t.Unlinked

theorem nodup_append_name {α : Type} {nameOf : α → String} {as : List α} {a : α}
    (h : (as.map nameOf).Nodup) (ha : ¬ as.any (nameOf · == nameOf a) = true) :
    ((as ++ [a]).map nameOf).Nodup := by
  rw [List.map_append, List.nodup_append]
  refine ⟨h, by simp, ?_⟩
  rintro _ hname _ hsingle rfl
  obtain ⟨b, hb, heq⟩ := List.mem_map.1 hname
  rw [List.map_singleton, List.mem_singleton] at hsingle
  exact ha (List.any_eq_true.2 ⟨b, hb, by simp [heq, hsingle]⟩)

theorem distinct_readDeclaration {sofar : Declarations} (h : sofar.Distinct) :
    Yields Distinct (readDeclaration sofar) := by
  refine yields_bind fun keyword => yields_ite (fun _ => ?_) fun _ => yields_ite (fun _ => ?_)
    fun _ => yields_ite (fun _ => yields_fail _) fun _ => ?_
  · refine yields_ite (fun _ => yields_fail _) fun _ => ?_
    exact yields_bind fun _ => yields_bind fun _ => yields_pure ⟨h.types, h.directives, h.unlinked⟩
  · refine yields_bind fun _ => yields_bind fun x =>
      yields_ite (fun _ => yields_fail _) fun hx => ?_
    exact yields_pure ⟨h.types, nodup_append_name h.directives hx, h.unlinked⟩
  · refine unlinked_readTypeDef.bind fun t ht => yields_ite (fun _ => yields_fail _) fun hname => ?_
    refine yields_pure ⟨nodup_append_name h.types hname, h.directives, ?_⟩
    exact List.forall_mem_append.2 ⟨h.unlinked, by simpa using ht⟩

theorem distinct_readDeclarationsWithin (n : Nat) {sofar : Declarations} (h : sofar.Distinct) :
    Yields Distinct (readDeclarationsWithin sofar n) := by
  induction n generalizing sofar with
  | zero => exact fun _ _ _ h => absurd h unfinished_ne_done
  | succ n ih =>
    exact yields_bind fun _ => yields_bind fun _ => yields_ite (fun _ => yields_pure h) fun _ =>
      (distinct_readDeclaration h).bind fun _ => ih

theorem distinct_empty : Distinct .empty where
  types := List.nodup_nil
  directives := List.nodup_nil
  unlinked _ h := absurd h List.not_mem_nil

theorem distinct_readDeclarations : Yields Distinct readDeclarations :=
  fun c => distinct_readDeclarationsWithin _ distinct_empty c

end Declarations

/-- Reading declarations fails for one of the reasons that are found while reading, or yields
declarations of distinct names. -/
theorem readDeclarations_cases (tracked : Bool) (source : List Char) :
    (∃ f rest, readDeclarations (.ofSource tracked source) = .failed f rest ∧ f.InReading) ∨
    ∃ d rest, readDeclarations (.ofSource tracked source) = .done d rest ∧ d.Distinct := by
  obtain ⟨d, rest, hdone⟩ | ⟨f, rest, hfailed, hf⟩ :=
    (settles_readDeclarations (c := .ofSource tracked source)).outcome
  · exact .inr ⟨d, rest, hdone, Declarations.distinct_readDeclarations _ _ _ hdone⟩
  · exact .inl ⟨f, rest, hfailed, hf⟩

end GraphQLCheck
