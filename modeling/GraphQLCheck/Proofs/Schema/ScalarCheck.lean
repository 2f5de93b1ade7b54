import GraphQLCheck.Proofs.Schema.Closed

/-!
What a schema says of its types does not hang on the checks of its scalars. Giving a scalar another
check changes what a look-up finds by `TypeDef.recheck` alone, which all questions about a type but
that for its check are blind to; names, directives and roots stay.
-/
namespace GraphQLCheck

theorem Named.map_put {α : Type} (nameOf : α → String) (a : α) {as : List α}
    (h : nameOf a ∈ as.map nameOf) : (put nameOf a as).map nameOf = as.map nameOf := by
  induction as with
  | nil => simp at h
  | cons b bs ih =>
    by_cases hb : nameOf b = nameOf a
    · rw [put, if_pos hb, List.map_cons, List.map_cons, hb]
    · rcases List.mem_cons.1 h with h | h
      · exact absurd h.symm hb
      · rw [put, if_neg hb, List.map_cons, List.map_cons, ih h]

namespace TypeDef

def recheck (name : String) (check : LiteralCheck) : TypeDef → TypeDef
  | scalar t => if t.name = name then scalar { t with check := some check } else scalar t
  | t => t

variable {name : String} {check : LiteralCheck}

theorem recheck_of_name_ne {t : TypeDef} (h : t.name ≠ name) : t.recheck name check = t := by
  cases t with
  | scalar t => exact if_neg h
  | _ => rfl

theorem apply_recheck {α : Type} (f : TypeDef → α)
    (hf : ∀ a b : ScalarType, a.name = b.name → f (scalar a) = f (scalar b)) (t : TypeDef) :
    f (t.recheck name check) = f t := by
  cases t with
  | scalar t =>
    rw [recheck]
    split
    · exact hf _ _ rfl
    · rfl
  | _ => rfl

variable (t : TypeDef)

@[simp]
theorem name_recheck : (t.recheck name check).name = t.name := apply_recheck _ (fun _ _ h => h) t

@[simp]
theorem isInput_recheck : (t.recheck name check).isInput = t.isInput :=
  apply_recheck _ (fun _ _ _ => rfl) t

@[simp]
theorem isOutput_recheck : (t.recheck name check).isOutput = t.isOutput :=
  apply_recheck _ (fun _ _ _ => rfl) t

@[simp]
theorem isComposite_recheck : (t.recheck name check).isComposite = t.isComposite :=
  apply_recheck _ (fun _ _ _ => rfl) t

@[simp]
theorem isLeaf_recheck : (t.recheck name check).isLeaf = t.isLeaf :=
  apply_recheck _ (fun _ _ _ => rfl) t

@[simp]
theorem object?_recheck : (t.recheck name check).object? = t.object? :=
  apply_recheck _ (fun _ _ _ => rfl) t

@[simp]
theorem interface?_recheck : (t.recheck name check).interface? = t.interface? :=
  apply_recheck _ (fun _ _ _ => rfl) t

@[simp]
theorem enum?_recheck : (t.recheck name check).enum? = t.enum? :=
  apply_recheck _ (fun _ _ _ => rfl) t

@[simp]
theorem input?_recheck : (t.recheck name check).input? = t.input? :=
  apply_recheck _ (fun _ _ _ => rfl) t

end TypeDef

namespace Schema

variable (s : Schema) (name : String) (check : LiteralCheck)

theorem withScalarCheck_of_none (h : ∀ t, s.type? name ≠ some (.scalar t)) :
    s.withScalarCheck name check = s := by
  rw [withScalarCheck]
  split
  · next t ht => exact absurd ht (h t)
  · rfl

theorem type?_withScalarCheck (n : String) :
    (s.withScalarCheck name check).type? n = (s.type? n).map (TypeDef.recheck name check) := by
  have hother : n ≠ name → (s.type? n).map (TypeDef.recheck name check) = s.type? n := by
    intro hn
    cases hfound : s.type? n with
    | none => rfl
    | some t =>
      have hname : t.name ≠ name := (mem_of_type? hfound).2 ▸ hn
      rw [Option.map_some, TypeDef.recheck_of_name_ne hname]
  rw [withScalarCheck]
  split
  · next t ht =>
    have hname : t.name = name := (mem_of_type? ht).2
    by_cases hn : n = name
    · have hself := Named.find?_put_self TypeDef.name (.scalar { t with check := some check })
        s.types
      rw [hn, ht, Option.map_some, TypeDef.recheck, if_pos hname, ← hname]
      exact hself
    · rw [hother hn]
      exact Named.find?_put_of_ne TypeDef.name _ (hname ▸ hn) s.types
  · next hnone =>
    by_cases hn : n = name
    · subst hn
      cases hfound : s.type? n with
      | none => rfl
      | some t =>
        cases t with
        | scalar t => exact absurd hfound (hnone t)
        | _ => rfl
    · exact (hother hn).symm

theorem typeNames_withScalarCheck : (s.withScalarCheck name check).typeNames = s.typeNames := by
  rw [withScalarCheck]
  split
  · next t ht =>
    have hmem : t.name ∈ s.types.map TypeDef.name := List.mem_map_of_mem (mem_of_type? ht).1
    exact congrArg sortedNames
      (Named.map_put TypeDef.name (.scalar { t with check := some check }) hmem)
  · rfl

theorem directive?_withScalarCheck (n : String) :
    (s.withScalarCheck name check).directive? n = s.directive? n := by
  rw [directive?, directives_withScalarCheck, directive?]

theorem resolve?_withScalarCheck (t : TypeRef) :
    (s.withScalarCheck name check).resolve? t = (s.resolve? t).map (TypeDef.recheck name check) :=
  s.type?_withScalarCheck name check t.name

theorem possibleObjects_withScalarCheck (t : TypeDef) :
    (s.withScalarCheck name check).possibleObjects t = s.possibleObjects t := by
  have hobject : ∀ n, ((s.withScalarCheck name check).type? n).bind TypeDef.object? =
      (s.type? n).bind TypeDef.object? := by
    intro n
    rw [type?_withScalarCheck]
    cases s.type? n with
    | none => rfl
    | some t => exact t.object?_recheck
  cases t with
  | object o => rfl
  | _ => simp only [possibleObjects, hobject]

end Schema
end GraphQLCheck
