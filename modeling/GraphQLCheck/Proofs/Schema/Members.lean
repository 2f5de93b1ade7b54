import GraphQLCheck.Schema.Declarations.Basic

/-!
The members of a definition: its fields, their arguments, the fields of an input object and the
values of an enum. Of several members of one name the last is declared (`mem_ofList`), in the place
of the first (`merged`). Where the names are distinct, all of them are declared as they are written
(`merged_eq_self`).
-/
namespace GraphQLCheck

namespace Named

variable {α : Type} {nameOf : α → String}

theorem put_of_not_mem {a : α} {as : List α} (h : nameOf a ∉ as.map nameOf) :
    put nameOf a as = as ++ [a] := by
  induction as with
  | nil => rfl
  | cons b bs ih =>
    rw [List.map_cons, List.mem_cons, not_or] at h
    rw [put, if_neg (Ne.symm h.1), ih h.2, List.cons_append]

theorem ofList_eq_self {as : List α} (h : (as.map nameOf).Nodup) : ofList nameOf as = as := by
  suffices hfold : ∀ bs : List α, ((bs ++ as).map nameOf).Nodup →
      as.foldl (fun bs a => put nameOf a bs) bs = bs ++ as from hfold [] h
  clear h
  induction as with
  | nil => exact fun bs _ => (List.append_nil bs).symm
  | cons a as ih =>
    intro bs h
    have ha : nameOf a ∉ bs.map nameOf := by
      rw [List.map_append, List.map_cons, List.nodup_append] at h
      exact fun hmem => h.2.2 _ hmem _ List.mem_cons_self rfl
    rw [List.foldl_cons, put_of_not_mem ha, ih (bs ++ [a]) (by simpa using h), List.append_assoc,
      List.singleton_append]

def IsLast (nameOf : α → String) (as : List α) (a : α) : Prop :=
  ∃ before after, as = before ++ a :: after ∧ nameOf a ∉ after.map nameOf

theorem not_isLast_nil {a : α} : ¬ IsLast nameOf [] a := by
  rintro ⟨before, after, h, -⟩
  simp at h

theorem isLast_cons {a b : α} {as : List α} :
    IsLast nameOf (b :: as) a ↔ a = b ∧ nameOf b ∉ as.map nameOf ∨ IsLast nameOf as a := by
  constructor
  · rintro ⟨before, after, h, ha⟩
    cases before with
    | nil =>
      obtain ⟨rfl, rfl⟩ := List.cons.inj h
      exact .inl ⟨rfl, ha⟩
    | cons c before => exact .inr ⟨before, after, (List.cons.inj h).2, ha⟩
  · rintro (⟨rfl, ha⟩ | ⟨before, after, rfl, ha⟩)
    · exact ⟨[], as, rfl, ha⟩
    · exact ⟨b :: before, after, rfl, ha⟩

theorem isLast_map {b : α} {as : List α} {f : α → α} (hf : ∀ a, nameOf (f a) = nameOf a) :
    IsLast nameOf (as.map f) b ↔ ∃ a, IsLast nameOf as a ∧ b = f a := by
  have hnames : ∀ bs : List α, (bs.map f).map nameOf = bs.map nameOf := by
    intro bs
    rw [List.map_map]
    exact List.map_congr_left fun a _ => hf a
  induction as with
  | nil => simp [not_isLast_nil]
  | cons c as ih =>
    simp only [List.map_cons, isLast_cons, ih, hf, hnames, or_and_right, exists_or, and_assoc,
      and_comm (a := nameOf c ∉ as.map nameOf), exists_eq_left]

theorem mem_put {a b : α} {as : List α} (h : (as.map nameOf).Nodup) :
    b ∈ put nameOf a as ↔ b = a ∨ b ∈ as ∧ nameOf b ≠ nameOf a := by
  induction as with
  | nil => simp [put]
  | cons c as ih =>
    obtain ⟨hc, has⟩ := List.nodup_cons.1 h
    rw [put]
    split
    · next hname =>
      -- The thing that is replaced is the only one of its name.
      have hothers : ∀ e ∈ as, nameOf e ≠ nameOf a := by
        intro e he heq
        exact hc (List.mem_map.2 ⟨e, he, heq.trans hname.symm⟩)
      rw [List.mem_cons, List.mem_cons]
      refine or_congr_right ⟨fun hb => ⟨.inr hb, hothers b hb⟩, ?_⟩
      rintro ⟨rfl | hb, hne⟩
      · exact absurd hname hne
      · exact hb
    · next hname =>
      rw [List.mem_cons, ih has, List.mem_cons]
      constructor
      · rintro (rfl | rfl | ⟨hb, hne⟩)
        · exact .inr ⟨.inl rfl, hname⟩
        · exact .inl rfl
        · exact .inr ⟨.inr hb, hne⟩
      · rintro (rfl | ⟨rfl | hb, hne⟩)
        · exact .inr (.inl rfl)
        · exact .inl rfl
        · exact .inr (.inr ⟨hb, hne⟩)

theorem mem_ofList {a : α} {as : List α} : a ∈ ofList nameOf as ↔ IsLast nameOf as a := by
  suffices hfold : ∀ bs : List α, (bs.map nameOf).Nodup →
      (a ∈ as.foldl (fun bs a => put nameOf a bs) bs ↔
        a ∈ bs ∧ nameOf a ∉ as.map nameOf ∨ IsLast nameOf as a) by
    simpa [ofList] using hfold [] List.nodup_nil
  induction as with
  | nil => simp [not_isLast_nil]
  | cons b as ih =>
    intro bs hbs
    rw [List.foldl_cons, ih _ (nodup_put nameOf b hbs), mem_put hbs, isLast_cons, List.map_cons,
      List.mem_cons, not_or]
    constructor
    · rintro (⟨rfl | ⟨ha, hne⟩, hfree⟩ | hlast)
      · exact .inr (.inl ⟨rfl, hfree⟩)
      · exact .inl ⟨ha, hne, hfree⟩
      · exact .inr (.inr hlast)
    · rintro (⟨ha, hne, hfree⟩ | ⟨rfl, hfree⟩ | hlast)
      · exact .inl ⟨.inr ⟨ha, hne⟩, hfree⟩
      · exact .inl ⟨.inl rfl, hfree⟩
      · exact .inr hlast

end Named

def DistinctInputs (inputs : List InputDef) : Prop := (inputs.map InputDef.name).Nodup

def DistinctFields (fields : List FieldDef) : Prop :=
  (fields.map FieldDef.name).Nodup ∧ ∀ f ∈ fields, DistinctInputs f.arguments

def FieldDef.merged (f : FieldDef) : FieldDef :=
  { f with arguments := Named.ofList InputDef.name f.arguments }

theorem FieldDef.merged_eq_self {f : FieldDef} (h : DistinctInputs f.arguments) :
    f.merged = f := by
  rw [merged, Named.ofList_eq_self h]

def mergedFields (fields : List FieldDef) : List FieldDef :=
  Named.ofList FieldDef.name (fields.map FieldDef.merged)

theorem mem_mergedFields {fields : List FieldDef} {f : FieldDef} :
    f ∈ mergedFields fields ↔ ∃ g, Named.IsLast FieldDef.name fields g ∧ f = g.merged := by
  rw [mergedFields, Named.mem_ofList]
  exact Named.isLast_map fun _ => rfl

theorem mergedFields_eq_self {fields : List FieldDef} (h : DistinctFields fields) :
    mergedFields fields = fields := by
  have hmerged : fields.map FieldDef.merged = fields :=
    (List.map_congr_left fun f hf => FieldDef.merged_eq_self (h.2 f hf)).trans (List.map_id' _)
  rw [mergedFields, hmerged, Named.ofList_eq_self h.1]

namespace TypeDef

def merged : TypeDef → TypeDef
  | .object o => .object { o with fields := mergedFields o.fields }
  | .interface i => .interface { i with fields := mergedFields i.fields }
  | .enum e => .enum { e with values := Named.ofList id e.values }
  | .input i => .input { i with fields := Named.ofList InputDef.name i.fields }
  | .union u => .union u
  | .scalar s => .scalar s

def DistinctMembers : TypeDef → Prop
  | .object o => DistinctFields o.fields
  | .interface i => DistinctFields i.fields
  | .enum e => e.values.Nodup
  | .input i => DistinctInputs i.fields
  | .union _ | .scalar _ => True

theorem merged_eq_self {t : TypeDef} (h : t.DistinctMembers) : t.merged = t := by
  cases t with
  | object o => rw [merged, mergedFields_eq_self h]
  | interface i => rw [merged, mergedFields_eq_self h]
  | enum e => rw [merged, Named.ofList_eq_self (by rwa [List.map_id])]
  | input i => rw [merged, Named.ofList_eq_self h]
  | union u => rfl
  | scalar s => rfl

@[simp]
theorem name_merged (t : TypeDef) : t.merged.name = t.name := by
  cases t <;> rfl

end TypeDef

namespace DirectiveDef

def merged (d : DirectiveDef) : DirectiveDef :=
  { d with arguments := Named.ofList InputDef.name d.arguments }

theorem merged_eq_self {d : DirectiveDef} (h : DistinctInputs d.arguments) : d.merged = d := by
  rw [merged, Named.ofList_eq_self h]

end DirectiveDef

namespace Declarations

def merged (d : Declarations) : Declarations :=
  ⟨d.types.map TypeDef.merged, d.directives.map DirectiveDef.merged, d.roots⟩

structure DistinctMembers (d : Declarations) : Prop where
  types : ∀ t ∈ d.types, t.DistinctMembers
  directives : ∀ x ∈ d.directives, DistinctInputs x.arguments

theorem merged_eq_self {d : Declarations} (h : d.DistinctMembers) : d.merged = d := by
  have htypes : d.types.map TypeDef.merged = d.types :=
    (List.map_congr_left fun t ht => TypeDef.merged_eq_self (h.types t ht)).trans (List.map_id' _)
  have hdirectives : d.directives.map DirectiveDef.merged = d.directives :=
    (List.map_congr_left fun x hx => DirectiveDef.merged_eq_self (h.directives x hx)).trans
      (List.map_id' _)
  rw [merged, htypes, hdirectives]

end Declarations
end GraphQLCheck
