import GraphQLCheck.Proofs.Rules.Candidates
import GraphQLCheck.Proofs.Sorting.Parting

/-!
When `Candidate.compare` is an order. It mixes names with the relation of interfaces to what they
stand for, and neither knows of the other. What is in the way is just this: two interfaces that
stand for each other, and circles of three equally frequent candidates, one an interface before
what it stands for, the others by either (`Candidate.ordered_iff_clear`).
-/
namespace GraphQLCheck.Rules.Candidate

def above (a b : Candidate) : Bool := a.type.interface?.isSome && a.type.isSubType b.type

/-- Which of two equally frequent candidates comes first. -/
def Before (a b : Candidate) : Prop :=
  a.above b = true ∨ b.above a = false ∧ a.type.name < b.type.name

/-- The comparison is a strict weak order on these candidates. -/
structure Ordered (cs : List Candidate) : Prop where
  asymm : ∀ a ∈ cs, ∀ b ∈ cs, a.compare b = .lt → b.compare a ≠ .lt
  trans : ∀ a ∈ cs, ∀ b ∈ cs, ∀ c ∈ cs,
    a.compare b = .lt → b.compare c = .lt → a.compare c = .lt
  equal : ∀ a ∈ cs, ∀ b ∈ cs, ∀ c ∈ cs,
    a.compare b = .eq → b.compare c = .eq → a.compare c = .eq

/-- Interfaces and names never lead round in a circle. -/
structure Clear (cs : List Candidate) : Prop where
  oneWay : ∀ a ∈ cs, ∀ b ∈ cs, a.count = b.count → a.above b = true → b.above a = false
  noCircle : ∀ a ∈ cs, ∀ b ∈ cs, ∀ c ∈ cs, a.count = b.count → b.count = c.count →
    a.above b = true → b.Before c → ¬ c.Before a

def Named (cs : List Candidate) : Prop :=
  ∀ a ∈ cs, ∀ b ∈ cs, a.type.name = b.type.name → a.type = b.type

variable {a b c : Candidate} {cs : List Candidate}

theorem compare_lt :
    a.compare b = .lt ↔ b.count < a.count ∨ a.count = b.count ∧ a.Before b := by
  rw [compare, ← above, ← above, Before]
  rcases Nat.lt_trichotomy a.count b.count with h | h | h
  · rw [if_neg (by omega), if_pos h]
    simp only [reduceCtorEq, false_iff]
    omega
  · rw [if_neg (by omega), if_neg (by omega)]
    cases hab : a.above b with
    | true => simp [h]
    | false =>
      cases hba : b.above a with
      | true => simp [h]
      | false =>
        have hnames : Ord.compare a.type.name b.type.name = .lt ↔ a.type.name < b.type.name :=
          compareOfLessAndEq_eq_lt
        simp [h, hnames]
  · simp [h]

theorem compare_eq :
    a.compare b = .eq ↔ a.count = b.count ∧ a.above b = false ∧ b.above a = false ∧
      a.type.name = b.type.name := by
  rw [compare, ← above, ← above]
  rcases Nat.lt_trichotomy a.count b.count with h | h | h
  · rw [if_neg (by omega), if_pos h]
    simp only [reduceCtorEq, false_iff]
    omega
  · rw [if_neg (by omega), if_neg (by omega)]
    cases a.above b <;> cases b.above a <;> simp [h]
  · rw [if_pos h]
    simp only [reduceCtorEq, false_iff]
    omega

def precedes (a b : Candidate) : Bool := a.compare b = .lt

theorem not_before (hcount : a.count = b.count) (h : a.precedes b = false) : ¬ a.Before b :=
  fun hbefore => of_decide_eq_false h (compare_lt.2 (.inr ⟨hcount, hbefore⟩))

theorem before_total (h : ¬ b.Before a) : a.Before b ∨ a.type.name = b.type.name := by
  simp only [Before, not_or, not_and, Bool.not_eq_true] at h
  obtain ⟨hba, hnames⟩ := h
  cases hab : a.above b with
  | true => exact .inl (.inl hab)
  | false =>
    by_cases hname : a.type.name = b.type.name
    · exact .inr hname
    · have hle := String.not_lt.1 (hnames hab)
      exact .inl (.inr ⟨hba, String.not_le.1 fun hge => hname (String.le_antisymm hle hge)⟩)

theorem before_congr_right (htype : a.type = b.type) : c.Before a ↔ c.Before b := by
  rw [Before, Before, above, above, above, above, htype]

theorem before_congr_left (htype : a.type = b.type) : a.Before c ↔ b.Before c := by
  rw [Before, Before, above, above, above, above, htype]

namespace Clear

variable (h : Clear cs) (ha : a ∈ cs) (hb : b ∈ cs) (hc : c ∈ cs)
include h ha hb

theorem before_asymm (hcount : a.count = b.count) (hab : a.Before b) : ¬ b.Before a := by
  rintro (hba | ⟨habove, hba⟩) <;> obtain hab | ⟨habove', hab⟩ := hab
  · exact absurd (h.oneWay a ha b hb hcount hab) (by simp [hba])
  · exact absurd hba (by simp [habove'])
  · exact absurd hab (by simp [habove])
  · exact String.lt_asymm hab hba

include hc

theorem before_circle (hab' : a.count = b.count) (hbc' : b.count = c.count) (hab : a.Before b)
    (hbc : b.Before c) : ¬ c.Before a := by
  intro hca
  by_cases haboveab : a.above b = true
  · exact h.noCircle a ha b hb c hc hab' hbc' haboveab hbc hca
  by_cases habovebc : b.above c = true
  · exact h.noCircle b hb c hc a ha hbc' (hbc'.symm.trans hab'.symm) habovebc hca hab
  by_cases haboveca : c.above a = true
  · exact h.noCircle c hc a ha b hb (hbc'.symm.trans hab'.symm) hab' haboveca hab hbc
  have hac := String.lt_trans (hab.resolve_left haboveab).2 (hbc.resolve_left habovebc).2
  exact String.lt_asymm hac (hca.resolve_left haboveca).2

end Clear

theorem Clear.consistentOn (h : Clear cs) (hnamed : Named cs) :
    Sorting.ConsistentOn precedes cs where
  asymm a ha b hb hab := by
    refine decide_eq_false fun hba => ?_
    obtain hab | ⟨hcount, hab⟩ := compare_lt.1 (of_decide_eq_true hab)
    · obtain hba | ⟨hcount, -⟩ := compare_lt.1 hba <;> omega
    · obtain hba | ⟨-, hba⟩ := compare_lt.1 hba
      · omega
      · exact h.before_asymm ha hb hcount hab hba
  trans a ha b hb c hc hba hcb := by
    refine decide_eq_false fun hca => ?_
    have hba' := of_decide_eq_false hba
    have hcb' := of_decide_eq_false hcb
    rw [compare_lt, not_or, Nat.not_lt] at hba' hcb'
    have hcounts : a.count = b.count ∧ b.count = c.count := by
      obtain hca | ⟨hcount, -⟩ := compare_lt.1 hca <;> omega
    obtain ⟨hcount, hcount'⟩ := hcounts
    obtain hca | ⟨-, hca⟩ := compare_lt.1 hca
    · omega
    obtain hab | hname := before_total (not_before hcount.symm hba)
    · obtain hbc | hname := before_total (not_before hcount'.symm hcb)
      · exact h.before_circle ha hb hc hcount hcount' hab hbc hca
      · exact not_before hcount.symm hba ((before_congr_left (hnamed b hb c hc hname)).2 hca)
    · exact not_before hcount'.symm hcb ((before_congr_right (hnamed a ha b hb hname)).1 hca)

theorem ordered_of_consistentOn (h : Sorting.ConsistentOn precedes cs) (hnamed : Named cs) :
    Ordered cs where
  asymm a ha b hb hab := of_decide_eq_false (h.asymm a ha b hb (decide_eq_true hab))
  trans a ha b hb c hc hab hbc := by
    refine Decidable.by_contra fun hac => ?_
    have hcb := h.asymm b hb c hc (decide_eq_true hbc)
    exact of_decide_eq_false (h.trans b hb c hc a ha hcb (decide_eq_false hac)) hab
  equal a ha b hb c hc hab hbc := by
    obtain ⟨hcount, -, -, hname⟩ := compare_eq.1 hab
    have htype := hnamed a ha b hb hname
    obtain ⟨type, count⟩ := a
    obtain rfl : type = b.type := htype
    obtain rfl : count = b.count := hcount
    exact hbc

theorem Ordered.clear (h : Ordered cs) : Clear cs where
  oneWay a ha b hb hcount hab := by
    refine Bool.eq_false_iff.2 fun hba => ?_
    exact h.asymm a ha b hb (compare_lt.2 (.inr ⟨hcount, .inl hab⟩))
      (compare_lt.2 (.inr ⟨hcount.symm, .inl hba⟩))
  noCircle a ha b hb c hc hcount hcount' hab hbc hca := by
    have hac := h.trans a ha b hb c hc (compare_lt.2 (.inr ⟨hcount, .inl hab⟩))
      (compare_lt.2 (.inr ⟨hcount', hbc⟩))
    exact h.asymm a ha c hc hac (compare_lt.2 (.inr ⟨(hcount.trans hcount').symm, hca⟩))

theorem ordered_iff_clear (hnamed : Named cs) : Ordered cs ↔ Clear cs :=
  ⟨Ordered.clear, fun h => ordered_of_consistentOn (h.consistentOn hnamed) hnamed⟩

/-- Up to 20 candidates are sorted somehow, and any number where the comparison is an order. -/
theorem exists_sorted (hnamed : Named cs) (h : cs.length ≤ 20 ∨ Ordered cs) :
    ∃ sorted, sortCandidates? cs = some sorted := by
  obtain hshort | hordered := h
  · exact ⟨_, Sorting.stable?_of_length_le _ hshort⟩
  · obtain ⟨sorted, hsorted, -⟩ := (hordered.clear.consistentOn hnamed).stable?_rises
    exact ⟨sorted, hsorted⟩

/-! ### Another order of the candidates -/

theorem eq_of_not_precedes (hnamed : Named cs) (ha : a ∈ cs) (hb : b ∈ cs)
    (hab : a.precedes b = false) (hba : b.precedes a = false) : a = b := by
  have hab' := of_decide_eq_false hab
  have hba' := of_decide_eq_false hba
  rw [compare_lt, not_or, Nat.not_lt] at hab' hba'
  have hcount : a.count = b.count := Nat.le_antisymm hab'.1 hba'.1
  have htype : a.type = b.type := by
    obtain hbefore | hname := before_total (not_before hcount.symm hba)
    · exact absurd hbefore (not_before hcount hab)
    · exact hnamed a ha b hb hname
  obtain ⟨type, count⟩ := a
  obtain rfl : type = b.type := htype
  obtain rfl : count = b.count := hcount
  rfl

theorem sorted_of_perm (hnamed : Named cs) (hclear : Clear cs) {others : List Candidate}
    (hperm : cs.Perm others) :
    ∃ sorted, sortCandidates? cs = some sorted ∧ sortCandidates? others = some sorted := by
  have h := hclear.consistentOn hnamed
  have h' : Sorting.ConsistentOn precedes others :=
    ⟨fun a ha b hb => h.asymm a (hperm.mem_iff.2 ha) b (hperm.mem_iff.2 hb),
      fun a ha b hb c hc => h.trans a (hperm.mem_iff.2 ha) b (hperm.mem_iff.2 hb) c
        (hperm.mem_iff.2 hc)⟩
  obtain ⟨xs, hxs, hxsRising⟩ := h.stable?_rises
  obtain ⟨ys, hys, hysRising⟩ := h'.stable?_rises
  have hxsPerm := Sorting.stable?_perm hxs
  have hysPerm := (Sorting.stable?_perm hys).trans hperm.symm
  have heq : xs = ys := by
    refine List.Perm.eq_of_pairwise (fun a b ha hb hba hab => ?_) hxsRising hysRising
      (hxsPerm.trans hysPerm.symm)
    exact eq_of_not_precedes hnamed (hxsPerm.mem_iff.1 ha) (hysPerm.mem_iff.1 hb) hab hba
  exact ⟨xs, hxs, heq ▸ hys⟩

end GraphQLCheck.Rules.Candidate

namespace GraphQLCheck

/-! ### What the comparison does not ask for -/

def InterfaceType.plain (i : InterfaceType) : InterfaceType :=
  { i with possibleInterfaces := [], possibleTypes := [] }

def TypeDef.plain : TypeDef → TypeDef
  | .interface i => .interface i.plain
  | t => t

theorem TypeDef.name_plain (t : TypeDef) : t.plain.name = t.name := by
  cases t <;> rfl

namespace Rules.Candidate

def plain (c : Candidate) : Candidate := ⟨c.type.plain, c.count⟩

variable {cs : List Candidate}

theorem above_plain (a b : Candidate) : a.plain.above b.plain = a.above b := by
  obtain ⟨t, _⟩ := a
  obtain ⟨u, _⟩ := b
  cases t <;> cases u <;> rfl

theorem before_plain {a b : Candidate} : a.plain.Before b.plain ↔ a.Before b := by
  rw [Before, above_plain, above_plain, plain, plain, TypeDef.name_plain, TypeDef.name_plain,
    Before]

theorem compare_plain (a b : Candidate) : a.plain.compare b.plain = a.compare b := by
  rw [compare, ← above, ← above, above_plain, above_plain, plain, plain, TypeDef.name_plain,
    TypeDef.name_plain, compare, ← above, ← above]

theorem Named.plain (h : Named cs) : Named (cs.map Candidate.plain) := by
  simp only [Named, List.forall_mem_map]
  intro a ha b hb hname
  rw [Candidate.plain, Candidate.plain, TypeDef.name_plain, TypeDef.name_plain] at hname
  exact congrArg TypeDef.plain (h a ha b hb hname)

theorem Clear.plain (h : Clear cs) : Clear (cs.map Candidate.plain) where
  oneWay := by
    simp only [List.forall_mem_map, above_plain]
    exact h.oneWay
  noCircle := by
    simp only [List.forall_mem_map, above_plain, before_plain]
    exact h.noCircle

theorem sortCandidates?_plain (cs : List Candidate) :
    sortCandidates? (cs.map Candidate.plain) =
      (sortCandidates? cs).map (List.map Candidate.plain) :=
  Sorting.stable?_map (fun a b => by rw [compare_plain]) cs

end Rules.Candidate

end GraphQLCheck
