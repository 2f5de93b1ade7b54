import GraphQLCheck.Suggestion.Basic
import GraphQLCheck.Proofs.Suggestion.Alignment
import Mathlib.Data.List.Perm.Basic

/-!
Names to suggest hang on the set of options only. The options that are near enough are ranked by
their distance and then by name, and as no two of them have the same rank, neither their order nor
how often they are given shows in what is suggested (`near_exact`).
-/
namespace GraphQLCheck.Suggestion

theorem isBefore_iff {a b : Nat × String} :
    isBefore a b = true ↔ a.1 < b.1 ∨ a.1 = b.1 ∧ a.2 ≤ b.2 := by
  simp only [isBefore, Bool.or_eq_true, Bool.and_eq_true, decide_eq_true_eq, beq_iff_eq]

theorem isBefore_trans (a b c : Nat × String) (h : isBefore a b = true)
    (h' : isBefore b c = true) : isBefore a c = true := by
  rw [isBefore_iff] at h h' ⊢
  rcases h with h | ⟨h, hab⟩ <;> rcases h' with h' | ⟨h', hbc⟩
  · exact .inl (Nat.lt_trans h h')
  · exact .inl (h' ▸ h)
  · exact .inl (h ▸ h')
  · exact .inr ⟨h.trans h', String.le_trans hab hbc⟩

theorem isBefore_total (a b : Nat × String) : (isBefore a b || isBefore b a) = true := by
  rw [Bool.or_eq_true, isBefore_iff, isBefore_iff]
  rcases Nat.lt_trichotomy a.1 b.1 with h | h | h
  · exact .inl (.inl h)
  · exact (String.le_total a.2 b.2).imp (fun h' => .inr ⟨h, h'⟩) fun h' => .inr ⟨h.symm, h'⟩
  · exact .inr (.inl h)

theorem isBefore_antisymm {a b : Nat × String} (h : isBefore a b = true)
    (h' : isBefore b a = true) : a = b := by
  rw [isBefore_iff] at h h'
  have hdistance : a.1 = b.1 := by omega
  refine Prod.ext hdistance ?_
  have hab : a.2 ≤ b.2 := h.elim (fun h => absurd h (by omega)) And.right
  have hba : b.2 ≤ a.2 := h'.elim (fun h => absurd h (by omega)) And.right
  exact String.le_antisymm hab hba

theorem pairwise_dropRepeats {α : Type} [DecidableEq α] {le : α → α → Prop} {as : List α}
    (hantisymm : ∀ a b, le a b → le b a → a = b) (h : as.Pairwise le) :
    (dropRepeats as).Pairwise fun a b => le a b ∧ a ≠ b := by
  fun_induction dropRepeats as with
  | case1 => exact .nil
  | case2 a => exact List.pairwise_singleton _ a
  | case3 a rest ih => exact ih (List.pairwise_cons.1 h).2
  | case4 a b rest hne ih =>
    obtain ⟨ha, hrest⟩ := List.pairwise_cons.1 h
    refine List.pairwise_cons.2 ⟨fun c hc => ?_, ih hrest⟩
    have hc := mem_dropRepeats.1 hc
    refine ⟨ha c hc, ?_⟩
    rintro rfl
    obtain heq | hc := List.mem_cons.1 hc
    · exact hne heq
    · exact hne (hantisymm _ _ (ha b List.mem_cons_self) ((List.pairwise_cons.1 hrest).1 _ hc))

section
variable (input : String) (options : List String)

def ranked : List (Nat × String) :=
  dropRepeats (((options.map fun o => (distance input o, o)).filter
    fun r => r.1 ≤ threshold input).mergeSort isBefore)

theorem near_eq_ranked : near input options = (ranked input options).map Prod.snd := rfl

variable {input options}

theorem mem_ranked {r : Nat × String} :
    r ∈ ranked input options ↔
      r.2 ∈ options ∧ r.1 = distance input r.2 ∧ r.1 ≤ threshold input := by
  obtain ⟨n, o⟩ := r
  simp only [ranked, mem_dropRepeats, List.mem_mergeSort, List.mem_filter, List.mem_map,
    Prod.mk.injEq, decide_eq_true_eq]
  constructor
  · rintro ⟨⟨o, ho, rfl, rfl⟩, hnear⟩
    exact ⟨ho, rfl, hnear⟩
  · rintro ⟨ho, rfl, hnear⟩
    exact ⟨⟨o, ho, rfl, rfl⟩, hnear⟩

theorem pairwise_ranked :
    (ranked input options).Pairwise fun a b => isBefore a b = true ∧ a ≠ b :=
  pairwise_dropRepeats (fun _ _ => isBefore_antisymm)
    (List.pairwise_mergeSort isBefore_trans isBefore_total _)

theorem mem_near {o : String} :
    o ∈ near input options ↔ o ∈ options ∧ distance input o ≤ threshold input := by
  rw [near_eq_ranked, List.mem_map]
  constructor
  · rintro ⟨r, hr, rfl⟩
    obtain ⟨hoption, hdistance, hnear⟩ := mem_ranked.1 hr
    exact ⟨hoption, hdistance ▸ hnear⟩
  · rintro ⟨hoption, hnear⟩
    exact ⟨(distance input o, o), mem_ranked.2 ⟨hoption, rfl, hnear⟩, rfl⟩

/-- Nearer options come first, and those that are equally near by name. -/
theorem pairwise_near : (near input options).Pairwise fun a b =>
    distance input a < distance input b ∨ distance input a = distance input b ∧ a < b := by
  rw [near_eq_ranked, List.pairwise_map]
  refine pairwise_ranked.imp_of_mem fun {a b} ha hb hab => ?_
  obtain ⟨-, ha, -⟩ := mem_ranked.1 ha
  obtain ⟨-, hb, -⟩ := mem_ranked.1 hb
  rw [← ha, ← hb]
  obtain h | ⟨heq, hle⟩ := isBefore_iff.1 hab.1
  · exact .inl h
  · refine .inr ⟨heq, String.not_le.1 fun hge => hab.2 (Prod.ext heq ?_)⟩
    exact String.le_antisymm hle hge

theorem nodup_near : (near input options).Nodup := by
  refine pairwise_near.imp fun {a b} h => ?_
  rintro rfl
  obtain h | ⟨-, h⟩ := h
  · exact Nat.lt_irrefl _ h
  · exact String.lt_irrefl _ h

theorem near_eq_of_mem_iff {others : List String} (h : ∀ o, o ∈ others ↔ o ∈ options) :
    near input others = near input options := by
  have hmembers : ∀ o, o ∈ near input others ↔ o ∈ near input options := by
    intro o
    rw [mem_near, mem_near, h]
  refine List.Perm.eq_of_pairwise (fun a b _ _ hab hba => ?_) pairwise_near pairwise_near
    ((List.perm_ext_iff_of_nodup nodup_near nodup_near).2 hmembers)
  obtain hab | ⟨heq, hab⟩ := hab
  · exact absurd hab (by omega)
  · obtain hba | ⟨-, hba⟩ := hba
    · exact absurd hba (by omega)
    · exact absurd (String.lt_trans hab hba) (String.lt_irrefl a)

end

theorem near_eq_of_perm (input : String) {as bs : List String} (h : as.Perm bs) :
    near input as = near input bs :=
  near_eq_of_mem_iff fun _ => h.mem_iff

/-- Nothing for the text itself, one edit where case alone differs, and otherwise the least cost of
a script of edits between the texts in lower case. -/
structure IsDistance (input option : String) (n : Nat) : Prop where
  same : input = option → n = 0
  sameCase : input ≠ option → Text.lowercase input = Text.lowercase option → n = 1
  edited : input ≠ option → Text.lowercase input ≠ Text.lowercase option →
    IsLeast {k | ∃ script, Distance.Turns script (Text.lowercase input).toList
      (Text.lowercase option).toList ∧ Distance.cost script = k} n

theorem isDistance_distance (input option : String) :
    IsDistance input option (distance input option) where
  same h := if_pos h
  sameCase h hcase := by rw [distance, if_neg h, if_pos hcase]
  edited h hcase := by
    rw [distance, if_neg h, if_neg hcase]
    exact Distance.between_isLeast _ _

/-- What is near is suggested, once and in the order of its rank, whatever the order of the options
is and however often they are given. -/
theorem near_exact (input : String) (options : List String) :
    (∀ o, o ∈ near input options ↔
      o ∈ options ∧ distance input o ≤ 2 * input.length / 5 + 1) ∧
    (near input options).Nodup ∧
    ((near input options).Pairwise fun a b =>
      distance input a < distance input b ∨ distance input a = distance input b ∧ a < b) ∧
    (∀ others : List String, (∀ o, o ∈ others ↔ o ∈ options) →
      near input others = near input options) ∧
    ∀ o, IsDistance input o (distance input o) := by
  refine ⟨fun o => ?_, nodup_near, pairwise_near, fun others => near_eq_of_mem_iff,
    isDistance_distance input⟩
  rw [mem_near, threshold, Nat.mul_comm]

theorem near_exact_repeated :
    (∀ o, o ∈ ["bb", "ba", "aa", "bb"] ↔ o ∈ ["aa", "ba", "bb"]) ∧
    near "ab" ["bb", "ba", "aa", "bb"] = near "ab" ["aa", "ba", "bb"] ∧
    near "ab" ["aa", "ba", "bb"] = ["aa", "ba", "bb"] := by
  have hmembers : ∀ o, o ∈ ["bb", "ba", "aa", "bb"] ↔ o ∈ ["aa", "ba", "bb"] := by
    intro o
    simp only [List.mem_cons, List.not_mem_nil, or_false]
    tauto
  have hranked : ranked "ab" ["aa", "ba", "bb"] = [(1, "aa"), (1, "ba"), (1, "bb")] := by
    rw [ranked, List.mergeSort_of_pairwise (by decide +kernel)]
    decide +kernel
  exact ⟨hmembers, (near_exact "ab" ["aa", "ba", "bb"]).2.2.2.1 _ hmembers,
    by rw [near_eq_ranked, hranked]; rfl⟩

end GraphQLCheck.Suggestion
