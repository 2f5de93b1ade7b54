import GraphQLCheck.Proofs.Sorting.Runs

/-!
Sorting by parting at a pivot, where the comparison is an order, and from it the whole sort: there
always is a result, and it is sorted (`stable?_rises`). Which pivot is taken does not matter. The
comparison need be an order only of the elements that are sorted (`ConsistentOn.stable?_rises`).
-/
namespace GraphQLCheck.Sorting

variable {α : Type} {lt : α → α → Bool}

theorem split_eq {goesLeft : α → Bool} {pivot : Nat} {pivotLeft : Bool} {xs : List α}
    (hpivot : ∀ x, xs[pivot]? = some x → goesLeft x = pivotLeft) :
    split goesLeft pivot pivotLeft xs = (xs.filter goesLeft, xs.filter fun x => !goesLeft x) := by
  have hmarked : (xs.mapIdx fun i x => (x, if i = pivot then pivotLeft else goesLeft x)) =
      xs.map fun x => (x, goesLeft x) := by
    refine List.ext_getElem (by simp only [List.length_mapIdx, List.length_map]) fun i hi _ => ?_
    simp only [List.getElem_mapIdx, List.getElem_map]
    split
    · rename_i hi
      subst hi
      rw [hpivot _ (List.getElem?_eq_getElem _)]
    · rfl
  simp only [split, hmarked, List.filter_map, List.map_map]
  exact Prod.ext (List.map_id _) (List.map_id _)

section
variable (h : Consistent lt)
include h

theorem rising_parted {y : α} {all left right : List α} (hleft : Rising lt left)
    (hright : Rising lt right) (hbelow : left.Perm (all.filter (lt · y)))
    (habove : right.Perm (all.filter fun z => !lt z y)) : Rising lt (left ++ right) := by
  refine List.pairwise_append.2 ⟨hleft, hright, fun a ha b hb => ?_⟩
  have hay : lt a y = true := (List.mem_filter.1 (hbelow.mem_iff.1 ha)).2
  have hby : lt b y = false := by simpa using (List.mem_filter.1 (habove.mem_iff.1 hb)).2
  exact h.asymm (h.lt_of_lt_of_le hay hby)

theorem rising_equals {y : α} {all rest : List α} (hleast : ∀ z ∈ all, lt z y = false)
    (hrest : Rising lt rest) (habove : rest.Perm (all.filter fun z => !!lt y z)) :
    Rising lt (all.filter (fun z => !lt y z) ++ rest) := by
  have hle : ∀ a ∈ all.filter (fun z => !lt y z), ∀ b ∈ all, lt b a = false := fun a ha b hb =>
    h.trans (by simpa using (List.mem_filter.1 ha).2) (hleast b hb)
  refine List.pairwise_append.2 ⟨List.pairwise_of_forall_mem_list fun a ha b hb => ?_, hrest,
    fun a ha b hb => ?_⟩
  · exact hle a ha b (List.mem_filter.1 hb).1
  · exact hle a ha b (List.mem_filter.1 (habove.mem_iff.1 hb)).1

theorem least_of_first {before : Option α} {y : α} {all : List α}
    (hbefore : ∀ b, before = some b → ∀ x ∈ all, lt x b = false)
    (hfirst : (before.any (fun b => !lt b y) || (all.filter (lt · y)).isEmpty) = true) :
    ∀ z ∈ all, lt z y = false := by
  intro z hz
  obtain hfirst | hempty := Bool.or_eq_true_iff.1 hfirst
  · obtain ⟨b, hb, hby⟩ := (Option.any_eq_true _ _).1 hfirst
    exact h.trans (by simpa using hby) (hbefore b hb z hz)
  · exact Bool.eq_false_iff.2 (List.filter_eq_nil_iff.1 (List.isEmpty_iff.1 hempty) z hz)

theorem quick?_rises (limit : Nat) (before : Option α) (xs : List α)
    (hbefore : ∀ b, before = some b → ∀ x ∈ xs, lt x b = false) :
    Rises lt (quick? lt limit before xs) := by
  induction limit generalizing before xs with
  | zero =>
    rw [quick?]
    split
    · exact short?_rises h xs
    · exact byRuns?_rises h (by simp) xs
  | succ limit ih =>
    cases xs with
    | nil => exact short?_rises h []
    | cons x xs =>
      rw [quick?]
      split
      · exact short?_rises h (x :: xs)
      simp only
      generalize wideMedian lt (fun i => (x :: xs).getD i x) _ _ _ _ _ = p
      generalize hy : (x :: xs).getD p x = y
      generalize x :: xs = all at *
      have hpivot : ∀ z, all[p]? = some z → z = y := fun z hz => by
        rw [← hy, List.getD_eq_getElem?_getD, hz, Option.getD_some]
      have hself := h.irrefl y
      rw [split_eq fun z hz => by rw [hpivot z hz, hself],
        split_eq fun z hz => by rw [hpivot z hz, hself, Bool.not_false]]
      simp only
      split
      · rename_i hfirst
        obtain ⟨rest, hrest, hrising⟩ := ih none (all.filter fun z => !!lt y z) (by simp)
        exact ⟨all.filter (fun z => !lt y z) ++ rest, by rw [hrest, Option.map_some],
          rising_equals h (least_of_first h hbefore hfirst) hrising (quick?_perm hrest)⟩
      · obtain ⟨right, hright, hrightRising⟩ := ih (some y) (all.filter fun z => !lt z y)
          fun b hb z hz => by
            obtain rfl := Option.some.inj hb
            simpa using (List.mem_filter.1 hz).2
        obtain ⟨left, hleft, hleftRising⟩ := ih before (all.filter (lt · y))
          fun b hb z hz => hbefore b hb z (List.mem_filter.1 hz).1
        exact ⟨left ++ right, by rw [hright, hleft]; rfl,
          rising_parted h hleftRising hrightRising (quick?_perm hleft) (quick?_perm hright)⟩

theorem stable?_rises (xs : List α) : Rises lt (stable? lt xs) := by
  rw [stable?]
  split
  · exact ⟨_, rfl, insertion_rising h xs⟩
  split
  · exact byRuns?_rises h (by simp) xs
  · exact byRuns?_rises h (fun _ ys => quick?_rises h _ none ys (by simp)) xs

end

structure ConsistentOn (lt : α → α → Bool) (xs : List α) : Prop where
  asymm : ∀ a ∈ xs, ∀ b ∈ xs, lt a b = true → lt b a = false
  trans : ∀ a ∈ xs, ∀ b ∈ xs, ∀ c ∈ xs, lt b a = false → lt c b = false → lt c a = false

theorem ConsistentOn.stable?_rises {xs : List α} (h : ConsistentOn lt xs) :
    Rises lt (stable? lt xs) := by
  let below (a b : { x // x ∈ xs }) : Bool := lt a.val b.val
  have hbelow : Consistent below :=
    ⟨fun {a b} => h.asymm a a.2 b b.2, fun {a b c} => h.trans a a.2 b b.2 c c.2⟩
  obtain ⟨ys, hys, hrising⟩ := Sorting.stable?_rises hbelow xs.attach
  have hval : ∀ a b : { x // x ∈ xs }, lt a.val b.val = below a b := fun _ _ => rfl
  have hmap := stable?_map hval xs.attach
  rw [List.attach_map_subtype_val, hys, Option.map_some] at hmap
  exact ⟨ys.map Subtype.val, hmap, List.pairwise_map.2 hrising⟩

end GraphQLCheck.Sorting
