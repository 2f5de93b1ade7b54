import GraphQLCheck.Proofs.Sorting.Keeping
import GraphQLCheck.Proofs.Sorting.Natural

/-!
Sorting by an order: insertion, and merging sorted lists from either end. Where the comparison is an
order (`Consistent`), merging from the back is merging from the front read backwards, so that the
two ends of `meet?` fit together (`meet?_eq_merged`) and up to 32 elements are sorted
(`short?_rises`).
-/
namespace GraphQLCheck.Sorting

variable {α : Type} {lt : α → α → Bool}

/-- The comparison is an order: nothing precedes what precedes it, and what no element in front
precedes stays so further back. -/
structure Consistent (lt : α → α → Bool) : Prop where
  asymm {a b : α} : lt a b = true → lt b a = false
  trans {a b c : α} : lt b a = false → lt c b = false → lt c a = false

def Rising (lt : α → α → Bool) (xs : List α) : Prop := xs.Pairwise fun a b => lt b a = false

def Rises (lt : α → α → Bool) (result : Option (List α)) : Prop :=
  ∃ ys, result = some ys ∧ Rising lt ys

theorem Consistent.irrefl (h : Consistent lt) (a : α) : lt a a = false := by
  cases haa : lt a a with
  | false => rfl
  | true => exact haa.symm.trans (h.asymm haa)

theorem Consistent.lt_of_lt_of_le (h : Consistent lt) {a b c : α} (hab : lt a b = true)
    (hbc : lt c b = false) : lt a c = true := by
  cases hac : lt a c with
  | true => rfl
  | false => exact absurd hab (by simp [h.trans hbc hac])

theorem Consistent.lt_of_le_of_lt (h : Consistent lt) {a b c : α} (hab : lt b a = false)
    (hbc : lt b c = true) : lt a c = true := by
  cases hac : lt a c with
  | true => rfl
  | false => exact absurd hbc (by simp [h.trans hac hab])

theorem Consistent.trans_eq (h : Consistent lt) (down : Bool) {a b c : α} (hab : lt b a = down)
    (hbc : lt c b = down) : lt c a = down := by
  cases down with
  | false => exact h.trans hab hbc
  | true => exact h.lt_of_lt_of_le hbc (h.asymm hab)

/-! ### Insertion -/

theorem insertLast_falling (h : Consistent lt) (x : α) {ys : List α}
    (hys : ys.Pairwise fun a b => lt a b = false) :
    (insertLast lt x ys).Pairwise fun a b => lt a b = false := by
  induction ys with
  | nil => exact List.pairwise_singleton _ _
  | cons y ys ih =>
    obtain ⟨hy, hrest⟩ := List.pairwise_cons.1 hys
    rw [insertLast]
    split
    · rename_i hxy
      refine List.pairwise_cons.2 ⟨fun z hz => ?_, ih hrest⟩
      obtain rfl | hz := List.mem_cons.1 ((insertLast_perm lt x ys).mem_iff.1 hz)
      · exact h.asymm hxy
      · exact hy z hz
    · rename_i hxy
      refine List.pairwise_cons.2 ⟨fun z hz => ?_, hys⟩
      have hxy : lt x y = false := Bool.eq_false_iff.2 hxy
      obtain rfl | hz := List.mem_cons.1 hz
      · exact hxy
      · exact h.trans (hy z hz) hxy

theorem insertAll_rising (h : Consistent lt) {sorted : List α} (hsorted : Rising lt sorted)
    (xs : List α) : Rising lt (insertAll lt sorted xs) := by
  have hfold : ∀ acc : List α, (acc.Pairwise fun a b => lt a b = false) →
      (xs.foldl (fun sorted x => insertLast lt x sorted) acc).Pairwise
        fun a b => lt a b = false := by
    induction xs with
    | nil => exact fun _ hacc => hacc
    | cons x xs ih => exact fun acc hacc => ih _ (insertLast_falling h x hacc)
  exact List.pairwise_reverse.2 (hfold _ (List.pairwise_reverse.2 hsorted))

theorem insertion_rising (h : Consistent lt) (xs : List α) : Rising lt (insertion lt xs) :=
  insertAll_rising h .nil xs

/-! ### Merging from the front -/

/-- Merges two lists; of equals the element of the left one comes first. -/
def merged (lt : α → α → Bool) (left right : List α) : List α := left.merge right fun a b => !lt b a

theorem merged_rising (h : Consistent lt) {left right : List α} (hleft : Rising lt left)
    (hright : Rising lt right) : Rising lt (merged lt left right) := by
  have hmerge := @List.pairwise_merge _ (fun a b => !lt b a)
    (fun a b c hab hbc => by
      simp only [Bool.not_eq_true'] at hab hbc ⊢
      exact h.trans hab hbc)
    (fun a b => by
      cases hab : lt a b with
      | false => simp
      | true => simp [h.asymm hab])
    left right (hleft.imp fun hab => by simp [hab]) (hright.imp fun hab => by simp [hab])
  exact hmerge.imp fun hab => by simpa using hab

theorem mergeFirst_count (takeLeft : α → α → Bool) (n : Nat) {xs ys : List α} {side : α → Bool}
    (hxs : ∀ x ∈ xs, side x = true) (hys : ∀ y ∈ ys, side y = false) :
    (mergeFirst takeLeft n xs ys).2 = (mergeFirst takeLeft n xs ys).1.countP side := by
  fun_induction mergeFirst takeLeft n xs ys <;> simp_all

theorem merged_filter (lt : α → α → Bool) {left right : List α} {side : α → Bool}
    (hleft : ∀ a ∈ left, side a = true) (hright : ∀ b ∈ right, side b = false) :
    (merged lt left right).filter side = left ∧
      (merged lt left right).filter (fun a => !side a) = right := by
  rw [merged]
  fun_induction List.merge left right fun a b => !lt b a with
  | case1 ys => exact ⟨List.filter_eq_nil_iff.2 (by simpa using hright), by simpa using hright⟩
  | case2 xs _ => exact ⟨by simpa using hleft, List.filter_eq_nil_iff.2 (by simpa using hleft)⟩
  | case3 x xs y ys hxy ih =>
    obtain ⟨hx, hxs⟩ := List.forall_mem_cons.1 hleft
    obtain ⟨ihleft, ihright⟩ := ih hxs hright
    rw [List.filter_cons_of_pos hx, List.filter_cons_of_neg (by simp [hx]), ihleft, ihright]
    exact ⟨rfl, rfl⟩
  | case4 x xs y ys hxy ih =>
    obtain ⟨hy, hys⟩ := List.forall_mem_cons.1 hright
    obtain ⟨ihleft, ihright⟩ := ih hleft hys
    rw [List.filter_cons_of_neg (by simp [hy]), List.filter_cons_of_pos (by simp [hy]), ihleft,
      ihright]
    exact ⟨rfl, rfl⟩

/-! ### Merging from the back -/

theorem merged_concat_right {left right : List α} {y : α} (hleft : ∀ a ∈ left, lt y a = false) :
    merged lt left (right ++ [y]) = merged lt left right ++ [y] := by
  rw [merged, merged]
  fun_induction List.merge left right fun a b => !lt b a with
  | case1 ys => simp
  | case2 xs _ => exact List.merge_of_le (by simpa using hleft)
  | case3 x xs r rs hxr ih =>
    rw [List.cons_append, List.cons_merge_cons, if_pos hxr, ← List.cons_append,
      ih fun a ha => hleft a (List.mem_cons_of_mem x ha), List.cons_append]
  | case4 x xs r rs hxr ih =>
    rw [List.cons_append, List.cons_merge_cons, if_neg hxr, ih hleft, List.cons_append]

theorem merged_concat_left {left right : List α} {x : α} (hright : ∀ b ∈ right, lt b x = true) :
    merged lt (left ++ [x]) right = merged lt left right ++ [x] := by
  rw [merged, merged]
  fun_induction List.merge left right fun a b => !lt b a with
  | case1 ys =>
    induction ys with
    | nil => simp
    | cons y ys ih =>
      obtain ⟨hy, hys⟩ := List.forall_mem_cons.1 hright
      rw [List.nil_append, List.cons_merge_cons, if_neg (by simp [hy]), List.cons_append]
      exact congrArg (y :: ·) (ih hys)
  | case2 xs _ => simp
  | case3 a as r rs har ih =>
    rw [List.cons_append, List.cons_merge_cons, if_pos har, ih hright, List.cons_append]
  | case4 a as r rs har ih =>
    rw [List.cons_append, List.cons_merge_cons, if_neg har, ← List.cons_append,
      ih fun b hb => hright b (List.mem_cons_of_mem r hb), List.cons_append]

theorem reverse_merge_back (h : Consistent lt) {right left : List α}
    (hright : right.Pairwise fun a b => lt a b = false)
    (hleft : left.Pairwise fun a b => lt a b = false) :
    (right.merge left fun b a => !lt b a).reverse = merged lt left.reverse right.reverse := by
  fun_induction List.merge right left fun b a => !lt b a with
  | case1 ys => simp [merged]
  | case2 xs _ => simp [merged]
  | case3 b bs a as hba ih =>
    obtain ⟨hb, hbs⟩ := List.pairwise_cons.1 hright
    obtain ⟨ha, has⟩ := List.pairwise_cons.1 hleft
    have hba : lt b a = false := by simpa using hba
    have hfront : ∀ c ∈ (a :: as).reverse, lt b c = false := by
      simp only [List.mem_reverse, List.mem_cons, forall_eq_or_imp]
      exact ⟨hba, fun c hc => h.trans (ha c hc) hba⟩
    rw [List.reverse_cons, ih hbs hleft, @List.reverse_cons _ b bs, merged_concat_right hfront]
  | case4 b bs a as hba ih =>
    obtain ⟨hb, hbs⟩ := List.pairwise_cons.1 hright
    obtain ⟨ha, has⟩ := List.pairwise_cons.1 hleft
    have hba : lt b a = true := by simpa using hba
    have hbehind : ∀ c ∈ (b :: bs).reverse, lt c a = true := by
      simp only [List.mem_reverse, List.mem_cons, forall_eq_or_imp]
      exact ⟨hba, fun c hc => h.lt_of_le_of_lt (hb c hc) hba⟩
    rw [List.reverse_cons, ih hright has, @List.reverse_cons _ a as, merged_concat_left hbehind]

/-! ### Both ends -/

theorem length_merged (lt : α → α → Bool) (left right : List α) :
    (merged lt left right).length = left.length + right.length :=
  List.length_merge _ _ _

theorem fromFront_fst (n : Nat) (left right : List α) :
    (fromFront lt n left right).1 = (merged lt left right).take n :=
  mergeFirst_eq _ n left right

theorem fromBack_fst (h : Consistent lt) (n : Nat) {left right : List α} (hleft : Rising lt left)
    (hright : Rising lt right) :
    (fromBack lt n left right).1 =
      (merged lt left right).drop (left.length + right.length - n) := by
  have hback := reverse_merge_back h (List.pairwise_reverse.2 hright)
    (List.pairwise_reverse.2 hleft)
  rw [List.reverse_reverse, List.reverse_reverse] at hback
  rw [fromBack_eq, mergeFirst_eq, List.reverse_take, hback, List.length_merge,
    List.length_reverse, List.length_reverse, Nat.add_comm right.length]

theorem merge_eq_merged (h : Consistent lt) {left right : List α} (hleft : Rising lt left)
    (hright : Rising lt right) : merge lt left right = merged lt left right := by
  simp only [merge]
  split
  · rw [fromFront_fst, ← length_merged lt, List.take_length]
  · rw [fromBack_fst h _ hleft hright, Nat.sub_self, List.drop_zero]

theorem next_kept {kept : α → Bool} {all rest : List α} {n : Nat} {m : α}
    (hm : all.drop n = m :: rest) (hkept : kept m = true) :
    ((all.filter kept).drop ((all.take n).countP kept)).take 1 = [m] := by
  have hall : all.filter kept = (all.take n).filter kept ++ m :: rest.filter kept := by
    rw [← List.filter_cons_of_pos hkept, ← hm, ← List.filter_append, List.take_append_drop]
  rw [hall, List.countP_eq_length_filter, List.drop_left]
  rfl

section
variable {left right : List α} {side : α → Bool} (hl : ∀ a ∈ left, side a = true)
  (hr : ∀ b ∈ right, side b = false)
include hl hr

theorem fromFront_of_side (n : Nat) :
    fromFront lt n left right =
      ((merged lt left right).take n, ((merged lt left right).take n).countP side) := by
  rw [← fromFront_fst]
  exact Prod.ext rfl (mergeFirst_count _ n hl hr)

theorem fromBack_of_side (h : Consistent lt) (hleft : Rising lt left) (hright : Rising lt right)
    {n : Nat} (hn : n ≤ left.length + right.length) :
    fromBack lt n left right =
      ((merged lt left right).drop (left.length + right.length - n),
        ((merged lt left right).drop (left.length + right.length - n)).countP side) := by
  have hfst := fromBack_fst h n hleft hright
  have hlength := congrArg List.length hfst
  rw [List.length_drop, length_merged] at hlength
  rw [← hfst]
  refine Prod.ext rfl ?_
  have hright' : ∀ b ∈ right.reverse, !side b := by simpa using hr
  have hleft' : ∀ a ∈ left.reverse, (!side a) = false := by simpa using hl
  have hcount := mergeFirst_count (fun b a => !lt b a) n hright' hleft'
  have hall := List.length_eq_countP_add_countP side (l := (fromBack lt n left right).1)
  rw [fromBack_eq] at hall hlength ⊢
  simp only [List.countP_reverse, List.length_reverse, hcount] at hall hlength ⊢
  simp only [Bool.not_eq_true, Bool.decide_eq_false] at hall
  omega

/-- The ends meet, where it is known of each element which list it is from. -/
theorem meet?_of_side (h : Consistent lt) (hleft : Rising lt left) (hright : Rising lt right)
    (hlength : right.length = left.length ∨ right.length = left.length + 1) :
    meet? lt left right = some (merged lt left right) := by
  obtain ⟨hfilter, hfilter'⟩ := merged_filter lt hl hr
  have hback := fromBack_of_side hl hr h hleft hright (n := left.length) (by omega)
  have hsize := length_merged lt left right
  have hcount : (merged lt left right).countP side = left.length := by
    rw [List.countP_eq_length_filter, hfilter]
  simp only [meet?, fromFront_of_side hl hr, hback, Nat.add_sub_cancel_left]
  generalize merged lt left right = all at *
  obtain hlength | hlength := hlength
  · -- Nothing is left between the ends.
    have hall := List.take_append_drop right.length all
    have hsum := congrArg (List.countP side) hall
    rw [List.countP_append, hcount, hlength] at hsum
    rw [hlength, if_pos hsum, Nat.sub_self, List.take_zero, List.append_nil, ← hlength, hall]
  · -- One element is left, and it is the next one of the list that it is from.
    have hlt : left.length < all.length := by omega
    obtain ⟨m, hm⟩ : ∃ m, all.drop left.length = m :: all.drop right.length :=
      ⟨all[left.length], by rw [List.drop_eq_getElem_cons hlt, hlength]⟩
    have hall := List.take_append_drop left.length all
    have hfront := List.length_eq_countP_add_countP side (l := all.take left.length)
    have hsum := congrArg (List.countP side) hall
    rw [hm, List.countP_append, List.countP_cons, hcount] at hsum
    rw [List.length_take_of_le (by omega)] at hfront
    rw [show right.length - left.length = 1 by omega]
    cases hside : side m with
    | false =>
      have hright := @next_kept _ (fun a => !side a) _ _ _ _ hm (by simp [hside])
      simp only [hside, Bool.false_eq_true, if_false, Nat.add_zero] at hsum
      simp only [Bool.not_eq_true, Bool.decide_eq_false] at hfront
      rw [hfilter', ← Nat.sub_eq_of_eq_add' hfront] at hright
      rw [if_pos hsum, hright, List.append_assoc, List.singleton_append, ← hm, hall]
    | true =>
      simp only [hside, if_true] at hsum
      have hleft := next_kept hm hside
      rw [hfilter] at hleft
      rw [if_neg (by omega), if_pos ⟨by omega, hlength⟩, hleft, List.append_assoc,
        List.singleton_append, ← hm, hall]

end

/-- Which list an element is from need not be known: it can be written down beside the element. -/
theorem meet?_eq_merged (h : Consistent lt) {left right : List α} (hleft : Rising lt left)
    (hright : Rising lt right)
    (hlength : right.length = left.length ∨ right.length = left.length + 1) :
    meet? lt left right = some (merged lt left right) := by
  let below (a b : α × Bool) : Bool := lt a.1 b.1
  have hmark : ∀ (side : Bool) (xs : List α), (xs.map fun a => (a, side)).map Prod.fst = xs :=
    fun side xs => by rw [List.map_map]; exact List.map_id xs
  have hmeet : meet? below (left.map fun a => (a, true)) (right.map fun b => (b, false)) =
      some (merged below (left.map fun a => (a, true)) (right.map fun b => (b, false))) :=
    @meet?_of_side _ below _ _ Prod.snd (by simp) (by simp) ⟨h.asymm, h.trans⟩
      (List.pairwise_map.2 hleft) (List.pairwise_map.2 hright) (by simpa using hlength)
  have hfst : ∀ a b, lt a.1 b.1 = below a b := fun _ _ => rfl
  have hmap := meet?_map hfst (left.map fun a => (a, true)) (right.map fun b => (b, false))
  rw [hmark, hmark, hmeet] at hmap
  rw [hmap, Option.map_some, merged, List.map_merge (s := fun a b => !lt b a)
    (fun _ _ _ _ => rfl), hmark, hmark, merged]

/-! ### Up to 32 elements -/

theorem between_rising (h : Consistent lt) {least x y greatest : α} (hx : lt x least = false)
    (hy : lt y least = false) (hx' : lt greatest x = false) (hy' : lt greatest y = false) :
    Rising lt (if lt y x then [least, y, x, greatest] else [least, x, y, greatest]) := by
  have hends := h.trans hx hx'
  split
  · rename_i hyx
    simp [Rising, hx, hy, hx', hy', hends, h.asymm hyx]
  · rename_i hyx
    simp [Rising, hx, hy, hx', hy', hends, hyx]

theorem four_rising (h : Consistent lt) (a b c d : α) : Rising lt (four lt a b c d) := by
  have hpair : ∀ x y : α, ∃ least greatest,
      (if lt y x then (y, x) else (x, y)) = (least, greatest) ∧ lt greatest least = false := by
    intro x y
    cases hyx : lt y x with
    | true => exact ⟨y, x, rfl, h.asymm hyx⟩
    | false => exact ⟨x, y, rfl, hyx⟩
  obtain ⟨a', b', hab, hba⟩ := hpair a b
  obtain ⟨c', d', hcd, hdc⟩ := hpair c d
  simp only [four, hab, hcd]
  cases hca : lt c' a' with
  | false =>
    cases hdb : lt d' b' with
    | false => exact between_rising h hba hca hdb hdc
    | true =>
      exact between_rising h hca (h.trans hca hdc) (h.trans hdc (h.asymm hdb)) (h.asymm hdb)
  | true =>
    cases hdb : lt d' b' with
    | false =>
      exact between_rising h (h.asymm hca) (h.trans (h.asymm hca) hba) (h.trans hba hdb) hdb
    | true => exact between_rising h (h.asymm hca) hdc hba (h.asymm hdb)

theorem half_rising (h : Consistent lt) (byFour : Bool) (xs : List α) :
    Rising lt (half lt byFour xs) := by
  unfold half
  split
  · exact insertAll_rising h (four_rising h _ _ _ _) _
  · exact insertion_rising h xs

theorem short?_rises (h : Consistent lt) (xs : List α) : Rises lt (short? lt xs) := by
  simp only [short?]
  split
  · rename_i hshort
    refine ⟨xs, rfl, ?_⟩
    rcases xs with _ | ⟨x, _ | ⟨y, ys⟩⟩
    · exact .nil
    · exact List.pairwise_singleton _ _
    · exact absurd hshort (by simp)
  · have hleft := half_rising h (decide (8 ≤ xs.length)) (xs.take (xs.length / 2))
    have hright := half_rising h (decide (8 ≤ xs.length)) (xs.drop (xs.length / 2))
    exact ⟨_, meet?_eq_merged h hleft hright (length_halves lt _ xs), merged_rising h hleft hright⟩

end GraphQLCheck.Sorting
