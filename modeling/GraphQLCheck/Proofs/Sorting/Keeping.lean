import GraphQLCheck.Sorting.Stable

/-!
Sorting keeps all elements, be the comparison an order or not: where there is a result, it is the
list in another order (`stable?_perm`).
-/
namespace GraphQLCheck.Sorting

variable {α : Type} {lt : α → α → Bool}

/-! ### Merging -/

theorem mergeFirst_eq (takeLeft : α → α → Bool) (n : Nat) (xs ys : List α) :
    (mergeFirst takeLeft n xs ys).1 = (xs.merge ys takeLeft).take n := by
  fun_induction mergeFirst takeLeft n xs ys <;> simp_all

theorem fromBack_eq (lt : α → α → Bool) (n : Nat) (left right : List α) :
    fromBack lt n left right =
      ((mergeFirst (fun b a => !lt b a) n right.reverse left.reverse).1.reverse,
        n - (mergeFirst (fun b a => !lt b a) n right.reverse left.reverse).2) := rfl

theorem merge_perm (lt : α → α → Bool) (left right : List α) :
    (merge lt left right).Perm (left ++ right) := by
  simp only [merge]
  split
  · rw [fromFront, mergeFirst_eq, List.take_of_length_le (Nat.le_of_eq (List.length_merge _ _ _))]
    exact List.merge_perm_append _
  · rw [fromBack_eq, mergeFirst_eq, List.take_of_length_le
      (by simp only [List.length_merge, List.length_reverse]; omega)]
    exact (List.reverse_perm _).trans ((List.merge_perm_append _).trans
      (List.perm_append_comm.trans ((List.reverse_perm left).append (List.reverse_perm right))))

theorem fromBack_perm (lt : α → α → Bool) (n : Nat) (left right : List α) :
    (fromBack lt n left right).2 ≤ n ∧
      (fromBack lt n left right).1.Perm
        (left.drop (left.length - (fromBack lt n left right).2) ++
          right.drop (right.length - (n - (fromBack lt n left right).2))) := by
  have hle := (mergeFirst_le (fun b a => !lt b a) n right.reverse left.reverse).1
  have hperm := mergeFirst_perm (fun b a => !lt b a) n right.reverse left.reverse
  rw [List.take_reverse, List.take_reverse] at hperm
  rw [fromBack_eq]
  refine ⟨Nat.sub_le _ _, (List.reverse_perm _).trans (hperm.trans ?_)⟩
  rw [Nat.sub_sub_self hle]
  exact List.perm_append_comm.trans ((List.reverse_perm _).append (List.reverse_perm _))

theorem take_append_take_append_drop (xs : List α) (a b : Nat) :
    xs.take a ++ (xs.drop a).take b ++ xs.drop (a + b) = xs := by
  rw [List.append_assoc, ← List.drop_drop, List.take_append_drop, List.take_append_drop]

theorem meet?_perm {left right ys : List α}
    (hlength : right.length = left.length ∨ right.length = left.length + 1)
    (h : meet? lt left right = some ys) : ys.Perm (left ++ right) := by
  have hfront := mergeFirst_perm (fun a b => !lt b a) left.length left right
  have hfrontLe := (mergeFirst_le (fun a b => !lt b a) left.length left right).1
  obtain ⟨hbackLe, hback⟩ := fromBack_perm lt left.length left right
  rw [← fromFront] at hfront hfrontLe
  rcases hf : fromFront lt left.length left right with ⟨front, i⟩
  rcases hb : fromBack lt left.length left right with ⟨back, j⟩
  rw [hf] at hfront hfrontLe
  rw [hb] at hback hbackLe
  simp only [meet?, hf, hb] at h
  simp only at hfront hfrontLe hback hbackLe
  have hends := fun middle : List α => (hfront.append_right middle).append hback
  have hswap : ∀ a x y d : List α, (a ++ (x ++ (y ++ d))).Perm (a ++ (y ++ (x ++ d))) :=
    fun a x y d => (List.perm_append_comm_assoc x y d).append_left a
  split at h
  · -- The middle is from the right list, if there is one.
    rename_i hsum
    obtain rfl := Option.some.inj h
    have hright := take_append_take_append_drop right (left.length - i) (right.length - left.length)
    rw [show left.length - j = i by omega, show right.length - i =
      left.length - i + (right.length - left.length) by omega] at hends
    generalize (right.drop (left.length - i)).take (right.length - left.length) = middle at *
    refine (hends middle).trans ?_
    have hall := hswap (left.take i) (right.take (left.length - i) ++ middle) (left.drop i)
      (right.drop (left.length - i + (right.length - left.length)))
    rw [← List.append_assoc (left.take i) (left.drop i), List.take_append_drop, hright] at hall
    simpa only [List.append_assoc] using hall
  · split at h
    · -- The middle is one element of the left list.
      rename_i hsum
      obtain rfl := Option.some.inj h
      have hleft := take_append_take_append_drop left i 1
      rw [show left.length - j = i + 1 by omega,
        show right.length - (i + 1) = left.length - i by omega] at hends
      generalize (left.drop i).take 1 = middle at *
      refine (hends middle).trans ?_
      have hall := hswap (left.take i) (right.take (left.length - i)) (middle ++ left.drop (i + 1))
        (right.drop (left.length - i))
      rw [List.append_assoc] at hleft
      rw [List.take_append_drop, ← List.append_assoc (left.take i) (middle ++ left.drop (i + 1)),
        hleft] at hall
      simpa only [List.append_assoc] using hall
    · exact absurd h nofun

/-! ### Up to 32 elements -/

theorem four_perm (lt : α → α → Bool) (a b c d : α) : (four lt a b c d).Perm [a, b, c, d] := by
  have hpair : ∀ x y : α, ∃ first second,
      (if lt y x then (y, x) else (x, y)) = (first, second) ∧ [first, second].Perm [x, y] := by
    intro x y
    split
    · exact ⟨y, x, rfl, .swap x y []⟩
    · exact ⟨x, y, rfl, .refl _⟩
  have hbetween : ∀ first x y last : α,
      (if lt y x then [first, y, x, last] else [first, x, y, last]).Perm [first, x, y, last] := by
    intro first x y last
    split
    · exact (List.Perm.swap x y _).cons first
    · exact .refl _
  have hlast : ∀ x y z : α, [x, y, z].Perm [z, x, y] := fun x y z =>
    List.perm_append_comm.trans (.refl ([z] ++ [x, y]))
  obtain ⟨a', b', hab, hleft⟩ := hpair a b
  obtain ⟨c', d', hcd, hright⟩ := hpair c d
  refine .trans ?_ (hleft.append hright)
  simp only [four, hab, hcd]
  split
  · exact hbetween a' b' c' d'
  · exact (hbetween a' c' d' b').trans ((hlast c' d' b').cons a')
  · exact (hbetween c' a' b' d').trans ((hlast a' b' c').symm.append_right [d'])
  · exact (hbetween c' a' d' b').trans ((List.Perm.swap a' c' _).trans ((hlast c' d' b').cons a'))

theorem half_perm (lt : α → α → Bool) (byFour : Bool) (xs : List α) :
    (half lt byFour xs).Perm xs := by
  unfold half
  split
  · rename_i a b c d rest
    exact (insertAll_perm lt _ rest).trans ((four_perm lt a b c d).append_right rest)
  · exact insertion_perm lt xs

theorem length_halves (lt : α → α → Bool) (byFour : Bool) (xs : List α) :
    (half lt byFour (xs.drop (xs.length / 2))).length =
        (half lt byFour (xs.take (xs.length / 2))).length ∨
      (half lt byFour (xs.drop (xs.length / 2))).length =
        (half lt byFour (xs.take (xs.length / 2))).length + 1 := by
  rw [(half_perm lt _ _).length_eq, (half_perm lt _ _).length_eq, List.length_take,
    List.length_drop]
  omega

theorem short?_perm {xs ys : List α} (h : short? lt xs = some ys) : ys.Perm xs := by
  simp only [short?] at h
  split at h
  · exact .of_eq (Option.some.inj h).symm
  · have hall := (meet?_perm (length_halves lt _ xs) h).trans
      ((half_perm lt _ _).append (half_perm lt _ _))
    rwa [List.take_append_drop] at hall

/-! ### Runs -/

theorem perm_append_drop {xs ys : List α} {k : Nat} (h : ys.Perm (xs.take k)) :
    (ys ++ xs.drop ys.length).Perm xs := by
  have hdrop : xs.drop ys.length = xs.drop k := by
    rw [h.length_eq, List.length_take]
    rcases Nat.le_total k xs.length with hk | hk
    · rw [Nat.min_eq_left hk]
    · rw [Nat.min_eq_right hk, List.drop_length, List.drop_eq_nil_of_le hk]
  rw [hdrop]
  exact (h.append_right _).trans (.of_eq (List.take_append_drop k xs))

theorem rise_pos {xs : List α} (hxs : xs ≠ []) : 0 < (rise lt xs).1 := by
  rcases xs with _ | ⟨x, _ | ⟨y, ys⟩⟩
  · exact absurd rfl hxs
  · exact Nat.one_pos
  · exact Nat.succ_pos _

theorem firstRun?_perm {atOnce : Bool} {least : Nat} {xs : List α} {r : Run α}
    (h : firstRun? lt atOnce least xs = some r) :
    ∃ k, (xs ≠ [] → 0 < k) ∧ r.elements.Perm (xs.take k) := by
  have hpos : xs ≠ [] → 0 < (rise lt xs).1 := rise_pos
  simp only [firstRun?] at h
  split at h
  · obtain rfl := Option.some.inj h
    refine ⟨(rise lt xs).1, hpos, ?_⟩
    simp only
    split
    · exact List.reverse_perm _
    · exact .refl _
  · split at h
    · obtain ⟨ys, hys, rfl⟩ := Option.map_eq_some_iff.1 h
      exact ⟨32, fun _ => by decide, short?_perm hys⟩
    · obtain rfl := Option.some.inj h
      exact ⟨least, fun _ => by omega, .refl _⟩

section
variable {sortPart : List α → Option (List α)}
  (hpart : ∀ xs ys, sortPart xs = some ys → ys.Perm xs)
include hpart

theorem Run.finish?_perm {r : Run α} {ys : List α} (h : r.finish? sortPart = some ys) :
    ys.Perm r.elements := by
  rw [Run.finish?] at h
  split at h
  · exact .of_eq (Option.some.inj h).symm
  · exact hpart _ _ h

theorem join?_perm {left right r : Run α} (h : join? lt sortPart left right = some r) :
    r.elements.Perm (left.elements ++ right.elements) := by
  rw [join?] at h
  split at h
  · obtain ⟨l, hl, h⟩ := Option.bind_eq_some_iff.1 h
    obtain ⟨r', hr, h⟩ := Option.bind_eq_some_iff.1 h
    obtain rfl := Option.some.inj h
    exact (merge_perm lt l r').trans
      ((Run.finish?_perm hpart hl).append (Run.finish?_perm hpart hr))
  · obtain rfl := Option.some.inj h
    exact .refl _

omit hpart in
def waiting (stack : List (Run α × Nat)) : List α := stack.flatMap fun x => x.1.elements

theorem collapse?_perm {depth : Nat} {r r' : Run α} {stack stack' : List (Run α × Nat)}
    (h : collapse? lt sortPart depth r stack = some (r', stack')) :
    (r'.elements ++ waiting stack').Perm (r.elements ++ waiting stack) := by
  induction stack generalizing r with
  | nil =>
    obtain ⟨rfl, rfl⟩ := Prod.mk.inj (Option.some.inj h)
    exact .refl _
  | cons x rest ih =>
    obtain ⟨left, d⟩ := x
    rw [collapse?] at h
    split at h
    · obtain ⟨joined, hjoin, h⟩ := Option.bind_eq_some_iff.1 h
      calc (r'.elements ++ waiting stack').Perm (joined.elements ++ waiting rest) := ih h
        List.Perm _ (left.elements ++ r.elements ++ waiting rest) :=
          (join?_perm hpart hjoin).append_right _
        List.Perm _ (r.elements ++ left.elements ++ waiting rest) :=
          List.perm_append_comm.append_right _
        _ = r.elements ++ waiting ((left, d) :: rest) := List.append_assoc _ _ _
    · obtain ⟨rfl, rfl⟩ := Prod.mk.inj (Option.some.inj h)
      exact .refl _

omit hpart in
theorem collapse?_zero {r r' : Run α} {stack stack' : List (Run α × Nat)}
    (h : collapse? lt sortPart 0 r stack = some (r', stack')) : stack' = [] := by
  induction stack generalizing r with
  | nil => exact (Prod.mk.inj (Option.some.inj h)).2.symm
  | cons x rest ih =>
    rw [collapse?, if_pos (Nat.zero_le _)] at h
    obtain ⟨joined, -, h⟩ := Option.bind_eq_some_iff.1 h
    exact ih h

theorem collapsed_perm {r r' : Run α} {stack : List (Run α × Nat)}
    (h : (collapse? lt sortPart 0 r stack).map (·.1) = some r') :
    r'.elements.Perm (r.elements ++ waiting stack) := by
  obtain ⟨⟨_, stack'⟩, hcollapse, rfl⟩ := Option.map_eq_some_iff.1 h
  have hperm := collapse?_perm hpart hcollapse
  rwa [collapse?_zero hcollapse, waiting, List.flatMap_nil, List.append_nil] at hperm

/-- Every run takes an element from the list, so that nothing is left of it at the end. -/
theorem sweep?_perm {atOnce : Bool} {least length n start : Nat} {xs : List α} {r r' : Run α}
    {stack : List (Run α × Nat)} (hn : xs.length ≤ n)
    (h : sweep? lt sortPart atOnce least length n start xs r stack = some r') :
    r'.elements.Perm (r.elements ++ waiting stack ++ xs) := by
  induction n generalizing start xs r stack with
  | zero =>
    obtain rfl := List.length_eq_zero_iff.1 (Nat.le_zero.1 hn)
    rw [List.append_nil]
    exact collapsed_perm hpart h
  | succ n ih =>
    cases xs with
    | nil =>
      rw [List.append_nil]
      exact collapsed_perm hpart h
    | cons x xs =>
      rw [sweep?] at h
      obtain ⟨next, hnext, h⟩ := Option.bind_eq_some_iff.1 h
      obtain ⟨⟨joined, stack'⟩, hcollapse, h⟩ := Option.bind_eq_some_iff.1 h
      obtain ⟨k, hk, htake⟩ := firstRun?_perm hnext
      have hrest : ((x :: xs).drop next.elements.length).length ≤ n := by
        have hk := hk nofun
        rw [List.length_drop, htake.length_eq, List.length_take, List.length_cons] at *
        omega
      have hkept := (collapse?_perm hpart hcollapse).append (perm_append_drop htake)
      rw [← List.append_assoc] at hkept
      exact (ih hrest h).trans ((List.perm_append_comm.append_right _).trans hkept)

theorem byRuns?_perm {atOnce : Bool} {xs ys : List α}
    (h : byRuns? lt sortPart atOnce xs = some ys) : ys.Perm xs := by
  obtain ⟨r, hfirst, h⟩ := Option.bind_eq_some_iff.1 h
  obtain ⟨last, hsweep, h⟩ := Option.bind_eq_some_iff.1 h
  obtain ⟨k, -, htake⟩ := firstRun?_perm hfirst
  have hrest : (xs.drop r.elements.length).length ≤ xs.length := by
    rw [List.length_drop]
    exact Nat.sub_le _ _
  have hperm := sweep?_perm hpart hrest hsweep
  rw [waiting, List.flatMap_nil, List.append_nil] at hperm
  exact (Run.finish?_perm hpart h).trans (hperm.trans (perm_append_drop htake))

end

/-! ### Parting -/

theorem split_perm (goesLeft : α → Bool) (pivot : Nat) (pivotLeft : Bool) (xs : List α) :
    ((split goesLeft pivot pivotLeft xs).1 ++ (split goesLeft pivot pivotLeft xs).2).Perm xs := by
  have hmarked : (xs.mapIdx fun i x => (x, if i = pivot then pivotLeft else goesLeft x)).map (·.1) =
      xs := by
    refine List.ext_getElem (by simp only [List.length_map, List.length_mapIdx]) fun i _ _ => ?_
    simp only [List.getElem_map, List.getElem_mapIdx]
  simp only [split]
  rw [← List.map_append]
  exact ((List.filter_append_perm _ _).map _).trans (.of_eq hmarked)

theorem quick?_perm {limit : Nat} {before : Option α} {xs ys : List α}
    (h : quick? lt limit before xs = some ys) : ys.Perm xs := by
  induction limit generalizing before xs ys with
  | zero =>
    rw [quick?] at h
    split at h
    · exact short?_perm h
    · exact byRuns?_perm (fun _ _ h => .of_eq (Option.some.inj h).symm) h
  | succ limit ih =>
    cases xs with
    | nil =>
      have hshort : short? lt [] = some ys := h
      exact short?_perm hshort
    | cons x xs =>
      rw [quick?] at h
      split at h
      · exact short?_perm h
      simp only at h
      split at h
      · obtain ⟨rest, hrest, rfl⟩ := Option.map_eq_some_iff.1 h
        exact ((ih hrest).append_left _).trans (split_perm _ _ _ _)
      · obtain ⟨right, hright, h⟩ := Option.bind_eq_some_iff.1 h
        obtain ⟨left, hleft, h⟩ := Option.bind_eq_some_iff.1 h
        obtain rfl := Option.some.inj h
        exact ((ih hleft).append (ih hright)).trans (split_perm _ _ _ _)

theorem stable?_perm {xs ys : List α} (h : stable? lt xs = some ys) : ys.Perm xs := by
  rw [stable?] at h
  split at h
  · obtain rfl := Option.some.inj h
    exact insertion_perm lt xs
  split at h
  · exact byRuns?_perm (fun _ _ h => .of_eq (Option.some.inj h).symm) h
  · exact byRuns?_perm (fun _ _ => quick?_perm) h

end GraphQLCheck.Sorting
