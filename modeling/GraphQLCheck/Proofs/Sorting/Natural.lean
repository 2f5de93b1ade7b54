import GraphQLCheck.Sorting.Stable

/-!
Sorting sees its elements through the comparison only: where the images of two elements compare as
the elements do, the images are sorted as the elements are (`stable?_map`). This holds of every
part of the sort, be the comparison an order or not.
-/
namespace GraphQLCheck.Sorting

variable {α β : Type} {f : α → β} {lt : α → α → Bool} {lt' : β → β → Bool}

section
variable (h : ∀ a b, lt' (f a) (f b) = lt a b)
include h

theorem insertLast_map (x : α) (ys : List α) :
    insertLast lt' (f x) (ys.map f) = (insertLast lt x ys).map f := by
  induction ys with
  | nil => rfl
  | cons y ys ih =>
    simp only [List.map_cons, insertLast, h, ih]
    split <;> rfl

theorem insertAll_map (sorted xs : List α) :
    insertAll lt' (sorted.map f) (xs.map f) = (insertAll lt sorted xs).map f := by
  have hfold : ∀ acc : List α,
      (xs.map f).foldl (fun sorted x => insertLast lt' x sorted) (acc.map f) =
        (xs.foldl (fun sorted x => insertLast lt x sorted) acc).map f := by
    induction xs with
    | nil => exact fun _ => rfl
    | cons x xs ih =>
      intro acc
      rw [List.map_cons, List.foldl_cons, List.foldl_cons, insertLast_map h]
      exact ih _
  rw [insertAll, insertAll, ← List.map_reverse, hfold, List.map_reverse]

theorem insertion_map (xs : List α) : insertion lt' (xs.map f) = (insertion lt xs).map f :=
  insertAll_map h [] xs

omit h in
theorem mergeFirst_map {takeLeft : α → α → Bool} {takeLeft' : β → β → Bool}
    (h : ∀ a b, takeLeft' (f a) (f b) = takeLeft a b) (n : Nat) (xs ys : List α) :
    mergeFirst takeLeft' n (xs.map f) (ys.map f) =
      ((mergeFirst takeLeft n xs ys).1.map f, (mergeFirst takeLeft n xs ys).2) := by
  fun_induction mergeFirst takeLeft n xs ys <;> simp_all [mergeFirst]

theorem fromFront_map (n : Nat) (left right : List α) :
    fromFront lt' n (left.map f) (right.map f) =
      ((fromFront lt n left right).1.map f, (fromFront lt n left right).2) :=
  mergeFirst_map (fun a b => by rw [h]) n left right

theorem fromBack_map (n : Nat) (left right : List α) :
    fromBack lt' n (left.map f) (right.map f) =
      ((fromBack lt n left right).1.map f, (fromBack lt n left right).2) := by
  have hmerge : mergeFirst (fun b a => !lt' b a) n (right.reverse.map f) (left.reverse.map f) =
      ((mergeFirst (fun b a => !lt b a) n right.reverse left.reverse).1.map f,
        (mergeFirst (fun b a => !lt b a) n right.reverse left.reverse).2) :=
    mergeFirst_map (fun b a => by rw [h]) n right.reverse left.reverse
  rw [fromBack, fromBack, ← List.map_reverse, ← List.map_reverse, hmerge, List.map_reverse]

theorem merge_map (left right : List α) :
    merge lt' (left.map f) (right.map f) = (merge lt left right).map f := by
  simp only [merge, List.length_map, fromFront_map h, fromBack_map h]
  split <;> rfl

theorem meet?_map (left right : List α) :
    meet? lt' (left.map f) (right.map f) = (meet? lt left right).map (List.map f) := by
  simp only [meet?, List.length_map, fromFront_map h, fromBack_map h, ← List.map_drop,
    ← List.map_take, ← List.map_append]
  split
  · rfl
  split <;> rfl

theorem four_map (a b c d : α) :
    four lt' (f a) (f b) (f c) (f d) = (four lt a b c d).map f := by
  simp only [four, h]
  cases lt b a <;> cases lt d c <;> simp only [Bool.false_eq_true, if_true, if_false, h] <;>
    (split <;> split <;> rfl)

theorem half_map (byFour : Bool) (xs : List α) :
    half lt' byFour (xs.map f) = (half lt byFour xs).map f := by
  cases byFour with
  | false => exact insertion_map h xs
  | true =>
    rcases xs with _ | ⟨a, _ | ⟨b, _ | ⟨c, _ | ⟨d, rest⟩⟩⟩⟩
    · exact insertion_map h []
    · exact insertion_map h [a]
    · exact insertion_map h [a, b]
    · exact insertion_map h [a, b, c]
    · rw [List.map_cons, List.map_cons, List.map_cons, List.map_cons, half, half, four_map h,
        insertAll_map h]

theorem short?_map (xs : List α) :
    short? lt' (xs.map f) = (short? lt xs).map (List.map f) := by
  simp only [short?, List.length_map, ← List.map_take, ← List.map_drop, half_map h, meet?_map h]
  split <;> rfl

theorem keepsGoing_map (down : Bool) (x : α) (ys : List α) :
    keepsGoing lt' down (f x) (ys.map f) = keepsGoing lt down x ys := by
  induction ys generalizing x with
  | nil => rfl
  | cons y ys ih => simp only [List.map_cons, keepsGoing, h, ih]

theorem rise_map (xs : List α) : rise lt' (xs.map f) = rise lt xs := by
  rcases xs with _ | ⟨x, _ | ⟨y, ys⟩⟩
  · rfl
  · rfl
  · simp only [List.map_cons, rise, h, keepsGoing_map h]

end

def Run.map (f : α → β) (r : Run α) : Run β := ⟨r.elements.map f, r.sorted⟩

def mapEntry (f : α → β) (x : Run α × Nat) : Run β × Nat := (x.1.map f, x.2)

section
variable (h : ∀ a b, lt' (f a) (f b) = lt a b)
include h

theorem firstRun?_map (atOnce : Bool) (least : Nat) (xs : List α) :
    firstRun? lt' atOnce least (xs.map f) = (firstRun? lt atOnce least xs).map (Run.map f) := by
  rw [firstRun?, firstRun?, rise_map h]
  obtain ⟨n, down⟩ := rise lt xs
  simp only [← List.map_take, short?_map h, ← List.map_reverse]
  by_cases hn : least ≤ n
  · rw [if_pos hn, if_pos hn]
    cases down <;> rfl
  · rw [if_neg hn, if_neg hn]
    cases atOnce with
    | true =>
      rw [if_pos rfl, if_pos rfl, Option.map_map, Option.map_map]
      rfl
    | false => rfl

variable {sortPart : List α → Option (List α)} {sortPart' : List β → Option (List β)}
  (hs : ∀ xs, sortPart' (xs.map f) = (sortPart xs).map (List.map f))
include hs

omit h in
theorem finish?_map (r : Run α) :
    (r.map f).finish? sortPart' = (r.finish? sortPart).map (List.map f) := by
  simp only [Run.finish?, Run.map, hs]
  split <;> rfl

theorem join?_map (left right : Run α) :
    join? lt' sortPart' (left.map f) (right.map f) =
      (join? lt sortPart left right).map (Run.map f) := by
  have hsorted : ((left.map f).sorted || (right.map f).sorted) = (left.sorted || right.sorted) :=
    rfl
  simp only [join?, hsorted, finish?_map hs]
  by_cases hany : (left.sorted || right.sorted) = true
  · rw [if_pos hany, if_pos hany]
    cases left.finish? sortPart with
    | none => rfl
    | some l =>
      cases right.finish? sortPart with
      | none => rfl
      | some r => exact congrArg (fun xs => some (Run.mk xs true)) (merge_map h l r)
  · rw [if_neg hany, if_neg hany]
    exact congrArg (fun xs => some (Run.mk xs false)) List.map_append.symm

theorem collapse?_map (depth : Nat) (r : Run α) (stack : List (Run α × Nat)) :
    collapse? lt' sortPart' depth (r.map f) (stack.map (mapEntry f)) =
      (collapse? lt sortPart depth r stack).map fun x => (x.1.map f, x.2.map (mapEntry f)) := by
  induction stack generalizing r with
  | nil => rfl
  | cons x rest ih =>
    obtain ⟨left, d⟩ := x
    simp only [List.map_cons, mapEntry, collapse?, join?_map h hs]
    by_cases hd : depth ≤ d
    · rw [if_pos hd, if_pos hd]
      cases join? lt sortPart left r with
      | none => rfl
      | some r => exact ih r
    · rw [if_neg hd, if_neg hd]
      rfl

theorem sweep?_map (atOnce : Bool) (least length n start : Nat) (xs : List α) (r : Run α)
    (stack : List (Run α × Nat)) :
    sweep? lt' sortPart' atOnce least length n start (xs.map f) (r.map f)
        (stack.map (mapEntry f)) =
      (sweep? lt sortPart atOnce least length n start xs r stack).map (Run.map f) := by
  have hlast : ∀ (r : Run α) (stack : List (Run α × Nat)),
      (collapse? lt' sortPart' 0 (r.map f) (stack.map (mapEntry f))).map (·.1) =
        ((collapse? lt sortPart 0 r stack).map (·.1)).map (Run.map f) := by
    intro r stack
    rw [collapse?_map h hs, Option.map_map, Option.map_map]
    rfl
  induction n generalizing start xs r stack with
  | zero => exact hlast r stack
  | succ n ih =>
    cases xs with
    | nil => exact hlast r stack
    | cons x xs =>
      have hfirst := firstRun?_map h atOnce least (x :: xs)
      simp only [List.map_cons] at hfirst
      simp only [List.map_cons, sweep?, hfirst]
      cases firstRun? lt atOnce least (x :: xs) with
      | none => rfl
      | some next =>
        have hsize : ∀ r : Run α, (r.map f).elements.length = r.elements.length :=
          fun _ => List.length_map _
        simp only [Option.map_some, Option.bind_eq_bind, Option.bind_some, hsize,
          collapse?_map h hs]
        generalize treeDepth length (start - r.elements.length) start
          (start + next.elements.length) = depth
        cases collapse? lt sortPart depth r stack with
        | none => rfl
        | some x' =>
          simp only [Option.map_some, Option.bind_some]
          rw [← List.map_cons, ← List.map_drop]
          exact ih _ _ next ((x'.1, depth) :: x'.2)

theorem byRuns?_map (atOnce : Bool) (xs : List α) :
    byRuns? lt' sortPart' atOnce (xs.map f) =
      (byRuns? lt sortPart atOnce xs).map (List.map f) := by
  simp only [byRuns?, List.length_map, firstRun?_map h]
  cases firstRun? lt atOnce (leastRun xs.length) xs with
  | none => rfl
  | some r =>
    have hsize : (r.map f).elements.length = r.elements.length := List.length_map _
    simp only [Option.map_some, Option.bind_eq_bind, Option.bind_some, hsize, ← List.map_drop]
    have hsweep := sweep?_map h hs atOnce (leastRun xs.length) xs.length xs.length
      r.elements.length (xs.drop r.elements.length) r []
    rw [List.map_nil] at hsweep
    rw [hsweep]
    cases sweep? lt sortPart atOnce (leastRun xs.length) xs.length xs.length r.elements.length
        (xs.drop r.elements.length) r [] with
    | none => rfl
    | some r => exact finish?_map hs r

end

section
variable (h : ∀ a b, lt' (f a) (f b) = lt a b)
include h

theorem median_map (get : Nat → α) (a b c : Nat) :
    median lt' (fun i => f (get i)) a b c = median lt get a b c := by
  simp only [median, h]

theorem wideMedian_map (get : Nat → α) (fuel n a b c : Nat) :
    wideMedian lt' (fun i => f (get i)) fuel n a b c = wideMedian lt get fuel n a b c := by
  induction fuel generalizing n a b c with
  | zero => exact median_map h get a b c
  | succ fuel ih => simp only [wideMedian, median_map h, ih]

omit h in
theorem split_map {goesLeft : α → Bool} {goesLeft' : β → Bool}
    (h : ∀ a, goesLeft' (f a) = goesLeft a) (pivot : Nat) (pivotLeft : Bool) (xs : List α) :
    split goesLeft' pivot pivotLeft (xs.map f) =
      ((split goesLeft pivot pivotLeft xs).1.map f,
        (split goesLeft pivot pivotLeft xs).2.map f) := by
  have hmarked : (xs.map f).mapIdx (fun i x => (x, if i = pivot then pivotLeft else goesLeft' x)) =
      (xs.mapIdx fun i x => (x, if i = pivot then pivotLeft else goesLeft x)).map
        fun x => (f x.1, x.2) := by
    refine List.ext_getElem (by simp only [List.length_mapIdx, List.length_map]) fun i _ _ => ?_
    simp only [List.getElem_mapIdx, List.getElem_map, h]
  simp only [split, hmarked, List.filter_map, List.map_map]
  rfl

theorem byRuns?_some_map (xs : List α) :
    byRuns? lt' some true (xs.map f) = (byRuns? lt some true xs).map (List.map f) :=
  byRuns?_map h (fun _ => rfl) true xs

theorem quick?_map (limit : Nat) (before : Option α) (xs : List α) :
    quick? lt' limit (before.map f) (xs.map f) =
      (quick? lt limit before xs).map (List.map f) := by
  induction limit generalizing before xs with
  | zero =>
    simp only [quick?, List.length_map, short?_map h, byRuns?_some_map h]
    split <;> rfl
  | succ limit ih =>
    cases xs with
    | nil => exact short?_map h []
    | cons x xs =>
      have hget : ∀ i, (f x :: xs.map f).getD i (f x) = f ((x :: xs).getD i x) := by
        intro i
        rw [← List.map_cons, List.getD_eq_getElem?_getD, List.getD_eq_getElem?_getD,
          List.getElem?_map, Option.getD_map]
      have hshort := short?_map h (x :: xs)
      rw [List.map_cons] at hshort
      simp only [List.map_cons, quick?, hget, wideMedian_map h, List.length_cons, List.length_map,
        hshort]
      generalize wideMedian lt (fun i => (x :: xs).getD i x) _ _ _ _ _ = p
      generalize (x :: xs).getD p x = y
      have hbelow : split (lt' · (f y)) p false ((x :: xs).map f) =
          ((split (lt · y) p false (x :: xs)).1.map f,
            (split (lt · y) p false (x :: xs)).2.map f) :=
        split_map (fun a => h a y) p false (x :: xs)
      have hupTo : split (fun b => !lt' (f y) b) p true ((x :: xs).map f) =
          ((split (fun b => !lt y b) p true (x :: xs)).1.map f,
            (split (fun b => !lt y b) p true (x :: xs)).2.map f) :=
        split_map (fun b => by rw [h]) p true (x :: xs)
      have hfirst : (before.map f).any (fun a => !lt' a (f y)) = before.any fun a => !lt a y := by
        simp only [Option.any_map, h]
      rw [List.map_cons] at hbelow hupTo
      simp only [hbelow, hupTo, hfirst, List.isEmpty_map]
      split
      · rfl
      split
      · have hrest := ih none
        simp only [Option.map_none] at hrest
        rw [hrest]
        cases quick? lt limit none (split (fun b => !lt y b) p true (x :: xs)).2 with
        | none => rfl
        | some rest => exact congrArg some List.map_append.symm
      · have hright := ih (some y)
        simp only [Option.map_some] at hright
        rw [hright, ih before]
        cases quick? lt limit (some y) (split (lt · y) p false (x :: xs)).2 with
        | none => rfl
        | some right =>
          cases quick? lt limit before (split (lt · y) p false (x :: xs)).1 with
          | none => rfl
          | some left => exact congrArg some List.map_append.symm

theorem stable?_map (xs : List α) : stable? lt' (xs.map f) = (stable? lt xs).map (List.map f) := by
  have hquick : ∀ ys : List α, quick? lt' (2 * (ys.map f).length.log2) none (ys.map f) =
      (quick? lt (2 * ys.length.log2) none ys).map (List.map f) := by
    intro ys
    rw [List.length_map]
    exact quick?_map h _ none ys
  rw [stable?, stable?, List.length_map, insertion_map h, byRuns?_some_map h,
    byRuns?_map h hquick]
  split
  · rfl
  split <;> rfl

end

end GraphQLCheck.Sorting
