import GraphQLCheck.Proofs.Sorting.Merging

/-!
Sorting run by run, where the comparison is an order. Every run that is called sorted is, and so
is what the runs are merged to (`byRuns?_rises`).
-/
namespace GraphQLCheck.Sorting

variable {α : Type} {lt : α → α → Bool}

/-! ### Where the list rises -/

theorem keepsGoing_pairwise (h : Consistent lt) (down : Bool) (x : α) (ys : List α) :
    (x :: ys.take (keepsGoing lt down x ys)).Pairwise fun a b => lt b a = down := by
  induction ys generalizing x with
  | nil => exact List.pairwise_singleton _ _
  | cons y ys ih =>
    rw [keepsGoing]
    split
    · rename_i hyx
      have hrest := ih y
      rw [List.take_succ_cons]
      refine List.pairwise_cons.2 ⟨fun z hz => ?_, hrest⟩
      obtain rfl | hz := List.mem_cons.1 hz
      · exact hyx
      · exact h.trans_eq down hyx ((List.pairwise_cons.1 hrest).1 z hz)
    · exact List.pairwise_singleton _ _

theorem rise_pairwise (h : Consistent lt) (xs : List α) :
    (xs.take (rise lt xs).1).Pairwise fun a b => lt b a = (rise lt xs).2 := by
  rcases xs with _ | ⟨x, _ | ⟨y, ys⟩⟩
  · exact .nil
  · exact List.pairwise_singleton _ _
  · have hgoing := keepsGoing_pairwise h (lt y x) x (y :: ys)
    rw [keepsGoing, if_pos rfl] at hgoing
    exact hgoing

/-! ### Runs -/

/-- A run that is called sorted is. There are others only where they need not be sorted at once. -/
structure Run.Sound (lt : α → α → Bool) (atOnce : Bool) (r : Run α) : Prop where
  rising : r.sorted = true → Rising lt r.elements
  later : r.sorted = false → atOnce = false

theorem Run.Sound.of_rising {atOnce : Bool} {xs : List α} (h : Rising lt xs) :
    Run.Sound lt atOnce ⟨xs, true⟩ :=
  ⟨fun _ => h, nofun⟩

theorem firstRun?_sound (h : Consistent lt) (atOnce : Bool) (least : Nat) (xs : List α) :
    ∃ r, firstRun? lt atOnce least xs = some r ∧ r.Sound lt atOnce := by
  have hrise := rise_pairwise h xs
  simp only [firstRun?]
  split
  · refine ⟨_, rfl, .of_rising ?_⟩
    cases hdown : (rise lt xs).2 with
    | false =>
      rw [hdown] at hrise
      exact hrise
    | true =>
      rw [hdown] at hrise
      exact List.pairwise_reverse.2 (hrise.imp fun hab => h.asymm hab)
  · cases atOnce with
    | true =>
      obtain ⟨ys, hys, hrising⟩ := short?_rises h (xs.take 32)
      exact ⟨⟨ys, true⟩, by rw [if_pos rfl, hys, Option.map_some], .of_rising hrising⟩
    | false => exact ⟨_, if_neg Bool.false_ne_true, by simp, fun _ => rfl⟩

section
variable (h : Consistent lt) {atOnce : Bool} {sortPart : List α → Option (List α)}
  (hpart : atOnce = false → ∀ xs, Rises lt (sortPart xs))
include hpart

theorem Run.Sound.finish? {r : Run α} (hr : r.Sound lt atOnce) :
    Rises lt (r.finish? sortPart) := by
  rw [Run.finish?]
  cases hsorted : r.sorted with
  | true => exact ⟨r.elements, if_pos rfl, hr.rising hsorted⟩
  | false => exact hpart (hr.later hsorted) r.elements

include h

theorem join?_sound {left right : Run α} (hleft : left.Sound lt atOnce)
    (hright : right.Sound lt atOnce) :
    ∃ r, join? lt sortPart left right = some r ∧ r.Sound lt atOnce := by
  rw [join?]
  by_cases hany : (left.sorted || right.sorted) = true
  · obtain ⟨l, hl, hlRising⟩ := hleft.finish? hpart
    obtain ⟨r, hr, hrRising⟩ := hright.finish? hpart
    refine ⟨⟨merge lt l r, true⟩, by rw [if_pos hany, hl, hr]; rfl, .of_rising ?_⟩
    rw [merge_eq_merged h hlRising hrRising]
    exact merged_rising h hlRising hrRising
  · refine ⟨_, if_neg hany, by simp, fun _ => hleft.later ?_⟩
    simp only [Bool.or_eq_true, not_or, Bool.not_eq_true] at hany
    exact hany.1

theorem collapse?_sound (depth : Nat) {r : Run α} (hr : r.Sound lt atOnce)
    {stack : List (Run α × Nat)} (hstack : ∀ x ∈ stack, x.1.Sound lt atOnce) :
    ∃ r' stack', collapse? lt sortPart depth r stack = some (r', stack') ∧
      r'.Sound lt atOnce ∧ ∀ x ∈ stack', x.1.Sound lt atOnce := by
  induction stack generalizing r with
  | nil => exact ⟨r, [], rfl, hr, hstack⟩
  | cons x rest ih =>
    obtain ⟨left, d⟩ := x
    obtain ⟨hleft, hrest⟩ := List.forall_mem_cons.1 hstack
    rw [collapse?]
    by_cases hd : depth ≤ d
    · obtain ⟨joined, hjoin, hjoined⟩ := join?_sound h hpart hleft hr
      obtain ⟨r', stack', hcollapse, hsound⟩ := ih hjoined hrest
      exact ⟨r', stack', by rw [if_pos hd, hjoin]; exact hcollapse, hsound⟩
    · exact ⟨r, _, if_neg hd, hr, hstack⟩

theorem collapsed_sound {r : Run α} (hr : r.Sound lt atOnce) {stack : List (Run α × Nat)}
    (hstack : ∀ x ∈ stack, x.1.Sound lt atOnce) :
    ∃ r', (collapse? lt sortPart 0 r stack).map (·.1) = some r' ∧ r'.Sound lt atOnce := by
  obtain ⟨r', stack', hcollapse, hr', -⟩ := collapse?_sound h hpart 0 hr hstack
  exact ⟨r', by rw [hcollapse, Option.map_some], hr'⟩

theorem sweep?_sound (least length n start : Nat) (xs : List α) {r : Run α}
    (hr : r.Sound lt atOnce) {stack : List (Run α × Nat)}
    (hstack : ∀ x ∈ stack, x.1.Sound lt atOnce) :
    ∃ r', sweep? lt sortPart atOnce least length n start xs r stack = some r' ∧
      r'.Sound lt atOnce := by
  induction n generalizing start xs r stack with
  | zero => exact collapsed_sound h hpart hr hstack
  | succ n ih =>
    cases xs with
    | nil => exact collapsed_sound h hpart hr hstack
    | cons x xs =>
      obtain ⟨next, hfirst, hnext⟩ := firstRun?_sound h atOnce least (x :: xs)
      simp only [sweep?, hfirst, Option.bind_eq_bind, Option.bind_some]
      generalize treeDepth length _ _ _ = depth
      obtain ⟨joined, stack', hcollapse, hjoined, hstack'⟩ :=
        collapse?_sound h hpart depth hr hstack
      rw [hcollapse]
      have hwait : ∀ y ∈ (joined, depth) :: stack', y.1.Sound lt atOnce :=
        List.forall_mem_cons.2 ⟨hjoined, hstack'⟩
      exact ih _ _ hnext hwait

theorem byRuns?_rises (xs : List α) : Rises lt (byRuns? lt sortPart atOnce xs) := by
  obtain ⟨r, hfirst, hr⟩ := firstRun?_sound h atOnce (leastRun xs.length) xs
  obtain ⟨last, hsweep, hlast⟩ := sweep?_sound h hpart (leastRun xs.length) xs.length xs.length
    r.elements.length (xs.drop r.elements.length) hr fun _ hx => absurd hx List.not_mem_nil
  have hfinish := hlast.finish? hpart
  simp only [byRuns?, hfirst, hsweep, Option.bind_eq_bind, Option.bind_some]
  exact hfinish

end

end GraphQLCheck.Sorting
