import GraphQLCheck.Suggestion.Distance
import Mathlib.Algebra.GroupWithZero.Nat
import Mathlib.Data.List.Induction
import Mathlib.Order.Bounds.Basic

/-!
The distance of two texts is the least cost of a script of edits that turns one into the other
(`between_isLeast`). An edit takes a part of the one text and gives a part of the other, and the
parts follow each other, so that no part is edited twice. The table is filled with the distances
between the beginnings of the texts: the last edit of a script (`least_append_le`,
`exists_last_edit`) is what an entry is worked out from.
-/
namespace GraphQLCheck.Distance

inductive Edit
  | keep (x : Char)
  | replace (x y : Char)
  | insert (y : Char)
  | remove (x : Char)
  | swap (x y : Char)

namespace Edit

def source : Edit → List Char
  | keep x | replace x _ | remove x => [x]
  | insert _ => []
  | swap x y => [x, y]

def target : Edit → List Char
  | keep x => [x]
  | replace _ y | insert y => [y]
  | remove _ => []
  | swap x y => [y, x]

def cost : Edit → Nat
  | keep _ => 0
  | replace _ _ | insert _ | remove _ | swap _ _ => 1

end Edit

/-- A script takes the one text apart and puts the other together. -/
def Turns (script : List Edit) (xs ys : List Char) : Prop :=
  script.flatMap Edit.source = xs ∧ script.flatMap Edit.target = ys

def cost (script : List Edit) : Nat := (script.map Edit.cost).sum

/-! ### What an entry of the table is worked out from -/

/-- The entry of two beginnings, both written from their last character on. -/
def least : List Char → List Char → Nat
  | [], ys => ys.length
  | _ :: xs, [] => xs.length + 1
  | x :: xs, y :: ys =>
    let edit := min (least (x :: xs) ys + 1)
      (min (least xs (y :: ys) + 1) (least xs ys + if x = y then 0 else 1))
    if xs.head? = some y ∧ ys.head? = some x then min edit (least xs.tail ys.tail + 1) else edit
termination_by xs ys => xs.length + ys.length
decreasing_by all_goals simp only [List.length_cons, List.length_tail]; omega

theorem least_nil_left (ys : List Char) : least [] ys = ys.length := by rw [least]

theorem least_nil_right (xs : List Char) : least xs [] = xs.length := by
  cases xs with
  | nil => rw [least]
  | cons x xs => rw [least, List.length_cons]

theorem least_cons_le (x y : Char) (xs ys : List Char) :
    least (x :: xs) (y :: ys) ≤ min (least (x :: xs) ys + 1)
      (min (least xs (y :: ys) + 1) (least xs ys + if x = y then 0 else 1)) := by
  rw [least]
  split <;> omega

theorem least_append_le (e : Edit) (xs ys : List Char) :
    least (e.source.reverse ++ xs) (e.target.reverse ++ ys) ≤ least xs ys + e.cost := by
  cases e with
  | keep x =>
    have h := least_cons_le x x xs ys
    rw [if_pos rfl] at h
    simp only [Edit.source, Edit.target, Edit.cost, List.reverse_singleton, List.singleton_append]
    omega
  | replace x y =>
    have h := least_cons_le x y xs ys
    have hone : (if x = y then 0 else 1) ≤ 1 := by split <;> omega
    simp only [Edit.source, Edit.target, Edit.cost, List.reverse_singleton, List.singleton_append]
    omega
  | insert y =>
    cases xs with
    | nil => simp [Edit.source, Edit.target, Edit.cost, least_nil_left]
    | cons x xs =>
      have h := least_cons_le x y xs ys
      simp only [Edit.source, Edit.target, Edit.cost, List.reverse_singleton,
        List.singleton_append, List.reverse_nil, List.nil_append]
      omega
  | remove x =>
    cases ys with
    | nil => simp [Edit.source, Edit.target, Edit.cost, least_nil_right]
    | cons y ys =>
      have h := least_cons_le x y xs ys
      simp only [Edit.source, Edit.target, Edit.cost, List.reverse_singleton,
        List.singleton_append, List.reverse_nil, List.nil_append]
      omega
  | swap x y =>
    have h : least (y :: x :: xs) (x :: y :: ys) ≤ least xs ys + 1 := by
      rw [least, if_pos ⟨rfl, rfl⟩]
      exact Nat.min_le_right _ _
    exact h

theorem exists_last_edit (xs ys : List Char) (h : 0 < xs.length + ys.length) :
    ∃ (e : Edit) (xs' ys' : List Char),
      xs = e.source.reverse ++ xs' ∧ ys = e.target.reverse ++ ys' ∧
      least xs ys = least xs' ys' + e.cost ∧ xs'.length + ys'.length < xs.length + ys.length := by
  cases xs with
  | nil =>
    cases ys with
    | nil => exact absurd h (Nat.lt_irrefl 0)
    | cons y ys =>
      exact ⟨.insert y, [], ys, rfl, rfl, by simp [least_nil_left, Edit.cost], by simp⟩
  | cons x xs =>
    cases ys with
    | nil => exact ⟨.remove x, xs, [], rfl, rfl, by simp [least_nil_right, Edit.cost], by simp⟩
    | cons y ys =>
      have hcases : least (x :: xs) (y :: ys) = least (x :: xs) ys + 1 ∨
          least (x :: xs) (y :: ys) = least xs (y :: ys) + 1 ∨
          least (x :: xs) (y :: ys) = least xs ys + (if x = y then 0 else 1) ∨
          (xs.head? = some y ∧ ys.head? = some x) ∧
            least (x :: xs) (y :: ys) = least xs.tail ys.tail + 1 := by
        rw [least]
        split
        · rename_i hswap
          simp only [hswap, true_and]
          omega
        · omega
      rcases hcases with hentry | hentry | hentry | ⟨⟨hx, hy⟩, hentry⟩
      · exact ⟨.insert y, x :: xs, ys, rfl, rfl, hentry, by simp⟩
      · exact ⟨.remove x, xs, y :: ys, rfl, rfl, hentry, by simp⟩
      · by_cases heq : x = y
        · subst heq
          exact ⟨.keep x, xs, ys, rfl, rfl, by simpa [Edit.cost] using hentry, by simp; omega⟩
        · rw [if_neg heq] at hentry
          exact ⟨.replace x y, xs, ys, rfl, rfl, hentry, by simp; omega⟩
      · obtain ⟨xs, rfl⟩ := List.head?_eq_some_iff.1 hx
        obtain ⟨ys, rfl⟩ := List.head?_eq_some_iff.1 hy
        exact ⟨.swap y x, xs, ys, rfl, rfl, hentry, by simp; omega⟩

theorem least_le_cost (script : List Edit) :
    least (script.flatMap Edit.source).reverse (script.flatMap Edit.target).reverse ≤
      cost script := by
  induction script using List.reverseRecOn with
  | nil => simp [least_nil_left]
  | append_singleton script e ih =>
    have hlast := least_append_le e (script.flatMap Edit.source).reverse
      (script.flatMap Edit.target).reverse
    have hcost : cost (script ++ [e]) = cost script + e.cost := by simp [cost]
    simp only [List.flatMap_append, List.flatMap_singleton, List.reverse_append]
    omega

theorem exists_script (xs ys : List Char) :
    ∃ script, Turns script xs.reverse ys.reverse ∧ cost script = least xs ys := by
  induction hn : xs.length + ys.length using Nat.strong_induction_on generalizing xs ys with
  | h n ih =>
    subst hn
    by_cases hlength : 0 < xs.length + ys.length
    · obtain ⟨e, xs', ys', rfl, rfl, hentry, hshorter⟩ := exists_last_edit xs ys hlength
      obtain ⟨script, ⟨hsource, htarget⟩, hcost⟩ := ih _ hshorter xs' ys' rfl
      refine ⟨script ++ [e], ⟨?_, ?_⟩, ?_⟩
      · simp [hsource]
      · simp [htarget]
      · rw [hentry, ← hcost]
        simp [cost]
    · obtain rfl : xs = [] := List.length_eq_zero_iff.1 (by omega)
      obtain rfl : ys = [] := List.length_eq_zero_iff.1 (by omega)
      exact ⟨[], ⟨rfl, rfl⟩, by simp [cost, least_nil_left]⟩

/-! ### The table -/

def rowFrom (xs : List Char) : List Char → List Char → List Nat
  | back, [] => [least xs back]
  | back, y :: ys => least xs back :: rowFrom xs (y :: back) ys

theorem getLastD_rowFrom (xs back ys : List Char) (n : Nat) :
    (rowFrom xs back ys).getLastD n = least xs (ys.reverse ++ back) := by
  induction ys generalizing back n with
  | nil => rfl
  | cons y ys ih =>
    rw [rowFrom, List.getLastD_cons, ih, List.reverse_cons, List.append_assoc,
      List.singleton_append]

/-- The row two above, as it is handed on at a column. Where there is none it is not looked at. -/
def RowTwoAbove (xs back ys : List Char) (two : List Nat) : Prop :=
  ∀ x above, xs = x :: above →
    match back with
    | [] => two.tail = rowFrom above [] ys
    | y :: back => two = rowFrom above back (y :: ys)

theorem RowTwoAbove.tail {xs back ys : List Char} {y : Char} {two : List Nat}
    (h : RowTwoAbove xs back (y :: ys) two) : RowTwoAbove xs (y :: back) ys two.tail := by
  intro x above hxs
  have htwo := h x above hxs
  cases back with
  | nil => exact htwo
  | cons y' back =>
    rw [htwo]
    rfl

theorem RowTwoAbove.entry {xs back ys : List Char} {x y : Char} {two : List Nat}
    (h : RowTwoAbove xs back ys two) (hxs : xs.head? = some y) (hback : back.head? = some x) :
    ∃ rest, two = least xs.tail back.tail :: rest := by
  obtain ⟨xs, rfl⟩ := List.head?_eq_some_iff.1 hxs
  obtain ⟨back, rfl⟩ := List.head?_eq_some_iff.1 hback
  rw [h y xs rfl, rowFrom]
  exact ⟨_, rfl⟩

theorem cells_eq (x : Char) (xs back ys : List Char) {two : List Nat}
    (htwo : RowTwoAbove xs back ys two) :
    least (x :: xs) back ::
        cells x xs.head? (least (x :: xs) back) back.head? ys (rowFrom xs back ys) two =
      rowFrom (x :: xs) back ys := by
  induction ys generalizing back two with
  | nil => cases two <;> simp [cells, rowFrom]
  | cons y ys ih =>
    obtain ⟨above, hup⟩ : ∃ above, rowFrom xs (y :: back) ys = least xs (y :: back) :: above := by
      cases ys with
      | nil => exact ⟨[], rfl⟩
      | cons y' ys => exact ⟨_, rfl⟩
    have hrest := ih (y :: back) htwo.tail
    rw [hup, List.head?_cons] at hrest
    rw [rowFrom, rowFrom, hup, ← hrest]
    cases two with
    | nil =>
      have hswap : ¬ (xs.head? = some y ∧ back.head? = some x) := fun h => by
        obtain ⟨rest, hrow⟩ := htwo.entry h.1 h.2
        exact absurd hrow nofun
      simp only [cells, least, if_neg hswap]
    | cons swap two =>
      by_cases hswap : xs.head? = some y ∧ back.head? = some x
      · obtain ⟨rest, hrow⟩ := htwo.entry hswap.1 hswap.2
        obtain rfl := (List.cons.inj hrow).1
        simp only [cells, least, if_pos hswap]
      · simp only [cells, least, if_neg hswap]

theorem rows_eq (xs back ys : List Char) (two : List Nat)
    (htwo : ∀ x above, back = x :: above → two = rowFrom above [] ys) :
    rows ys back.length back.head? xs (rowFrom back [] ys) two =
      rowFrom (xs.reverse ++ back) [] ys := by
  induction xs generalizing back two with
  | nil => rfl
  | cons x xs ih =>
    have habove : RowTwoAbove back [] ys (0 :: two) := htwo
    have hrow := cells_eq x back [] ys habove
    rw [least_nil_right, List.length_cons, List.head?_nil] at hrow
    have hrest := ih (x :: back) (rowFrom back [] ys) fun x' above h => by
      rw [(List.cons.inj h).2]
    rw [rows, hrow, List.reverse_cons, List.append_assoc, List.singleton_append, ← hrest]
    rfl

theorem range'_eq_rowFrom (back ys : List Char) :
    List.range' back.length (ys.length + 1) = rowFrom [] back ys := by
  induction ys generalizing back with
  | nil => simp [rowFrom, least_nil_left]
  | cons y ys ih =>
    have hrest := ih (y :: back)
    rw [List.length_cons] at hrest
    rw [rowFrom, least_nil_left, List.length_cons, List.range'_succ, hrest]

theorem between_eq_least (xs ys : List Char) : between xs ys = least xs.reverse ys.reverse := by
  have hfirst := range'_eq_rowFrom [] ys
  have hrows := rows_eq xs [] ys [] nofun
  rw [List.length_nil, ← List.range_eq_range'] at hfirst
  rw [List.length_nil, List.head?_nil, List.append_nil] at hrows
  rw [between, hfirst, hrows, getLastD_rowFrom, List.append_nil]

/-- No script costs less than the distance, and some script costs just that. -/
theorem between_isLeast (xs ys : List Char) :
    IsLeast {n | ∃ script, Turns script xs ys ∧ cost script = n} (between xs ys) := by
  rw [between_eq_least]
  constructor
  · obtain ⟨script, hturns, hcost⟩ := exists_script xs.reverse ys.reverse
    rw [List.reverse_reverse, List.reverse_reverse] at hturns
    exact ⟨script, hturns, hcost⟩
  · rintro n ⟨script, ⟨rfl, rfl⟩, rfl⟩
    exact least_le_cost script

/-- A swap and an edit next to it: `ca` is three edits from `abc`, as nothing is edited twice. -/
example : between "ca".toList "abc".toList = 3 := by decide

end GraphQLCheck.Distance
