/-!
Sorting by insertion. `lt` need not be an order; `insertion` then still keeps all elements, and
where they end up is fixed by which of them are compared.
-/
namespace GraphQLCheck.Sorting
variable {α : Type} (lt : α → α → Bool)

/-- The list has its last element first. The new element goes behind the first that it does not
precede. -/
def insertLast (x : α) : List α → List α
  | [] => [x]
  | y :: ys => if lt x y then y :: insertLast x ys else x :: y :: ys

def insertAll (sorted xs : List α) : List α :=
  (xs.foldl (fun sorted x => insertLast lt x sorted) sorted.reverse).reverse

def insertion (xs : List α) : List α := insertAll lt [] xs

theorem insertLast_perm (x : α) (ys : List α) : (insertLast lt x ys).Perm (x :: ys) := by
  induction ys with
  | nil => exact .refl _
  | cons y ys ih =>
    unfold insertLast
    split
    · exact (ih.cons y).trans (.swap x y ys)
    · exact .refl _

theorem insertAll_perm (sorted xs : List α) : (insertAll lt sorted xs).Perm (sorted ++ xs) := by
  have h : ∀ acc : List α,
      (xs.foldl (fun sorted x => insertLast lt x sorted) acc).Perm (acc ++ xs) := by
    induction xs with
    | nil => intro acc; simp
    | cons x xs ih =>
      intro acc
      exact (ih _).trans (((insertLast_perm lt x acc).append_right xs).trans List.perm_middle.symm)
  exact (List.reverse_perm _).trans ((h _).trans ((List.reverse_perm sorted).append_right xs))

theorem insertion_perm (xs : List α) : (insertion lt xs).Perm xs :=
  insertAll_perm lt [] xs

end GraphQLCheck.Sorting
