import GraphQLCheck.Sorting.Insertion

/-!
Merging sorted lists from either end, and sorting up to 32 elements by merging two halves from
both ends at once. Each end supplies as many elements as the shorter half has; by an order the
two ends meet. If they do not, `lt` is no order and there is no result.
-/
namespace GraphQLCheck.Sorting
variable {α : Type}

/-- The first `n` elements of the merge, and how many of them the first list gave. -/
def mergeFirst (takeLeft : α → α → Bool) : Nat → List α → List α → List α × Nat
  | 0, _, _ => ([], 0)
  | _ + 1, [], [] => ([], 0)
  | n + 1, x :: xs, [] =>
    let (out, k) := mergeFirst takeLeft n xs []
    (x :: out, k + 1)
  | n + 1, [], y :: ys =>
    let (out, k) := mergeFirst takeLeft n [] ys
    (y :: out, k)
  | n + 1, x :: xs, y :: ys =>
    if takeLeft x y then
      let (out, k) := mergeFirst takeLeft n xs (y :: ys)
      (x :: out, k + 1)
    else
      let (out, k) := mergeFirst takeLeft n (x :: xs) ys
      (y :: out, k)

theorem mergeFirst_le (takeLeft : α → α → Bool) (n : Nat) (xs ys : List α) :
    (mergeFirst takeLeft n xs ys).2 ≤ n ∧ (mergeFirst takeLeft n xs ys).2 ≤ xs.length := by
  induction n generalizing xs ys with
  | zero => simp [mergeFirst]
  | succ n ih =>
    match xs, ys with
    | [], [] => simp [mergeFirst]
    | x :: xs, [] => have := ih xs []; simp only [mergeFirst, List.length_cons]; omega
    | [], y :: ys => have := ih [] ys; simp only [mergeFirst, List.length_nil] at *; omega
    | x :: xs, y :: ys =>
      have h₁ := ih xs (y :: ys)
      have h₂ := ih (x :: xs) ys
      simp only [mergeFirst]
      split <;> simp only [List.length_cons] at * <;> omega

theorem mergeFirst_perm (takeLeft : α → α → Bool) (n : Nat) (xs ys : List α) :
    (mergeFirst takeLeft n xs ys).1.Perm (xs.take (mergeFirst takeLeft n xs ys).2 ++
      ys.take (n - (mergeFirst takeLeft n xs ys).2)) := by
  induction n generalizing xs ys with
  | zero => simp [mergeFirst]
  | succ n ih =>
    match xs, ys with
    | [], [] => simp [mergeFirst]
    | x :: xs, [] =>
      simp only [mergeFirst, List.take_succ_cons, List.cons_append, Nat.add_sub_add_right]
      exact (ih xs []).cons x
    | [], y :: ys =>
      have h := (mergeFirst_le takeLeft n [] ys).1
      simp only [mergeFirst, Nat.succ_sub h, List.take_succ_cons]
      exact ((ih [] ys).cons y).trans List.perm_middle.symm
    | x :: xs, y :: ys =>
      simp only [mergeFirst]
      split
      · simp only [List.take_succ_cons, List.cons_append, Nat.add_sub_add_right]
        exact (ih xs (y :: ys)).cons x
      · have h := (mergeFirst_le takeLeft n (x :: xs) ys).1
        simp only [Nat.succ_sub h, List.take_succ_cons]
        exact ((ih (x :: xs) ys).cons y).trans List.perm_middle.symm

variable (lt : α → α → Bool)

def fromFront (n : Nat) (left right : List α) : List α × Nat :=
  mergeFirst (fun a b => !lt b a) n left right

def fromBack (n : Nat) (left right : List α) : List α × Nat :=
  let (out, k) := mergeFirst (fun b a => !lt b a) n right.reverse left.reverse
  (out.reverse, n - k)

/-- Merges from the end at which the shorter list is used up first. -/
def merge (left right : List α) : List α :=
  let n := left.length + right.length
  if left.length ≤ right.length then (fromFront lt n left right).1
  else (fromBack lt n left right).1

/-- Merges from both ends. The right list is as long as the left one, or longer by one. -/
def meet? (left right : List α) : Option (List α) :=
  let k := left.length
  let (front, i) := fromFront lt k left right
  let (back, j) := fromBack lt k left right
  if i + j = k then some (front ++ (right.drop (k - i)).take (right.length - k) ++ back)
  else if i + j + 1 = k ∧ right.length = k + 1 then some (front ++ (left.drop i).take 1 ++ back)
  else none

def four (a b c d : α) : List α :=
  let (a, b) := if lt b a then (b, a) else (a, b)
  let (c, d) := if lt d c then (d, c) else (c, d)
  let between (least x y greatest : α) : List α :=
    if lt y x then [least, y, x, greatest] else [least, x, y, greatest]
  match lt c a, lt d b with
  | false, false => between a b c d
  | false, true => between a c d b
  | true, false => between c a b d
  | true, true => between c a d b

def half (byFour : Bool) (xs : List α) : List α :=
  match byFour, xs with
  | true, a :: b :: c :: d :: rest => insertAll lt (four lt a b c d) rest
  | _, xs => insertion lt xs

def short? (xs : List α) : Option (List α) :=
  let k := xs.length / 2
  let byFour : Bool := 8 ≤ xs.length
  if xs.length < 2 then some xs
  else meet? lt (half lt byFour (xs.take k)) (half lt byFour (xs.drop k))

end GraphQLCheck.Sorting
