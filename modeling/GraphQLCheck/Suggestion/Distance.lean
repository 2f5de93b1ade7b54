/-!
How far two texts are from each other: the least number of characters to insert, remove, replace
or swap with their neighbour, where no part is edited twice. The table of distances between the
beginnings of the texts is filled row by row.
-/
namespace GraphQLCheck.Distance

/-- The rest of the row of `x`. `left` is the entry before, `above` the row before from that
column on, and `two` the row before that, one column behind; `lastX` and `lastY` are the
characters in front of `x` and of the column. -/
def cells (x : Char) (lastX : Option Char) :
    (left : Nat) → (lastY : Option Char) → List Char → (above two : List Nat) → List Nat
  | left, lastY, y :: ys, diagonal :: up :: above, two =>
    let edit := min (left + 1) (min (up + 1) (diagonal + if x = y then 0 else 1))
    let entry := match two with
      | swap :: _ => if lastX = some y ∧ lastY = some x then min edit (swap + 1) else edit
      | [] => edit
    entry :: cells x lastX entry (some y) ys (up :: above) two.tail
  | _, _, _, _, _ => []

def rows (ys : List Char) :
    (i : Nat) → (lastX : Option Char) → List Char → (above two : List Nat) → List Nat
  | _, _, [], above, _ => above
  | i, lastX, x :: xs, above, two =>
    let row := (i + 1) :: cells x lastX (i + 1) none ys above (0 :: two)
    rows ys (i + 1) (some x) xs row above

def between (xs ys : List Char) : Nat :=
  (rows ys 0 none xs (List.range (ys.length + 1)) []).getLastD 0

end GraphQLCheck.Distance
