import GraphQLCheck.Sorting.Merge

/-!
A stable sort that also has to do with comparisons that are no order. Up to 20 elements are
sorted by insertion. More are cut into runs, which are merged along a balanced tree: a run that
is long enough and sorted already is taken as it is. Other runs are sorted at once, 32 elements
at a time, if there are at most 64 in all; otherwise they are only sorted when they meet a sorted
run or when nothing is left to join, and then by parting at a pivot.
-/
namespace GraphQLCheck.Sorting
variable {α : Type}

structure Run (α : Type) where
  elements : List α
  sorted : Bool

section
variable (lt : α → α → Bool)

def keepsGoing (down : Bool) (x : α) : List α → Nat
  | [] => 0
  | y :: ys => if lt y x = down then keepsGoing down y ys + 1 else 0

def rise : List α → Nat × Bool
  | x :: y :: ys =>
    let down := lt y x
    (keepsGoing lt down y ys + 2, down)
  | xs => (xs.length, false)

def firstRun? (atOnce : Bool) (least : Nat) (xs : List α) : Option (Run α) :=
  let (n, down) := rise lt xs
  if least ≤ n then some ⟨if down then (xs.take n).reverse else xs.take n, true⟩
  else if atOnce then (short? lt (xs.take 32)).map (⟨·, true⟩)
  else some ⟨xs.take least, false⟩

variable (sortPart : List α → Option (List α))

def Run.finish? (r : Run α) : Option (List α) :=
  if r.sorted then some r.elements else sortPart r.elements

def join? (left right : Run α) : Option (Run α) :=
  if left.sorted || right.sorted then do
    let l ← left.finish? sortPart
    let r ← right.finish? sortPart
    pure ⟨merge lt l r, true⟩
  else some ⟨left.elements ++ right.elements, false⟩

def collapse? (depth : Nat) (r : Run α) :
    List (Run α × Nat) → Option (Run α × List (Run α × Nat))
  | [] => some (r, [])
  | (left, d) :: rest =>
    if depth ≤ d then do collapse? depth (← join? lt sortPart left r) rest
    else some (r, (left, d) :: rest)

end

/-- The depth in a balanced tree of the place between two runs: how many leading bits, of 64, the
middles of the runs have in common as parts of the whole. -/
def treeDepth (length left mid right : Nat) : Nat :=
  let scale := (4611686018427387904 + length - 1) / length
  let apart := Nat.xor (scale * (left + mid)) (scale * (mid + right))
  if apart = 0 then 64 else 63 - apart.log2

section
variable (lt : α → α → Bool) (sortPart : List α → Option (List α))

def sweep? (atOnce : Bool) (least length : Nat) :
    Nat → Nat → List α → Run α → List (Run α × Nat) → Option (Run α)
  | n + 1, start, x :: xs, r, stack => do
    let next ← firstRun? lt atOnce least (x :: xs)
    let size := next.elements.length
    let depth := treeDepth length (start - r.elements.length) start (start + size)
    let (r, stack) ← collapse? lt sortPart depth r stack
    sweep? atOnce least length n (start + size) ((x :: xs).drop size) next ((r, depth) :: stack)
  | _, _, _, r, stack => (collapse? lt sortPart 0 r stack).map (·.1)

def leastRun (length : Nat) : Nat :=
  if length ≤ 4096 then Nat.min (length - length / 2) 64
  else
    let shift := (1 + length.log2) / 2
    (Nat.shiftLeft 1 shift + Nat.shiftRight length shift) / 2

def byRuns? (atOnce : Bool) (xs : List α) : Option (List α) := do
  let least := leastRun xs.length
  let r ← firstRun? lt atOnce least xs
  let size := r.elements.length
  let r ← sweep? lt sortPart atOnce least xs.length xs.length size (xs.drop size) r []
  r.finish? sortPart

end

section
variable (lt : α → α → Bool)

def median (get : Nat → α) (a b c : Nat) : Nat :=
  if lt (get a) (get b) = lt (get a) (get c) then
    if lt (get b) (get c) = lt (get a) (get b) then b else c
  else a

def wideMedian (get : Nat → α) : Nat → Nat → Nat → Nat → Nat → Nat
  | 0, _, a, b, c => median lt get a b c
  | fuel + 1, n, a, b, c =>
    if n < 8 then median lt get a b c
    else
      let m := n / 8
      let part (i : Nat) : Nat := wideMedian get fuel m i (i + m * 4) (i + m * 7)
      median lt get (part a) (part b) (part c)

def split (goesLeft : α → Bool) (pivot : Nat) (pivotLeft : Bool) (xs : List α) :
    List α × List α :=
  let marked := xs.mapIdx fun i x => (x, if i = pivot then pivotLeft else goesLeft x)
  ((marked.filter fun x => x.2).map (·.1), (marked.filter fun x => !x.2).map (·.1))

/-- Sorts by parting at a pivot, at most `limit` times in a row. Elements that equal the pivot
are done with when nothing precedes it, or when it equals the pivot to the left. -/
def quick? (limit : Nat) (before : Option α) (xs : List α) : Option (List α) :=
  if xs.length ≤ 32 then short? lt xs
  else
    match limit, xs with
    | 0, xs => byRuns? lt some true xs
    | _ + 1, [] => some []
    | limit + 1, x :: xs =>
      let get (i : Nat) : α := (x :: xs).getD i x
      let n := (x :: xs).length / 8
      let p := wideMedian lt get n n 0 (n * 4) (n * 7)
      let (left, right) := split (lt · (get p)) p false (x :: xs)
      if before.any (fun y => !lt y (get p)) || left.isEmpty then
        let (same, rest) := split (fun y => !lt (get p) y) p true (x :: xs)
        (quick? limit none rest).map (same ++ ·)
      else do
        let right ← quick? limit (some (get p)) right
        let left ← quick? limit before left
        pure (left ++ right)

/-- Nothing if the comparison was found to be no order. Not every such comparison is found. -/
def stable? (xs : List α) : Option (List α) :=
  if xs.length ≤ 20 then some (insertion lt xs)
  else if xs.length ≤ 64 then byRuns? lt some true xs
  else byRuns? lt (fun ys => quick? lt (2 * ys.length.log2) none ys) false xs

theorem stable?_of_length_le {xs : List α} (h : xs.length ≤ 20) :
    stable? lt xs = some (insertion lt xs) := by
  simp [stable?, h]

end
end GraphQLCheck.Sorting
