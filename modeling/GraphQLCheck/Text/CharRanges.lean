/-!
Character classes given as ranges of code points, both ends included.
-/
namespace GraphQLCheck.Text

abbrev CharRanges := Array (Nat × Nat)

def CharRanges.contains (ranges : CharRanges) (c : Char) : Bool :=
  ranges.any fun r => r.1 ≤ c.toNat && c.toNat ≤ r.2

end GraphQLCheck.Text
