/-!
Decimal numerals with an optional sign, and which of them pass for a signed number of 32 bits.
The digits are summed up in one word of 32 bits, and ten digits have overflowed when the word
ends below the least number of ten digits. A sum that wraps around and still ends in the range
of ten digits goes unnoticed, so `6000000000` passes and `5000000000` does not.
-/
namespace GraphQLCheck

structure Decimal where
  negative : Bool
  magnitude : Nat
deriving DecidableEq

namespace Decimal

def value (d : Decimal) : Int := if d.negative then -(d.magnitude : Int) else d.magnitude

def natural? (digits : List Char) : Option Nat :=
  if !digits.isEmpty && digits.all Char.isDigit then
    some (digits.foldl (fun n c => n * 10 + (c.toNat - '0'.toNat)) 0)
  else none

def read? : List Char → Option Decimal
  | '-' :: digits => (natural? digits).map (⟨true, ·⟩)
  | '+' :: digits => (natural? digits).map (⟨false, ·⟩)
  | digits => (natural? digits).map (⟨false, ·⟩)

def bound (negative : Bool) : Nat := if negative then 2147483648 else 2147483647

def word (d : Decimal) : Nat := d.magnitude % UInt32.size

/-- Up to nine digits always pass, ten digits by what the word holds, and more never. -/
def passesInt32 (d : Decimal) : Bool :=
  d.magnitude < 1000000000 ||
    (d.magnitude < 10000000000 && 1000000000 ≤ d.word && d.word ≤ bound d.negative)

theorem passesInt32_of_le {d : Decimal} (h : d.magnitude ≤ bound d.negative) :
    d.passesInt32 = true := by
  have hb : bound d.negative ≤ 2147483648 := by unfold bound; split <;> omega
  have hw : d.word = d.magnitude := Nat.mod_eq_of_lt (by simp only [UInt32.size]; omega)
  simp only [passesInt32, hw, Bool.or_eq_true, Bool.and_eq_true, decide_eq_true_eq]
  omega

/-- The first magnitude that wraps around unnoticed is `5294967296`. -/
theorem le_of_passesInt32 {d : Decimal} (h : d.passesInt32 = true)
    (hm : d.magnitude < 5294967296) : d.magnitude ≤ bound d.negative := by
  have hb : 2147483647 ≤ bound d.negative := by unfold bound; split <;> omega
  simp only [passesInt32, Bool.or_eq_true, Bool.and_eq_true, decide_eq_true_eq] at h
  simp only [word, UInt32.size] at h
  omega

end Decimal
end GraphQLCheck
