import GraphQLCheck.Suggestion.Distance
import GraphQLCheck.Text.Lowercase

/-!
Names to suggest in place of one that is not known, and the sentence that suggests them.
-/
namespace GraphQLCheck.Suggestion

/-- Case alone counts as one edit. -/
def distance (input option : String) : Nat :=
  if input = option then 0
  else
    let a := Text.lowercase input
    let b := Text.lowercase option
    if a = b then 1 else Distance.between a.toList b.toList

def threshold (input : String) : Nat := input.length * 2 / 5 + 1

def isBefore (a b : Nat × String) : Bool := a.1 < b.1 || (a.1 == b.1 && a.2 ≤ b.2)

def dropRepeats {α : Type} [DecidableEq α] : List α → List α
  | [] => []
  | [a] => [a]
  | a :: b :: rest => if a = b then dropRepeats (b :: rest) else a :: dropRepeats (b :: rest)

theorem mem_dropRepeats {α : Type} [DecidableEq α] {a : α} {as : List α} :
    a ∈ dropRepeats as ↔ a ∈ as := by
  fun_induction dropRepeats as <;> simp_all

/-- The options near the input, nearest first and then by name. -/
def near (input : String) (options : List String) : List String :=
  let ranked := options.map fun o => (distance input o, o)
  let close := ranked.filter fun r => r.1 ≤ threshold input
  (dropRepeats (close.mergeSort isBefore)).map Prod.snd

def quoted (name : String) : String := "'" ++ name ++ "'"

def alternatives : List String → String
  | [] => ""
  | [a] => a
  | [a, b] => a ++ " or " ++ b
  | as => ", ".intercalate as.dropLast ++ ", or " ++ as.getLastD ""

/-- At most five names are suggested, and without any there is no sentence. -/
def sentence (lead : Option String) (names : List String) : String :=
  if names.isEmpty then ""
  else
    " Did you mean " ++ (match lead with | some l => l ++ " " | none => "")
      ++ alternatives ((names.take 5).map quoted) ++ "?"

end GraphQLCheck.Suggestion
