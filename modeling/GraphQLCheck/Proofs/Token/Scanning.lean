import GraphQLCheck.Token.Lexer

/-!
What scanning gives. The tokens of a source are the first token of the text behind the separators
and then those of what follows it, so that scanning can be followed token by token
(`Lexeme.scanAt_token`, `Lexeme.scanAt_separator`), and what is true of every first token is true
of every token (`Lexeme.forall_mem_scanFrom`).
-/
namespace GraphQLCheck

namespace Lexeme

theorem scanFrom_congr {n m : Nat} {cs : List Char} (hn : cs.length ≤ n) (hm : cs.length ≤ m)
    (p : Position) : scanFrom n p cs = scanFrom m p cs := by
  induction n generalizing m p cs with
  | zero =>
    obtain rfl := List.length_eq_zero_iff.1 (Nat.le_zero.1 hn)
    cases m <;> rfl
  | succ n ih =>
    cases cs with
    | nil => cases m <;> rfl
    | cons c cs =>
      obtain ⟨m, rfl⟩ : ∃ k, m = k + 1 := ⟨m - 1, by simp at hm; omega⟩
      have htail : ∀ {k : Nat}, 0 < k →
          ((c :: cs).drop k).length ≤ n ∧ ((c :: cs).drop k).length ≤ m := by
        intro k hk
        simp only [List.length_drop, List.length_cons] at hn hm ⊢
        omega
      rw [scanFrom, scanFrom]
      have hfirst := htail (Token.first_snd_pos c cs)
      split
      · exact congrArg _ (ih hfirst.1 hfirst.2 _)
      · have hskip := htail (Nat.pos_of_ne_zero ‹ignored c cs ≠ 0›)
        exact ih hskip.1 hskip.2 _

def scanAt (p : Position) (cs : List Char) : List Lexeme := scanFrom cs.length p cs

theorem scanAt_nil (p : Position) : scanAt p [] = [] := rfl

theorem scanAt_token {c : Char} {cs : List Char} (h : ignored c cs = 0) (p : Position) :
    scanAt p (c :: cs) =
      ⟨(Token.first c cs).1,
        ⟨p.offset, (p.after ((c :: cs).take (Token.first c cs).2)).offset⟩, p.location⟩ ::
      scanAt (p.after ((c :: cs).take (Token.first c cs).2))
        ((c :: cs).drop (Token.first c cs).2) := by
  have hpos := Token.first_snd_pos c cs
  rw [scanAt, List.length_cons, scanFrom]
  simp only [h, if_true]
  exact congrArg _ (scanFrom_congr
    (by simp only [List.length_drop, List.length_cons]; omega) (Nat.le_refl _) _)

theorem scanAt_skip {c : Char} {cs : List Char} (h : ignored c cs ≠ 0) (p : Position) :
    scanAt p (c :: cs) =
      scanAt (p.after ((c :: cs).take (ignored c cs))) ((c :: cs).drop (ignored c cs)) := by
  rw [scanAt, List.length_cons, scanFrom]
  simp only [if_neg h]
  exact scanFrom_congr
    (by simp only [List.length_drop, List.length_cons]; omega) (Nat.le_refl _) _

theorem scanAt_separator {c : Char} (h : isSeparator c = true) (p : Position) (cs : List Char) :
    scanAt p (c :: cs) = scanAt (p.after [c]) cs := by
  have hskip : ignored c cs = 1 := if_pos h
  rw [scanAt_skip (by omega), hskip]
  rfl

theorem forall_mem_scanFrom {P : Lexeme → Prop}
    (h : ∀ c cs span location, P ⟨(Token.first c cs).1, span, location⟩) (n : Nat) (p : Position)
    (cs : List Char) : ∀ l ∈ scanFrom n p cs, P l := by
  induction n generalizing p cs with
  | zero => simp [scanFrom]
  | succ n ih =>
    cases cs with
    | nil => simp [scanFrom]
    | cons c cs =>
      rw [scanFrom]
      dsimp only
      split
      · exact List.forall_mem_cons.2 ⟨h c cs _ _, ih _ _⟩
      · exact ih _ _

end Lexeme
end GraphQLCheck
