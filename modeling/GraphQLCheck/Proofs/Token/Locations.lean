import GraphQLCheck.Proofs.Token.Separation
import Mathlib.Data.List.Induction

/-!
Where tokens are located.
-/
namespace GraphQLCheck

theorem Location.after_first (before rest : List Char) :
    Location.first.after before = atOffset (before ++ rest) before.length := by
  rw [atOffset, List.take_left]
  induction before using List.reverseRecOn with
  | nil => rfl
  | append_singleton before c ih =>
    rw [after_append, ih]
    by_cases hc : c = '\n'
    · subst hc
      simp [after, advance]
    · simp [after, advance, hc]

namespace Lexeme

def finish (source : List Char) : Lexeme :=
  (Cursor.mk [] (Position.start.after source) true).head

theorem finish_span (source : List Char) :
    (finish source).span = ⟨source.length, source.length⟩ := by
  rw [finish, Cursor.head, Position.after, Position.start, Nat.zero_add]

theorem start_lt_stop {source : List Char} {l : Lexeme} (hl : l ∈ scan source) :
    l.span.start < l.span.stop ∧ l.span.stop ≤ source.length := by
  obtain ⟨before, c, part, rest, t, rfl, -, rfl⟩ := exists_of_mem_scanAt (p := .start) hl
  simp only [Position.after, Position.start, List.length_append, List.length_cons]
  omega

theorem start_le {source : List Char} {l : Lexeme} (hl : l ∈ scan source ++ [finish source]) :
    l.span.start ≤ source.length := by
  obtain hl | hl := List.mem_append.1 hl
  · have hspan := start_lt_stop hl
    omega
  · obtain rfl := List.mem_singleton.1 hl
    exact Nat.le_of_eq (congrArg Span.start (finish_span source))

/-- Tokens and the end of the source are located where they start. -/
theorem location_eq {source : List Char} {l : Lexeme} (hl : l ∈ scan source ++ [finish source]) :
    l.location = Location.atOffset source l.span.start := by
  have hstart : ∀ before rest : List Char, (Position.start.after before).location =
      Location.atOffset (before ++ rest) (Position.start.after before).offset := by
    intro before rest
    rw [Position.after, Position.start, Nat.zero_add]
    exact Location.after_first before rest
  obtain hl | hl := List.mem_append.1 hl
  · obtain ⟨before, c, part, rest, t, rfl, -, rfl⟩ := exists_of_mem_scanAt (p := .start) hl
    exact hstart before _
  · obtain rfl := List.mem_singleton.1 hl
    have hend := hstart source []
    rwa [List.append_nil] at hend

end Lexeme

end GraphQLCheck
