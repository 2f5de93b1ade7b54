import GraphQLCheck.Proofs.Document.Untracked
import GraphQLCheck.Proofs.Token.Separation

/-!
Documents and the text that is not significant. What is read depends on the tokens of a source
alone, up to places (`Document.read_of_tokens`), so that a gap in front of a source or behind one
of its tokens makes no difference to the document.
-/
namespace GraphQLCheck

theorem Document.read_of_tokens {tracked : Bool} {source source' : String} {d : Document}
    (htokens : Lexeme.tokens source.toList = Lexeme.tokens source'.toList)
    (h : Document.read tracked source = .ok d) :
    ∃ d', Document.read tracked source' = .ok d' ∧
      d'.definitions.map Definition.unplaced = d.definitions.map Definition.unplaced := by
  obtain ⟨t, ht, rfl⟩ := Document.read_eq_ok.1 h
  obtain ⟨rest, hrest⟩ := readDefinitions_eq_done.2 ⟨t, ht, rfl⟩
  have hahead : (Cursor.ofSource tracked source.toList).ahead.map Lexeme.token =
      (Cursor.ofSource tracked source'.toList).ahead.map Lexeme.token := htokens
  obtain ⟨_, rest', hread, hsame⟩ := untracked_readDefinitions.done_of_tokens hahead hrest
  obtain ⟨t', ht', rfl⟩ := readDefinitions_eq_done.1 ⟨rest', hread⟩
  exact ⟨_, Document.read_eq_ok.2 ⟨t', ht', rfl⟩, hsame⟩

/-- Text that is not significant does not change a document. Where a source is accepted, so is the
source with any gap in front of it or directly behind any of its tokens, and the same nodes are
read from it, up to their places. -/
theorem Document.read_separated {tracked : Bool} {source : String} {d : Document}
    (h : Document.read tracked source = .ok d) {gap : List Char} (hgap : Gap gap) {k : Nat}
    (hk : Lexeme.Bound source.toList k) :
    ∃ d', Document.read tracked
        (String.ofList (source.toList.take k ++ (gap ++ source.toList.drop k))) = .ok d' ∧
      d'.definitions.map Definition.unplaced = d.definitions.map Definition.unplaced := by
  have hvalid : ∀ l ∈ Lexeme.scan source.toList, l.token ≠ .invalid := by
    obtain ⟨t, ht, -⟩ := Document.read_eq_ok.1 h
    rw [← ht]
    exact t.valid
  refine Document.read_of_tokens ?_ h
  rw [String.toList_ofList]
  exact (Lexeme.tokens_insert hvalid hgap hk).symm

/-- A comment between a number and a string that touched it. -/
theorem Document.read_separated_touching :
    ∃ d, Document.read true "\x7ba(b:[1.5\"x\"-2])...f\x7d" = .ok d ∧
      Gap ['#', '"', '\r', ','] ∧ Lexeme.Bound "\x7ba(b:[1.5\"x\"-2])...f\x7d".toList 9 ∧
      ∃ d', Document.read true "\x7ba(b:[1.5#\"\r,\"x\"-2])...f\x7d" = .ok d' ∧
        d'.definitions.map Definition.unplaced = d.definitions.map Definition.unplaced := by
  obtain ⟨d, hread⟩ : ∃ d, Document.read true "\x7ba(b:[1.5\"x\"-2])...f\x7d" = .ok d := ⟨_, rfl⟩
  have hcomment : OneLine ['"'] := by simp [OneLine]
  have hgap : Gap ['#', '"', '\r', ','] :=
    .comment hcomment (.inr rfl) (.separator (by decide) .nil)
  have hbound : Lexeme.Bound "\x7ba(b:[1.5\"x\"-2])...f\x7d".toList 9 :=
    .inr ⟨_, List.mem_of_getElem? (i := 6) rfl, rfl⟩
  exact ⟨d, hread, hgap, hbound, read_separated hread hgap hbound⟩

end GraphQLCheck
