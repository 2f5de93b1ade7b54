import GraphQLCheck.Proofs.Token.Separation

/-!
Strings and their prints. A character of up to four hexadecimal digits is read back from its print.
One with more digits is printed as an escape of them all, of which reading takes the first four, so
that each digit behind these becomes a character of its own. A string is therefore read back from
its print exactly if no character in it has more than four digits (`Lexeme.scan_printedString`).
-/
namespace GraphQLCheck

theorem exists_digit_of_mem_toDigits {n : Nat} {c : Char} (h : c ∈ Nat.toDigits 16 n) :
    ∃ d, d < 16 ∧ c = d.digitChar := by
  induction n using Nat.strongRecOn with
  | ind n ih =>
    rw [Nat.toDigits_eq_if (by decide)] at h
    split at h
    · exact ⟨n, ‹n < 16›, List.mem_singleton.1 h⟩
    · obtain h | h := List.mem_append.1 h
      · exact ih (n / 16) (by omega) h
      · exact ⟨n % 16, by omega, List.mem_singleton.1 h⟩

theorem upper_digitChar_plain :
    ∀ d < 16, (Nat.digitChar d).toUpper ∉ ['"', '\\', '\n', '\r'] := by
  decide

theorem plain_of_mem_toDigits {n : Nat} {c : Char} (h : c ∈ (Nat.toDigits 16 n).map Char.toUpper) :
    c ∉ ['"', '\\', '\n', '\r'] := by
  obtain ⟨e, he, rfl⟩ := List.mem_map.1 h
  obtain ⟨d, hd, rfl⟩ := exists_digit_of_mem_toDigits he
  exact upper_digitChar_plain d hd

theorem upperHex_wide {n : Nat} (hn : 0xFFFF < n) :
    ∃ a b c d e es, upperHex n = a :: b :: c :: d :: e :: es ∧
      ∀ x ∈ e :: es, x ∉ ['"', '\\', '\n', '\r'] := by
  have hlength : 4 < (Nat.toDigits 16 n).length := by
    rw [← Nat.not_le, Nat.length_toDigits_le_iff (by decide) (by decide)]
    omega
  have hdigits : upperHex n = (Nat.toDigits 16 n).map Char.toUpper := by
    rw [upperHex, List.length_map, Nat.sub_eq_zero_of_le (Nat.le_of_lt hlength)]
    rfl
  have hplain : ∀ x ∈ upperHex n, x ∉ ['"', '\\', '\n', '\r'] :=
    fun x hx => plain_of_mem_toDigits (hdigits ▸ hx)
  have hmore : 4 < (upperHex n).length := by rwa [hdigits, List.length_map]
  match h : upperHex n, hmore with
  | a :: b :: c :: d :: e :: es, _ =>
    refine ⟨a, b, c, d, e, es, rfl, fun x hx => hplain x ?_⟩
    rw [h]
    exact List.mem_append_right [a, b, c, d] hx

theorem escapedChar_wide {c : Char} (hc : 0xFFFF < c.toNat) :
    escapedChar c = ['\\', 'u'] ++ upperHex c.toNat := by
  have hne : ∀ d : Char, d.toNat ≤ 0xFFFF → c ≠ d := by
    rintro d hd rfl
    omega
  rw [escapedChar, if_neg (hne _ (by decide)), if_neg (hne _ (by decide)),
    if_neg (hne _ (by decide)), if_neg (hne _ (by decide)), if_neg (hne _ (by decide)),
    if_neg (by omega)]

namespace QuotedText

theorem length_lt_of_read_wide {c : Char} (hc : 0xFFFF < c.toNat) {rest t : List Char} {n : Nat}
    (h : read (escapedChar c ++ rest) = some (t, n)) :
    ∃ t' n', read rest = some (t', n') ∧ t'.length + 1 < t.length := by
  obtain ⟨a, b, d, e, x, xs, hdigits, hplain⟩ := upperHex_wide hc
  have hread : read (escapedChar c ++ rest) =
      (codePoint a b d e).bind fun y =>
        (read ((x :: xs) ++ rest)).bind fun z => some (y :: z.1, z.2 + 6) := by
    rw [escapedChar_wide hc, hdigits]
    rfl
  rw [hread, read_items (items_plain hplain)] at h
  obtain ⟨y, -, h⟩ := Option.bind_eq_some_iff.1 h
  obtain ⟨z, hz, h⟩ := Option.bind_eq_some_iff.1 h
  obtain ⟨⟨t', n'⟩, hrest, rfl⟩ := Option.map_eq_some_iff.1 hz
  obtain ⟨rfl, -⟩ := Prod.mk.inj (Option.some.inj h)
  refine ⟨t', n', hrest, ?_⟩
  simp only [List.length_cons, List.length_append]
  omega

/-- Each character with more than four digits makes what is read longer than what was printed. -/
theorem length_read_printed {s t : List Char} {n : Nat}
    (h : read (s.flatMap escapedChar ++ ['"']) = some (t, n)) :
    s.length + s.countP (fun c => 0xFFFF < c.toNat) ≤ t.length := by
  induction s generalizing t n with
  | nil => exact Nat.zero_le _
  | cons c s ih =>
    rw [List.flatMap_cons, List.append_assoc] at h
    by_cases hc : 0xFFFF < c.toNat
    · obtain ⟨t', n', hrest, hlength⟩ := length_lt_of_read_wide hc h
      have htail := ih hrest
      rw [List.length_cons, List.countP_cons, if_pos (by simpa using hc)]
      omega
    · rw [read_escapedChar (Nat.le_of_not_lt hc)] at h
      obtain ⟨⟨t', n'⟩, hrest, hpair⟩ := Option.map_eq_some_iff.1 h
      obtain ⟨rfl, -⟩ := Prod.mk.inj hpair
      have htail := ih hrest
      rw [List.length_cons, List.countP_cons, if_neg (by simpa using hc)]
      simp only [List.length_cons]
      omega

theorem read_printed_self {s : List Char} {n : Nat}
    (h : read (s.flatMap escapedChar ++ ['"']) = some (s, n)) : ∀ c ∈ s, c.toNat ≤ 0xFFFF := by
  have hcount : s.countP (fun c => 0xFFFF < c.toNat) = 0 := by
    have hlength := length_read_printed h
    omega
  intro c hc
  simpa using List.countP_eq_zero.1 hcount c hc

end QuotedText

theorem printed_ne_quotes (s : List Char) (tail : List Char) :
    s.flatMap escapedChar ++ ['"'] ≠ '"' :: '"' :: tail := by
  cases s with
  | nil => simp
  | cons c s =>
    obtain ⟨d, ds, hd, hne⟩ : ∃ d ds, escapedChar c = d :: ds ∧ d ≠ '"' := by
      by_cases hc : c.toNat ≤ 0xFFFF
      · exact (item_escapedChar hc).head
      · exact ⟨'\\', _, escapedChar_wide (Nat.lt_of_not_le hc), by decide⟩
    rw [List.flatMap_cons, hd]
    exact fun h => hne (List.cons.inj h).1

namespace Lexeme

theorem scan_quote (cs : List Char) :
    ∃ stop rest, scan ('"' :: cs) = ⟨(Token.afterQuote cs).1, ⟨0, stop⟩, .first⟩ :: rest :=
  ⟨_, _, scanAt_token (p := .start) (c := '"') rfl⟩

theorem scan_whole {c : Char} {cs : List Char} {t : Token} (hc : ignored c cs = 0)
    (h : Token.first c cs = (t, (c :: cs).length)) :
    scan (c :: cs) = [⟨t, ⟨0, (c :: cs).length⟩, .first⟩] := by
  have hfirst : Token.first c (cs ++ []) = (t, cs.length + 1) := by rwa [List.append_nil]
  have hpart := scanAt_token_part (by rwa [List.append_nil]) hfirst .start
  rw [List.append_nil] at hpart
  refine hpart.trans ?_
  rw [Position.after, Position.start, Nat.zero_add]
  rfl

/-- What is read from the print of a string. It is one token that spans the print and holds the
string exactly if no character of the string has more than four hexadecimal digits. -/
theorem scan_printedString (s : String) :
    scan (printedString s).toList =
        [⟨.string s, ⟨0, (printedString s).toList.length⟩, .first⟩] ↔
      ∀ c ∈ s.toList, c.toNat ≤ 0xFFFF := by
  have hprint : (printedString s).toList = '"' :: (s.toList.flatMap escapedChar ++ ['"']) := by
    rw [printedString, String.toList_ofList]
    rfl
  rw [hprint]
  constructor
  · intro h
    obtain ⟨stop, rest, hscan⟩ := scan_quote (s.toList.flatMap escapedChar ++ ['"'])
    rw [h] at hscan
    have htoken := congrArg Lexeme.token (List.cons.inj hscan).1
    rw [Token.afterQuote_quoted (printed_ne_quotes s.toList)] at htoken
    cases hread : QuotedText.read (s.toList.flatMap escapedChar ++ ['"']) with
    | none => simp [hread] at htoken
    | some r =>
      obtain ⟨t, n⟩ := r
      simp only [hread, Token.string.injEq] at htoken
      rw [htoken, String.toList_ofList] at hread ⊢
      exact QuotedText.read_printed_self hread
  · intro hs
    refine scan_whole rfl ?_
    have hquote := afterQuote_escaped hs (r := []) (by simp [Delimited])
    rw [String.ofList_toList] at hquote
    rw [List.length_cons, List.length_append]
    exact hquote

/-- The print of a character with five digits is read as two characters. -/
theorem scan_printedString_fiveDigits :
    scan (printedString "😀").toList ≠
      [⟨.string "😀", ⟨0, (printedString "😀").toList.length⟩, .first⟩] := by
  decide

end Lexeme
end GraphQLCheck
