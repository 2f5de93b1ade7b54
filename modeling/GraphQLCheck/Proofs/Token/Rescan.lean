import GraphQLCheck.Document.Printer
import GraphQLCheck.Proofs.Token.Reading
import GraphQLCheck.Proofs.Token.QuotedText
import GraphQLCheck.Proofs.Token.Spelling

/-!
Scanning texts that spell tokens. A name or a number that is followed by punctuation, and a string
as it is printed, are scanned to the token that they spell, and scanning goes on behind them.
-/
namespace GraphQLCheck

/-- Scanning takes the text for the token where the text `r` follows it. -/
def ScansTo (t : Token) (text r : List Char) : Prop :=
  ∀ p, ∃ (q : Place) (p' : Position),
    Lexeme.scanAt p (text ++ r) = q.lexeme t :: Lexeme.scanAt p' r

def OneLine (cs : List Char) : Prop := ∀ c ∈ cs, c ≠ '\n' ∧ c ≠ '\r'

theorem oneLine_append {cs ds : List Char} : OneLine (cs ++ ds) ↔ OneLine cs ∧ OneLine ds :=
  List.forall_mem_append

theorem oneLine_cons {c : Char} {cs : List Char} :
    OneLine (c :: cs) ↔ (c ≠ '\n' ∧ c ≠ '\r') ∧ OneLine cs :=
  List.forall_mem_cons

theorem oneLine_of_forall {p : Char → Bool} (hp : p '\n' = false ∧ p '\r' = false)
    {cs : List Char} (h : ∀ c ∈ cs, p c = true) : OneLine cs := by
  intro c hc
  constructor
  · rintro rfl
    exact absurd (h _ hc) (by simp [hp.1])
  · rintro rfl
    exact absurd (h _ hc) (by simp [hp.2])

theorem IsName.oneLine {n : List Char} (hn : IsName n) : OneLine n := by
  cases n with
  | nil => exact hn.elim
  | cons c cs =>
    obtain ⟨hc, hcs⟩ := hn
    have hfirst : OneLine [c] :=
      oneLine_of_forall (p := isNameStart) (by decide) (by simpa using hc)
    exact oneLine_append.2 ⟨hfirst, oneLine_of_forall (by decide) hcs⟩

namespace Numeral

theorem IsNatural.oneLine {n : List Char} (hn : IsNatural n) : OneLine n := by
  refine oneLine_of_forall (p := Char.isDigit) (by decide) ?_
  cases n with
  | nil => exact hn.elim
  | cons c cs =>
    obtain ⟨rfl, rfl⟩ | ⟨-, hc, hcs⟩ := hn
    · simp
    · exact List.forall_mem_cons.2 ⟨hc, hcs⟩

theorem IsWhole.oneLine {w : List Char} (hw : IsWhole w) : OneLine w := by
  obtain hw | ⟨n, rfl, hn⟩ := hw
  · exact hw.oneLine
  · exact oneLine_cons.2 ⟨by decide, hn.oneLine⟩

theorem IsDigits.oneLine {ds : List Char} (hds : IsDigits ds) : OneLine ds :=
  oneLine_of_forall (by decide) hds.2

theorem IsFraction.oneLine {f : List Char} (hf : IsFraction f) : OneLine f := by
  obtain rfl | ⟨ds, rfl, hds⟩ := hf
  · simp [OneLine]
  · exact oneLine_cons.2 ⟨by decide, hds.oneLine⟩

theorem IsExponent.oneLine {e : List Char} (he : IsExponent e) : OneLine e := by
  obtain rfl | ⟨c, s, ds, rfl, hc, hs, hds⟩ := he
  · simp [OneLine]
  · refine oneLine_cons.2 ⟨?_, oneLine_append.2 ⟨?_, hds.oneLine⟩⟩
    · obtain rfl | rfl := hc <;> decide
    · obtain rfl | rfl | rfl := hs <;> simp [OneLine]

end Numeral

/-- What stands behind values and names in a printed value. -/
def Delimited (r : List Char) : Prop :=
  ∀ c ∈ r.head?, c = ',' ∨ c = ':' ∨ c = ']' ∨ c = '\x7d'

theorem Delimited.endsRun {p : Char → Bool} {r : List Char} (hr : Delimited r)
    (hp : p ',' = false ∧ p ':' = false ∧ p ']' = false ∧ p '\x7d' = false) : EndsRun p r := by
  intro c hc
  obtain rfl | rfl | rfl | rfl := hr c hc
  · exact hp.1
  · exact hp.2.1
  · exact hp.2.2.1
  · exact hp.2.2.2

theorem scansTo_first {t : Token} {c : Char} {cs r : List Char} (hc : ignored c (cs ++ r) = 0)
    (h : Token.first c (cs ++ r) = (t, (c :: cs).length)) : ScansTo t (c :: cs) r := by
  intro p
  have hdrop : (c :: (cs ++ r)).drop (c :: cs).length = r := by
    rw [← List.cons_append, List.drop_left]
  rw [List.cons_append, Lexeme.scanAt_token hc, h]
  dsimp only
  rw [hdrop]
  exact ⟨⟨_, _⟩, _, rfl⟩

def special : List Char :=
  ['[', ']', '\x7b', '\x7d', '(', ')', ':', '=', '!', '&', '|', '.', '$', '@', '"', ' ', ',',
    '\t', '\n', '\r', '\x0c', '\uFEFF', '#']

theorem not_mem_special {p : Char → Bool} (hp : special.any p = false) {c : Char}
    (hc : p c = true) : c ∉ special := fun h => List.any_eq_false.mp hp c h hc

theorem ignored_eq_zero {c : Char} (hc : c ∉ special) (cs : List Char) : ignored c cs = 0 := by
  simp only [special, List.mem_cons, List.not_mem_nil, or_false, not_or] at hc
  simp [ignored, isSeparator, hc]

theorem first_ordinary {c : Char} (hc : c ∉ special) (cs : List Char) :
    Token.first c cs =
      match name? (c :: cs) with
      | some n => (.name (String.ofList n), n.length)
      | none => (Token.number? (c :: cs)).getD (.invalid, 1) := by
  unfold Token.first
  split
  all_goals first
    | exact absurd (by decide) hc
    | rfl

theorem scansTo_wholeName {n r : List Char} (hn : IsName n) (hr : EndsRun isNameChar r) :
    ScansTo (.name (String.ofList n)) n r := by
  cases n with
  | nil => exact hn.elim
  | cons c cs =>
    have hc := not_mem_special (p := isNameStart) rfl hn.1
    refine scansTo_first (ignored_eq_zero hc _) ?_
    rw [first_ordinary hc, ← List.cons_append, name?_append hn hr]

theorem scansTo_name {n r : List Char} (hn : IsName n) (hr : Delimited r) :
    ScansTo (.name (String.ofList n)) n r :=
  scansTo_wholeName hn (hr.endsRun (by decide))

theorem scansTo_variable {n r : List Char} (hn : IsName n) (hr : Delimited r) :
    ScansTo (.variableName (String.ofList n)) ('$' :: n) r := by
  refine scansTo_first rfl ?_
  show Token.sigil .variableName (n ++ r) = _
  rw [Token.sigil, name?_append hn (hr.endsRun (by decide))]
  rfl

theorem isNameStart_of_number {c : Char} (hc : (c.isDigit || c = '-') = true) :
    isNameStart c = false := by
  simp only [Bool.or_eq_true, decide_eq_true_eq] at hc
  obtain hc | rfl := hc
  · simp only [Char.isDigit, Bool.and_eq_true, decide_eq_true_eq] at hc
    have hne : c ≠ '_' := by
      rintro rfl
      exact absurd hc (by decide)
    have hletter : c.isAlpha = (decide (c.val ≥ 'A'.val ∧ c.val ≤ 'Z'.val) ||
        decide (c.val ≥ 'a'.val) && decide (c.val ≤ 'z'.val)) := rfl
    simp only [isNameStart, hletter]
    grind
  · rfl

theorem scansTo_numeral {w f e r : List Char} (hw : Numeral.IsWhole w)
    (hf : Numeral.IsFraction f) (he : Numeral.IsExponent e) (hr : Delimited r) :
    ScansTo (Numeral.token w f e) (w ++ f ++ e) r := by
  obtain ⟨c, cs, rfl, hc⟩ : ∃ c cs, w = c :: cs ∧ (c.isDigit || c = '-') = true := by
    obtain hw | ⟨n, rfl, -⟩ := hw
    · obtain ⟨c, cs, rfl, hdigit⟩ := hw.head
      exact ⟨c, cs, rfl, by rw [hdigit, Bool.true_or]⟩
    · exact ⟨'-', n, rfl, rfl⟩
  have hspecial := not_mem_special (p := fun c => c.isDigit || c = '-') rfl hc
  have hname : name? (c :: (cs ++ f ++ e ++ r)) = none := by
    rw [name?, isNameStart_of_number hc]
    rfl
  have hnumber := Numeral.number?_append hw hf he (hr.endsRun (by decide))
  simp only [List.cons_append] at hnumber ⊢
  refine scansTo_first (ignored_eq_zero hspecial _) ?_
  rw [first_ordinary hspecial, hname, hnumber]
  rfl

theorem upperHex_control :
    ∀ n < 0x20, upperHex n =
      ['0', '0', Nat.digitChar (n / 16), (Nat.digitChar (n % 16)).toUpper] := by
  decide

theorem item_escapedChar {c : Char} (hc : c.toNat ≤ 0xFFFF) :
    QuotedText.Item (escapedChar c) c := by
  unfold escapedChar
  -- five characters have an escape of their own
  iterate 5
    split
    · subst_vars
      exact .escape (by decide)
  split
  · exact .plain ‹_› ‹_› ‹_› ‹_›
  · have hcontrol : c.toNat < 0x20 := by omega
    rw [upperHex_control _ hcontrol]
    exact .codePoint (i := 0) (j := 0) ⟨by decide, .inl rfl⟩ ⟨by decide, .inl rfl⟩
      ⟨by omega, .inl rfl⟩ ⟨by omega, .inr rfl⟩ (by omega)

theorem read_escapedChar {c : Char} (hc : c.toNat ≤ 0xFFFF) (rest : List Char) :
    QuotedText.read (escapedChar c ++ rest) =
      (QuotedText.read rest).map fun y => (c :: y.1, y.2 + (escapedChar c).length) :=
  QuotedText.read_item (item_escapedChar hc) rest

theorem items_escaped {s : List Char} (hs : ∀ c ∈ s, c.toNat ≤ 0xFFFF) :
    QuotedText.Items (s.flatMap escapedChar) s := by
  induction s with
  | nil => exact .nil
  | cons c s ih =>
    obtain ⟨hc, hs⟩ := List.forall_mem_cons.1 hs
    exact .cons (item_escapedChar hc) (ih hs)

theorem QuotedText.HexDigit.ne_break {n : Nat} {c : Char} (h : HexDigit n c) :
    c ≠ '\n' ∧ c ≠ '\r' := by
  have hdigits : ∀ n < 16, (n.digitChar ≠ '\n' ∧ n.digitChar ≠ '\r') ∧
      n.digitChar.toUpper ≠ '\n' ∧ n.digitChar.toUpper ≠ '\r' := by
    decide
  obtain ⟨hn, rfl | rfl⟩ := h
  · exact (hdigits n hn).1
  · exact (hdigits n hn).2

theorem QuotedText.Item.oneLine {item : List Char} {x : Char} (h : Item item x) :
    OneLine item := by
  cases h with
  | plain _ _ hreturn hfeed => simpa [OneLine] using ⟨hfeed, hreturn⟩
  | @escape e x hescape =>
    have hbreak : ∀ p ∈ escapes, p.1 ≠ '\n' ∧ p.1 ≠ '\r' := by decide
    simpa [OneLine] using hbreak _ hescape
  | codePoint ha hb hc hd _ =>
    simp [OneLine, ha.ne_break, hb.ne_break, hc.ne_break, hd.ne_break]

theorem QuotedText.Item.head {item : List Char} {x : Char} (h : Item item x) :
    ∃ d ds, item = d :: ds ∧ d ≠ '"' := by
  cases h with
  | plain hquote => exact ⟨_, _, rfl, hquote⟩
  | escape | codePoint => exact ⟨_, _, rfl, by decide⟩

theorem afterQuote_escaped {s r : List Char} (hs : ∀ c ∈ s, c.toNat ≤ 0xFFFF)
    (hr : Delimited r) :
    Token.afterQuote (s.flatMap escapedChar ++ '"' :: r) =
      (.string (String.ofList s), (s.flatMap escapedChar).length + 2) := by
  rw [Token.afterQuote_quoted, QuotedText.read_closed (items_escaped hs)]
  intro cs heq
  cases s with
  | nil =>
    obtain ⟨-, rfl⟩ := List.cons.inj heq
    have hquote := hr '"' rfl
    exact absurd hquote (by decide)
  | cons c s =>
    obtain ⟨d, ds, hd, hne⟩ := (item_escapedChar (hs c List.mem_cons_self)).head
    rw [List.flatMap_cons, hd] at heq
    exact absurd (List.cons.inj heq).1 hne

theorem scansTo_string {s r : List Char} (hs : ∀ c ∈ s, c.toNat ≤ 0xFFFF) (hr : Delimited r) :
    ScansTo (.string (String.ofList s)) ('"' :: (s.flatMap escapedChar ++ ['"'])) r := by
  refine scansTo_first rfl ?_
  have hread := afterQuote_escaped hs hr
  rw [List.append_assoc, List.length_cons, List.length_append]
  exact hread

end GraphQLCheck
