import GraphQLCheck.Proofs.Token.Scanning

/-!
Strings between single double quotes. Scanning takes such a string in up to two pieces, of which
only the second is decoded. That comes to the same as decoding it character by character, as
`QuotedText.read` does (`QuotedText.take_eq`). What is read that way are the items that a string is
made of, up to the first quote that is no part of an item (`Lexeme.scanAt_quoted`).
-/
namespace GraphQLCheck

namespace QuotedText

/-- The digits that a number below sixteen is written with, in either case. -/
def HexDigit (n : Nat) (c : Char) : Prop := n < 16 ∧ (c = n.digitChar ∨ c = n.digitChar.toUpper)

/-- The characters that may stand behind a backslash, with what they stand for. -/
def escapes : List (Char × Char) :=
  [('"', '"'), ('\\', '\\'), ('/', '/'), ('b', '\x08'), ('f', '\x0c'), ('n', '\n'), ('r', '\r'),
    ('t', '\t')]

/-- An item of a string and the character that it stands for. Four digits that name a surrogate
name no character. -/
inductive Item : List Char → Char → Prop
  | plain {c : Char} : c ≠ '"' → c ≠ '\\' → c ≠ '\r' → c ≠ '\n' → Item [c] c
  | escape {e x : Char} : (e, x) ∈ escapes → Item ['\\', e] x
  | codePoint {a b c d x : Char} {i j k l : Nat} : HexDigit i a → HexDigit j b → HexDigit k c →
    HexDigit l d → x.toNat = ((i * 16 + j) * 16 + k) * 16 + l → Item ['\\', 'u', a, b, c, d] x

inductive Items : List Char → List Char → Prop
  | nil : Items [] []
  | cons {item spelled text : List Char} {x : Char} : Item item x → Items spelled text →
    Items (item ++ spelled) (x :: text)

theorem shortEscape_eq_some {e x : Char} : shortEscape e = some x ↔ (e, x) ∈ escapes := by
  constructor
  · intro h
    unfold shortEscape at h
    split at h
    all_goals first
      | (obtain rfl := Option.some.inj h; decide)
      | simp at h
  · intro h
    revert h
    simp only [escapes, List.mem_cons, Prod.mk.injEq, List.not_mem_nil, or_false]
    rintro (⟨rfl, rfl⟩ | ⟨rfl, rfl⟩ | ⟨rfl, rfl⟩ | ⟨rfl, rfl⟩ | ⟨rfl, rfl⟩ | ⟨rfl, rfl⟩ |
      ⟨rfl, rfl⟩ | ⟨rfl, rfl⟩) <;> rfl

instance (n : Nat) (c : Char) : Decidable (HexDigit n c) := inferInstanceAs (Decidable (_ ∧ _))

theorem toNat_lt_of_hexValue {c : Char} {n : Nat} (h : hexValue c = some n) : c.toNat < 128 := by
  have hle : ∀ d : Char, d.toNat < 128 → c ≤ d → c.toNat < 128 :=
    fun d hd hc => Nat.lt_of_le_of_lt (UInt32.le_iff_toNat_le.1 hc) hd
  unfold hexValue at h
  split at h
  · rename_i hdigit
    exact hle '9' (by decide) (Char.le_def.2 (of_decide_eq_true (Bool.and_eq_true_iff.1 hdigit).2))
  · split at h
    · rename_i hlower
      exact hle 'f' (by decide) hlower.2
    · split at h
      · rename_i hupper
        exact hle 'F' (by decide) hupper.2
      · simp at h

theorem hexValue_ascii : ∀ m < 128, ∀ n ∈ hexValue (Char.ofNat m), HexDigit n (Char.ofNat m) := by
  decide +kernel

theorem hexValue_digit : ∀ n < 16,
    hexValue n.digitChar = some n ∧ hexValue n.digitChar.toUpper = some n := by
  decide

theorem hexValue_eq_some {c : Char} {n : Nat} : hexValue c = some n ↔ HexDigit n c := by
  constructor
  · intro h
    have hdigit := hexValue_ascii c.toNat (toNat_lt_of_hexValue h) n
    rw [Char.ofNat_toNat] at hdigit
    exact hdigit h
  · rintro ⟨hn, rfl | rfl⟩
    · exact (hexValue_digit n hn).1
    · exact (hexValue_digit n hn).2

theorem codePoint_eq_some {a b c d x : Char} :
    QuotedText.codePoint a b c d = some x ↔ ∃ i j k l, HexDigit i a ∧ HexDigit j b ∧ HexDigit k c ∧
      HexDigit l d ∧ x.toNat = ((i * 16 + j) * 16 + k) * 16 + l := by
  simp only [QuotedText.codePoint, Option.bind_eq_bind, Option.bind_eq_some_iff, hexValue_eq_some]
  constructor
  · rintro ⟨i, hi, j, hj, k, hk, l, hl, h⟩
    refine ⟨i, j, k, l, hi, hj, hk, hl, ?_⟩
    split at h
    · rename_i hscalar
      obtain rfl := Option.some.inj h
      have := hi.1
      have := hj.1
      have := hk.1
      have := hl.1
      have hvalid : (((i * 16 + j) * 16 + k) * 16 + l).isValidChar := by
        unfold Nat.isValidChar
        omega
      rw [Char.ofNat, dif_pos hvalid]
      rfl
    · simp at h
  · rintro ⟨i, j, k, l, hi, hj, hk, hl, hx⟩
    refine ⟨i, hi, j, hj, k, hk, l, hl, ?_⟩
    have hvalid : x.toNat.isValidChar := x.valid
    rw [← hx, Char.ofNat_toNat, if_pos]
    rcases hvalid with h | h <;> omega

def read : List Char → Option (List Char × Nat)
  | [] => none
  | '"' :: _ => some ([], 1)
  | '\\' :: 'u' :: a :: b :: c :: d :: rest => do
    let x ← codePoint a b c d
    let (text, size) ← read rest
    pure (x :: text, size + 6)
  | '\\' :: e :: rest => do
    let x ← shortEscape e
    let (text, size) ← read rest
    pure (x :: text, size + 2)
  | c :: rest =>
    if c = '\\' ∨ c = '\n' ∨ c = '\r' then none
    else do
      let (text, size) ← read rest
      pure (c :: text, size + 1)

/-- How much text is set aside when the string does not close: the part before the first
backslash, or nothing when the line ends first. -/
def unreadable (text : List Char) : Nat :=
  let plain := text.takeWhile fun c => c ≠ '\\' ∧ c ≠ '\n' ∧ c ≠ '\r'
  if (text.drop plain.length).head? = some '\\' then plain.length else 0

theorem read_quote (rest : List Char) : read ('"' :: rest) = some ([], 1) := rfl

/-- An item is read as the character that it stands for, whatever is behind it. -/
theorem read_item {item : List Char} {x : Char} (h : Item item x) (rest : List Char) :
    read (item ++ rest) = (read rest).map fun y => (x :: y.1, y.2 + item.length) := by
  cases h with
  | plain hquote hbackslash hreturn hfeed =>
    rw [List.singleton_append, read]
    · rw [if_neg (by simp [hbackslash, hfeed, hreturn])]
      cases read rest <;> rfl
    · exact hquote
    · exact fun _ _ _ _ _ h => absurd h hbackslash
    · exact fun _ _ h => absurd h hbackslash
  | @escape e x hescape =>
    rw [List.cons_append, List.singleton_append, read]
    · rw [shortEscape_eq_some.2 hescape]
      cases read rest <;> rfl
    · rintro a b c d ds rfl
      simp [escapes] at hescape
  | codePoint ha hb hc hd hx =>
    simp only [List.cons_append, List.nil_append]
    rw [read, codePoint_eq_some.2 ⟨_, _, _, _, ha, hb, hc, hd, hx⟩]
    cases read rest <;> rfl

theorem read_items {spelled text : List Char} (h : Items spelled text) (rest : List Char) :
    read (spelled ++ rest) = (read rest).map fun y => (text ++ y.1, y.2 + spelled.length) := by
  induction h with
  | nil => simp
  | cons hitem _ ih =>
    rw [List.append_assoc, read_item hitem, ih, Option.map_map, List.length_append]
    congr 1
    funext y
    simp only [Function.comp_apply, List.cons_append, Prod.mk.injEq, true_and]
    omega

theorem read_closed {spelled text : List Char} (h : Items spelled text) (rest : List Char) :
    read (spelled ++ '"' :: rest) = some (text, spelled.length + 1) := by
  rw [read_items h, read_quote, Option.map_some, List.append_nil, Nat.add_comm]

theorem items_of_read {cs text : List Char} {n : Nat} (h : read cs = some (text, n)) :
    ∃ spelled rest, Items spelled text ∧ cs = spelled ++ '"' :: rest ∧ n = spelled.length + 1 := by
  fun_induction read cs generalizing text n with
  | case1 => simp at h
  | case2 rest =>
    obtain ⟨rfl, rfl⟩ := Prod.mk.inj (Option.some.inj h)
    exact ⟨[], rest, .nil, rfl, rfl⟩
  | case3 a b c d rest ih =>
    obtain ⟨x, hx, h⟩ := Option.bind_eq_some_iff.1 h
    obtain ⟨⟨text, size⟩, hread, heq⟩ := Option.bind_eq_some_iff.1 h
    obtain ⟨rfl, rfl⟩ := Prod.mk.inj (Option.some.inj heq)
    obtain ⟨spelled, tail, hitems, rfl, rfl⟩ := ih hread
    obtain ⟨_, _, _, _, ha, hb, hc, hd, hcode⟩ := codePoint_eq_some.1 hx
    exact ⟨_, tail, .cons (.codePoint ha hb hc hd hcode) hitems, rfl, rfl⟩
  | case4 e rest _ ih =>
    obtain ⟨x, hx, h⟩ := Option.bind_eq_some_iff.1 h
    obtain ⟨⟨text, size⟩, hread, heq⟩ := Option.bind_eq_some_iff.1 h
    obtain ⟨rfl, rfl⟩ := Prod.mk.inj (Option.some.inj heq)
    obtain ⟨spelled, tail, hitems, rfl, rfl⟩ := ih hread
    exact ⟨_, tail, .cons (.escape (shortEscape_eq_some.1 hx)) hitems, rfl, rfl⟩
  | case5 => simp at h
  | case6 c rest hquote _ _ hplain ih =>
    obtain ⟨⟨text, size⟩, hread, heq⟩ := Option.bind_eq_some_iff.1 h
    obtain ⟨rfl, rfl⟩ := Prod.mk.inj (Option.some.inj heq)
    obtain ⟨spelled, tail, hitems, rfl, rfl⟩ := ih hread
    rw [not_or, not_or] at hplain
    exact ⟨_, tail, .cons (.plain hquote hplain.1 hplain.2.2 hplain.2.1) hitems, rfl, rfl⟩

theorem isPlain_iff {c : Char} : isPlain c = true ↔ c ∉ ['"', '\\', '\n', '\r'] := by
  simp [isPlain, and_assoc]

theorem items_plain {cs : List Char} (h : ∀ c ∈ cs, c ∉ ['"', '\\', '\n', '\r']) : Items cs cs := by
  induction cs with
  | nil => exact .nil
  | cons c cs ih =>
    obtain ⟨hc, hcs⟩ := List.forall_mem_cons.1 h
    simp only [List.mem_cons, List.not_mem_nil, or_false, not_or] at hc
    exact .cons (.plain hc.1 hc.2.1 hc.2.2.2 hc.2.2.1) (ih hcs)

theorem items_takeWhile (cs : List Char) : Items (cs.takeWhile isPlain) (cs.takeWhile isPlain) :=
  items_plain fun c hc => isPlain_iff.1 (List.all_eq_true.1 List.all_takeWhile c hc)

theorem items_of_part? {cs : List Char} {r : List Char × Nat} (h : part? cs = some r) :
    ∃ spelled rest, Items spelled r.1 ∧ cs = spelled ++ rest ∧ r.2 = spelled.length ∧ 0 < r.2 := by
  revert h
  fun_cases part? cs with
  | case1 a b c d rest =>
    intro h
    obtain ⟨x, hx, rfl⟩ := Option.map_eq_some_iff.1 h
    obtain ⟨_, _, _, _, ha, hb, hc, hd, hcode⟩ := codePoint_eq_some.1 hx
    exact ⟨_, rest, .cons (.codePoint ha hb hc hd hcode) .nil, rfl, rfl, Nat.zero_lt_succ 5⟩
  | case2 e rest _ =>
    intro h
    obtain ⟨x, hx, rfl⟩ := Option.map_eq_some_iff.1 h
    exact ⟨_, rest, .cons (.escape (shortEscape_eq_some.1 hx)) .nil, rfl, rfl, Nat.two_pos⟩
  | case3 => simp
  | case4 cs _ _ run hrun =>
    intro h
    obtain rfl := Option.some.inj h
    exact ⟨run, cs.dropWhile isPlain, items_takeWhile cs,
      List.takeWhile_append_dropWhile.symm, rfl, List.length_pos_iff.2 (mt List.isEmpty_iff.2 hrun)⟩

theorem read_eq_none {cs : List Char} (hquote : cs.head? ≠ some '"') (h : part? cs = none) :
    read cs = none := by
  revert h
  fun_cases part? cs with
  | case1 a b c d rest =>
    intro h
    rw [read, Option.map_eq_none_iff.1 h]
    rfl
  | case2 e rest hshort =>
    intro h
    rw [read]
    · rw [Option.map_eq_none_iff.1 h]
      rfl
    · exact hshort
  | case3 cs hcode hshort run hrun =>
    intro _
    cases cs with
    | nil => rfl
    | cons c rest =>
      have hplain : isPlain c = false := by
        cases hc : isPlain c with
        | false => rfl
        | true => simp [run, hc] at hrun
      have hc : c = '\\' ∨ c = '\n' ∨ c = '\r' := by
        simp [isPlain] at hplain hquote
        grind
      rw [read]
      · rw [if_pos hc]
      · simpa using hquote
      · rintro a b c d ds rfl rfl
        exact hcode a b c d ds rfl
      · rintro e ds rfl rfl
        exact hshort e ds rfl
  | case4 => simp

theorem read_part? {cs : List Char} (hquote : cs.head? ≠ some '"') :
    read cs = (part? cs).bind fun x =>
      (read (cs.drop x.2)).map fun y => (x.1 ++ y.1, y.2 + x.2) := by
  cases hpart : part? cs with
  | none => exact read_eq_none hquote hpart
  | some r =>
    obtain ⟨spelled, rest, hitems, rfl, hsize, -⟩ := items_of_part? hpart
    rw [Option.bind_some, hsize, List.drop_left]
    exact read_items hitems rest

theorem decodeWithin_eq {n : Nat} {cs : List Char} (hn : cs.length ≤ n) (before : List Char) :
    decodeWithin n before cs = (read cs).map fun y => (before ++ y.1, y.2) := by
  induction n generalizing cs before with
  | zero =>
    obtain rfl := List.length_eq_zero_iff.1 (Nat.le_zero.1 hn)
    rfl
  | succ n ih =>
    by_cases hquote : cs.head? = some '"'
    · obtain ⟨rest, rfl⟩ := List.head?_eq_some_iff.1 hquote
      rw [decodeWithin, read_quote, Option.map_some, List.append_nil]
    · rw [decodeWithin, read_part? hquote]
      · cases hpart : part? cs with
        | none => rfl
        | some r =>
          obtain ⟨_, _, _, _, _, hpos⟩ := items_of_part? hpart
          have hrest : (cs.drop r.2).length ≤ n := by
            rw [List.length_drop]
            omega
          simp only [Option.bind_eq_bind, Option.bind_some, ih hrest, List.append_assoc]
          cases read (cs.drop r.2) <;> rfl
      · rintro tail rfl
        exact hquote rfl

theorem decode_eq (before cs : List Char) :
    decode before cs = (read cs).map fun y => (before ++ y.1, y.2) :=
  decodeWithin_eq (Nat.le_refl _) before

theorem read_break {cs : List Char} (h : ∀ c ∈ cs.head?, c = '\n' ∨ c = '\r') : read cs = none := by
  cases cs with
  | nil => rfl
  | cons c rest => obtain rfl | rfl := h c rfl <;> rfl

theorem unreadable_append {plain rest : List Char} (hplain : ∀ c ∈ plain, isPlain c = true)
    (hrest : ∀ c ∈ rest.head?, c = '\\' ∨ c = '\n' ∨ c = '\r') :
    unreadable (plain ++ rest) = if rest.head? = some '\\' then plain.length else 0 := by
  have hrun : (plain ++ rest).takeWhile (fun c => c ≠ '\\' ∧ c ≠ '\n' ∧ c ≠ '\r') = plain := by
    rw [List.takeWhile_append_of_pos]
    · cases rest with
      | nil => simp
      | cons c rest =>
        obtain rfl | rfl | rfl := hrest c rfl <;> simp
    · intro c hc
      have h := isPlain_iff.1 (hplain c hc)
      simp_all
  simp only [unreadable, hrun, List.drop_left]

theorem take_append {plain rest : List Char} (hplain : ∀ c ∈ plain, isPlain c = true)
    (hrest : ∀ c ∈ rest.head?, isPlain c = false) :
    take (plain ++ rest) =
      match read (plain ++ rest) with
      | some (text, size) => (some text, size)
      | none => (none, unreadable (plain ++ rest)) := by
  have hrun : (plain ++ rest).takeWhile isPlain = plain := by
    rw [List.takeWhile_append_of_pos hplain]
    cases rest with
    | nil => simp
    | cons c rest => simp [hrest c rfl]
  have hdrop : (plain ++ rest).dropWhile isPlain = rest := by
    rw [List.dropWhile_append_of_pos hplain]
    cases rest with
    | nil => rfl
    | cons c rest => simp [hrest c rfl]
  have hitems := items_plain fun c hc => isPlain_iff.1 (hplain c hc)
  rw [take, hrun, hdrop, read_items hitems]
  split
  · simp [read_quote, Nat.add_comm]
  · rename_i rest
    rw [decode_eq]
    cases hread : read ('\\' :: rest) with
    | none =>
      have hset : unreadable (plain ++ '\\' :: rest) = plain.length :=
        (unreadable_append hplain (by simp)).trans (if_pos rfl)
      simp [hset]
    | some r => simp [Nat.add_comm]
  · rename_i hquote hbackslash
    have hstops : ∀ c ∈ rest.head?, c = '\n' ∨ c = '\r' := by
      intro c hc
      obtain ⟨rest, rfl⟩ := List.head?_eq_some_iff.1 hc
      have h := hrest c rfl
      simp [isPlain] at h hquote hbackslash
      grind
    have hlone : rest.head? ≠ some '\\' := fun h => absurd (hstops _ h) (by decide)
    rw [unreadable_append hplain fun c hc => .inr (hstops c hc), if_neg hlone, read_break hstops]
    rfl

theorem take_eq (cs : List Char) :
    take cs =
      match read cs with
      | some (text, size) => (some text, size)
      | none => (none, unreadable cs) := by
  have hplain : ∀ c ∈ cs.takeWhile isPlain, isPlain c = true :=
    List.all_eq_true.1 List.all_takeWhile
  have hrest : ∀ c ∈ (cs.dropWhile isPlain).head?, isPlain c = false := by
    intro c hc
    have h := List.head?_dropWhile_not isPlain cs
    rw [Option.mem_def] at hc
    simpa [hc] using h
  have htake := take_append hplain hrest
  rwa [List.takeWhile_append_dropWhile] at htake

end QuotedText

theorem Token.afterQuote_quoted {cs : List Char} (h : ∀ tail, cs ≠ '"' :: '"' :: tail) :
    afterQuote cs =
      match QuotedText.read cs with
      | some (text, size) => (string (String.ofList text), size + 1)
      | none => (invalid, QuotedText.unreadable cs + 1) := by
  unfold afterQuote
  split
  · exact absurd rfl (h _)
  · rw [QuotedText.take_eq]
    cases QuotedText.read cs <;> rfl

namespace Lexeme

open QuotedText

theorem ignored_quote (cs : List Char) : ignored '"' cs = 0 := rfl

/-- The token at a quote that opens no block string. It is a string exactly if what stands behind
the quote are items and then a quote; it ends there, and it holds what the items stand for. In all
other cases it is invalid. -/
theorem scanAt_quoted (before cs : List Char) (hquote : ¬ ['"', '"'] <+: cs) :
    ∃ l ls, scanAt (Position.start.after before) ('"' :: cs) = l :: ls ∧
      l.span.start = before.length ∧
      ((∃ v, l.token = .string v) ↔
        ∃ spelled text rest, Items spelled text ∧ cs = spelled ++ '"' :: rest) ∧
      (∀ spelled text rest, Items spelled text → cs = spelled ++ '"' :: rest →
        l.token = .string (String.ofList text) ∧
        l.span.stop = before.length + ('"' :: spelled ++ ['"']).length ∧
        ls = scanAt (Position.start.after (before ++ ('"' :: spelled ++ ['"']))) rest) ∧
      ((∀ v, l.token ≠ .string v) → l.token = .invalid) := by
  have hlone : ∀ tail, cs ≠ '"' :: '"' :: tail := by
    rintro tail rfl
    exact hquote ⟨tail, rfl⟩
  have hfirst : Token.first '"' cs = Token.afterQuote cs := rfl
  have hscan := scanAt_token (ignored_quote cs) (Position.start.after before)
  refine ⟨_, _, hscan, ?_, ?_, ?_, ?_⟩
  · simp [Position.after, Position.start]
  · rw [hfirst, Token.afterQuote_quoted hlone]
    constructor
    · rintro ⟨v, hv⟩
      cases hread : read cs with
      | none => simp [hread] at hv
      | some r =>
        obtain ⟨spelled, rest, hitems, hcs, -⟩ := items_of_read hread
        exact ⟨spelled, r.1, rest, hitems, hcs⟩
    · rintro ⟨spelled, text, rest, hitems, rfl⟩
      simp [read_closed hitems]
  · rintro spelled text rest hitems rfl
    rw [hfirst, Token.afterQuote_quoted hlone, read_closed hitems]
    have htext : '"' :: (spelled ++ '"' :: rest) = ('"' :: spelled ++ ['"']) ++ rest := by simp
    have hsize : spelled.length + 1 + 1 = ('"' :: spelled ++ ['"']).length := by simp
    dsimp only
    rw [htext, hsize, List.take_left, List.drop_left]
    refine ⟨rfl, ?_, ?_⟩
    · simp [Position.after, Position.start]
    · rw [← Position.after_append]
  · rw [hfirst, Token.afterQuote_quoted hlone]
    cases read cs with
    | none => exact fun _ => rfl
    | some r => exact fun h => absurd rfl (h _)

/-- A string of three items, of which the first two are escapes, behind a character. -/
theorem scanAt_quoted_escapes :
    ¬ ['"', '"'] <+: "\\u00e9\\\"b\"".toList ∧
    ∃ l ls, scanAt (Position.start.after ['é']) ('"' :: "\\u00e9\\\"b\"".toList) = l :: ls ∧
      l.span.start = 1 ∧ l.token = .string "é\"b" ∧ l.span.stop = 12 := by
  have hquote : ¬ ['"', '"'] <+: "\\u00e9\\\"b\"".toList := by decide
  obtain ⟨l, ls, hscan, hstart, -, hstring, -⟩ := scanAt_quoted ['é'] _ hquote
  have hfirst : Item ['\\', 'u', '0', '0', 'e', '9'] 'é' :=
    .codePoint (i := 0) (j := 0) (k := 14) (l := 9) (by decide) (by decide) (by decide) (by decide)
      rfl
  have hsecond : Item ['\\', '"'] '"' := .escape (by decide)
  have hthird : Item ['b'] 'b' := .plain (by decide) (by decide) (by decide) (by decide)
  have hitems : Items "\\u00e9\\\"b".toList ['é', '"', 'b'] :=
    .cons hfirst (.cons hsecond (.cons hthird .nil))
  obtain ⟨htoken, hstop, -⟩ := hstring _ _ [] hitems rfl
  exact ⟨hquote, l, ls, hscan, hstart, htoken, hstop⟩

end Lexeme
end GraphQLCheck
