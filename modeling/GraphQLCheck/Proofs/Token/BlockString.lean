import GraphQLCheck.Proofs.Token.Separation
import Mathlib.Data.List.DropRight

/-!
The value of a block string. `BlockString.value` gives it for the raw text between the quotes, as
the language defines it. What scanning holds for it is the same exactly if the text is regular
(`Lexeme.scan_blockString`): lines of spaces and tabs that are shorter than the indentation are
empty, and the lines at both ends are none of white space other than spaces and tabs.
-/
namespace GraphQLCheck

section
variable {α β : Type} {p q : α → Bool}

/-- What is left without the elements at both ends that have the property. -/
def trim (p : α → Bool) (xs : List α) : List α := (xs.dropWhile p).rdropWhile p

theorem dropWhile_congr {xs : List α} (h : ∀ x ∈ xs, p x = q x) :
    xs.dropWhile p = xs.dropWhile q := by
  induction xs with
  | nil => rfl
  | cons x xs ih =>
    obtain ⟨hx, hxs⟩ := List.forall_mem_cons.1 h
    rw [List.dropWhile_cons, List.dropWhile_cons, hx, ih hxs]

theorem trim_congr {xs : List α} (h : ∀ x ∈ xs, p x = q x) : trim p xs = trim q xs := by
  rw [trim, trim, dropWhile_congr h, List.rdropWhile, List.rdropWhile, dropWhile_congr]
  intro x hx
  exact h x ((List.dropWhile_sublist q).subset (List.mem_reverse.1 hx))

theorem trim_map (f : β → α) (xs : List β) : trim p (xs.map f) = (trim (p ∘ f) xs).map f := by
  rw [trim, trim, List.dropWhile_map, List.rdropWhile, List.rdropWhile, ← List.map_reverse,
    List.dropWhile_map, List.map_reverse]

theorem trim_sublist (p : α → Bool) (xs : List α) : (trim p xs).Sublist xs :=
  (List.rdropWhile_prefix p _).sublist.trans (List.dropWhile_sublist p)

theorem exists_trimmed (p : α → Bool) (xs : List α) :
    ∃ front back, xs = front ++ (trim p xs ++ back) ∧ (∀ x ∈ front, p x) ∧ ∀ x ∈ back, p x := by
  refine ⟨xs.takeWhile p, (xs.dropWhile p).rtakeWhile p, ?_, fun x => List.mem_takeWhile_imp,
    fun x => List.mem_rtakeWhile_imp⟩
  rw [trim, List.rdropWhile_append_rtakeWhile, List.takeWhile_append_dropWhile]

theorem rdropWhile_append_of_forall {xs ys : List α} (hys : ∀ y ∈ ys, p y) :
    (xs ++ ys).rdropWhile p = xs.rdropWhile p := by
  rw [List.rdropWhile, List.reverse_append, List.dropWhile_append_of_pos, List.rdropWhile]
  exact fun y hy => hys y (List.mem_reverse.1 hy)

theorem trim_append {front mid back : List α} (hfront : ∀ x ∈ front, p x)
    (hback : ∀ x ∈ back, p x) : trim p (front ++ (mid ++ back)) = trim p mid := by
  rw [trim, List.dropWhile_append_of_pos hfront, List.dropWhile_append, trim]
  split
  · have hmid : mid.dropWhile p = [] := List.isEmpty_iff.1 ‹_›
    rw [hmid, List.dropWhile_eq_nil_iff.2 hback]
  · exact rdropWhile_append_of_forall hback

theorem trim_trim (h : ∀ x, p x → q x) (xs : List α) : trim q (trim p xs) = trim q xs := by
  obtain ⟨front, back, hxs, hfront, hback⟩ := exists_trimmed p xs
  conv_rhs => rw [hxs]
  exact (trim_append (fun x hx => h x (hfront x hx)) (fun x hx => h x (hback x hx))).symm

theorem dropWhile_eq_self_iff_head? {xs : List α} :
    xs.dropWhile p = xs ↔ ∀ x ∈ xs.head?, p x = false := by
  rw [List.dropWhile_eq_self_iff]
  cases xs <;> simp

theorem rdropWhile_eq_self_iff_getLast? {xs : List α} :
    xs.rdropWhile p = xs ↔ ∀ x ∈ xs.getLast?, p x = false := by
  rw [List.rdropWhile_eq_self_iff]
  constructor
  · intro h x hx
    obtain ⟨hne, rfl⟩ := List.mem_getLast?_eq_getLast hx
    exact Bool.eq_false_iff.2 (h hne)
  · exact fun h hne => Bool.eq_false_iff.1 (h _ (List.getLast?_eq_some_getLast hne))

theorem trim_eq_self_iff {xs : List α} :
    trim p xs = xs ↔ (∀ x ∈ xs.head?, p x = false) ∧ ∀ x ∈ xs.getLast?, p x = false := by
  rw [← dropWhile_eq_self_iff_head?, ← rdropWhile_eq_self_iff_getLast?]
  constructor
  · intro h
    have hdrop : xs.dropWhile p = xs := by
      apply (List.dropWhile_sublist p).eq_of_length_le
      calc xs.length = (trim p xs).length := by rw [h]
        _ ≤ (xs.dropWhile p).length := (List.rdropWhile_prefix p _).length_le
    rw [trim, hdrop] at h
    exact ⟨hdrop, h⟩
  · rintro ⟨hdrop, hlast⟩
    rw [trim, hdrop, hlast]

end

namespace BlockString

open BlockText (isIndent)

def unescape : List Char → List Char
  | '\\' :: '"' :: '"' :: '"' :: rest => '"' :: '"' :: '"' :: unescape rest
  | c :: rest => c :: unescape rest
  | [] => []

/-- The lines of a text. A line ends with a line feed, a carriage return or both. -/
def lines : List Char → List (List Char)
  | [] => [[]]
  | '\r' :: '\n' :: rest => [] :: lines rest
  | c :: rest =>
    if c = '\n' ∨ c = '\r' then [] :: lines rest else (lines rest).modifyHead (c :: ·)

def isBlank (line : List Char) : Bool := line.all isIndent

def indentation (line : List Char) : Nat := (line.takeWhile isIndent).length

/-- The least indentation of the lines behind the first that are not blank. -/
def commonIndent (ls : List (List Char)) : Nat :=
  (((ls.drop 1).filter fun line => !isBlank line).map indentation).min?.getD 0

/-- The lines, each with how many characters are to be removed from it. -/
def cuts (ls : List (List Char)) : List (Nat × List Char) :=
  (ls.take 1).map (Prod.mk 0) ++ (ls.drop 1).map (Prod.mk (commonIndent ls))

/-- The value of a block string with the given text between its quotes. -/
def value (raw : List Char) : List Char :=
  joinLines (trim isBlank ((cuts (lines (unescape raw))).map fun x => x.2.drop x.1))

/-- The lines that make the value, each with how many characters are to be removed from it. -/
def kept (raw : List Char) : List (Nat × List Char) :=
  trim (fun x => isBlank x.2) (cuts (lines (unescape raw)))

/-- A line of the value from which more is to be removed than it has is empty. The lines at both
ends of the value are not of white space alone. -/
def Regular (raw : List Char) : Prop :=
  (∀ x ∈ kept raw, x.2.length < x.1 → x.2 = []) ∧
    (∀ x ∈ (kept raw).head?, Text.isBlankLine x.2 = false) ∧
    ∀ x ∈ (kept raw).getLast?, Text.isBlankLine x.2 = false

instance (raw : List Char) : Decidable (Regular raw) :=
  inferInstanceAs (Decidable (_ ∧ _ ∧ _))

theorem lines_cons {c : Char} (hc : c ≠ '\n' ∧ c ≠ '\r') (cs : List Char) :
    lines (c :: cs) = (lines cs).modifyHead (c :: ·) := by
  rw [lines, if_neg (not_or.2 hc)]
  exact fun _ h => absurd h hc.2

theorem lines_break {c : Char} (hc : c = '\n' ∨ c = '\r') {cs : List Char}
    (hcs : ∀ tail, c = '\r' → cs ≠ '\n' :: tail) : lines (c :: cs) = [] :: lines cs := by
  rw [lines, if_pos hc]
  exact hcs

theorem textLines_break (cs : List Char) : textLines ('\n' :: cs) = [] :: textLines cs :=
  Text.split_separator '\n' cs

theorem textLines_cons {c : Char} (hc : c ≠ '\n') (cs : List Char) :
    textLines (c :: cs) = (textLines cs).modifyHead (c :: ·) := by
  obtain ⟨line, ls, hls, hcons⟩ := Text.split_cons hc cs
  rw [textLines, textLines, hls, hcons]
  rfl

theorem unescape_cons {c : Char} {cs : List Char}
    (h : ∀ tail, c = '\\' → cs ≠ '"' :: '"' :: '"' :: tail) :
    unescape (c :: cs) = c :: unescape cs := by
  rw [unescape]
  exact h

theorem exists_of_unescape_eq {d : Char} (hd : d ≠ '"') {cs tail : List Char}
    (h : unescape cs = d :: tail) : ∃ rest, cs = d :: rest := by
  unfold unescape at h
  split at h
  · exact absurd (List.cons.inj h).1.symm hd
  · obtain ⟨rfl, -⟩ := List.cons.inj h
    exact ⟨_, rfl⟩
  · simp at h

theorem lines_of_read {cs text : List Char} {n : Nat} (h : BlockText.read cs = some (text, n)) :
    ∃ raw rest, cs = raw ++ '"' :: '"' :: '"' :: rest ∧ n = raw.length + 3 ∧
      textLines text = lines (unescape raw) := by
  fun_induction BlockText.read cs generalizing text n with
  | case1 => simp at h
  | case2 rest =>
    obtain ⟨rfl, rfl⟩ := Prod.mk.inj (Option.some.inj h)
    exact ⟨[], rest, rfl, rfl, rfl⟩
  | case3 rest hrest ih =>
    obtain ⟨⟨text, n⟩, hread, heq⟩ := Option.bind_eq_some_iff.1 h
    obtain ⟨rfl, rfl⟩ := Prod.mk.inj (Option.some.inj heq)
    obtain ⟨raw, rest, rfl, rfl, hlines⟩ := ih hread
    refine ⟨'"' :: '"' :: raw, rest, rfl, rfl, ?_⟩
    rw [unescape_cons (by simp), unescape_cons (by simp), lines_cons (by decide),
      lines_cons (by decide), textLines_cons (by decide), textLines_cons (by decide), hlines]
  | case4 => simp at h
  | case5 rest ih =>
    obtain ⟨⟨text, n⟩, hread, heq⟩ := Option.bind_eq_some_iff.1 h
    obtain ⟨rfl, rfl⟩ := Prod.mk.inj (Option.some.inj heq)
    obtain ⟨raw, rest, rfl, rfl, hlines⟩ := ih hread
    refine ⟨'\\' :: '"' :: '"' :: '"' :: raw, rest, rfl, rfl, ?_⟩
    rw [unescape, lines_cons (by decide), lines_cons (by decide), lines_cons (by decide),
      textLines_cons (by decide), textLines_cons (by decide), textLines_cons (by decide), hlines]
  | case6 rest ih =>
    obtain ⟨⟨text, n⟩, hread, heq⟩ := Option.bind_eq_some_iff.1 h
    obtain ⟨rfl, rfl⟩ := Prod.mk.inj (Option.some.inj heq)
    obtain ⟨raw, rest, rfl, rfl, hlines⟩ := ih hread
    refine ⟨'\r' :: '\n' :: raw, rest, rfl, rfl, ?_⟩
    rw [unescape_cons (by simp), unescape_cons (by simp), lines, textLines_break, hlines]
  | case7 c rest _ _ hquote hescaped hbreak ih =>
    obtain ⟨⟨text, n⟩, hread, heq⟩ := Option.bind_eq_some_iff.1 h
    obtain ⟨rfl, rfl⟩ := Prod.mk.inj (Option.some.inj heq)
    obtain ⟨raw, rest, rfl, rfl, hlines⟩ := ih hread
    refine ⟨c :: raw, rest, rfl, rfl, ?_⟩
    have hraw : ∀ tail, c = '\\' → raw ≠ '"' :: '"' :: '"' :: tail := by
      rintro tail hc rfl
      exact hescaped _ hc rfl
    rw [unescape_cons hraw]
    by_cases hc : c = '\n' ∨ c = '\r'
    · have hline : (if c = '\r' then '\n' else c) = '\n' := by
        obtain rfl | rfl := hc <;> rfl
      rw [hline, textLines_break, hlines, lines_break hc]
      rintro tail rfl hunescape
      obtain ⟨raw, rfl⟩ := exists_of_unescape_eq (by decide) hunescape
      exact hbreak _ rfl rfl
    · obtain ⟨hfeed, hreturn⟩ := not_or.1 hc
      rw [if_neg hreturn, textLines_cons hfeed, hlines, lines_cons ⟨hfeed, hreturn⟩]

theorem indent?_eq (line : List Char) :
    BlockText.indent? line = if isBlank line then none else some (indentation line) := by
  have hblank : isBlank line = true ↔ ¬ (line.takeWhile isIndent).length < line.length := by
    rw [isBlank, List.all_eq_true, ← List.takeWhile_eq_self_iff, Nat.not_lt]
    constructor
    · intro h
      rw [h]
    · exact (List.takeWhile_sublist _).eq_of_length_le
  rw [BlockText.indent?]
  by_cases h : isBlank line = true
  · rw [if_neg (hblank.1 h), if_pos h]
  · rw [if_pos (not_not.1 (mt hblank.2 h)), if_neg h, indentation]

theorem commonIndent_eq (ls : List (List Char)) :
    BlockText.commonIndent ls = commonIndent ls := by
  have hindents : (ls.drop 1).filterMap BlockText.indent? =
      ((ls.drop 1).filter fun line => !isBlank line).map indentation := by
    induction ls.drop 1 with
    | nil => rfl
    | cons line ls ih =>
      rw [List.filterMap_cons, indent?_eq, ih, List.filter_cons]
      cases isBlank line <;> rfl
  rw [BlockText.commonIndent, hindents, commonIndent]

theorem dedent_eq (text : List Char) :
    BlockText.dedent text = joinLines (trim Text.isBlankLine
      ((cuts (textLines text)).map fun x => BlockText.unindent x.1 x.2)) := by
  have hfirst : (textLines text).take 1 =
      ((textLines text).take 1).map fun line => BlockText.unindent 0 line := by
    have hkept : ∀ line : List Char, BlockText.unindent 0 line = line :=
      fun line => if_neg (by simp)
    simp [hkept]
  rw [BlockText.dedent, commonIndent_eq, hfirst, cuts, List.map_append, List.map_map, List.map_map]
  rfl

section
variable {ls : List (List Char)} {x : Nat × List Char}

theorem take_cut (hx : x ∈ cuts ls) : ∀ c ∈ x.2.take x.1, isIndent c = true := by
  obtain hx | hx := List.mem_append.1 hx
  · obtain ⟨line, -, rfl⟩ := List.mem_map.1 hx
    simp
  · obtain ⟨line, hline, rfl⟩ := List.mem_map.1 hx
    by_cases hblank : isBlank line = true
    · exact fun c hc => List.all_eq_true.1 hblank c (List.mem_of_mem_take hc)
    · have hmem : indentation line ∈
          ((ls.drop 1).filter fun line => !isBlank line).map indentation :=
        List.mem_map_of_mem (List.mem_filter.2 ⟨hline, by simpa using hblank⟩)
      have hle : commonIndent ls ≤ indentation line := List.min?_getD_le_of_mem hmem
      have hprefix : line.take (commonIndent ls) <+: line.takeWhile isIndent :=
        List.prefix_of_prefix_length_le (List.take_prefix _ _) (List.takeWhile_prefix _)
          (Nat.le_trans (List.length_take_le _ _) hle)
      exact fun c hc => List.mem_takeWhile_imp (List.IsPrefix.subset hprefix hc)

theorem all_drop_cut {p : Char → Bool} (hp : ∀ c, isIndent c = true → p c = true)
    (hx : x ∈ cuts ls) : (x.2.drop x.1).all p = x.2.all p := by
  have htake : (x.2.take x.1).all p = true :=
    List.all_eq_true.2 fun c hc => hp c (take_cut hx c hc)
  conv_rhs => rw [← List.take_append_drop x.1 x.2, List.all_append, htake, Bool.true_and]

theorem all_unindent_cut {p : Char → Bool} (hp : ∀ c, isIndent c = true → p c = true)
    (hx : x ∈ cuts ls) : (BlockText.unindent x.1 x.2).all p = x.2.all p := by
  rw [BlockText.unindent]
  split
  · rfl
  · exact all_drop_cut hp hx

theorem unindent_eq_drop_iff :
    BlockText.unindent x.1 x.2 = x.2.drop x.1 ↔ (x.2.length < x.1 → x.2 = []) := by
  rw [BlockText.unindent]
  split
  · rename_i h
    rw [List.drop_eq_nil_of_le (Nat.le_of_lt h), forall_prop_of_true h]
  · rename_i h
    simp [h]

theorem isBlankLine_of_isIndent (c : Char) (h : isIndent c = true) : Text.isBlank c = true := by
  obtain h | h := Bool.or_eq_true_iff.1 h
  · obtain rfl := of_decide_eq_true h
    decide +kernel
  · obtain rfl := of_decide_eq_true h
    decide +kernel

theorem dedent_eq_trim (text : List Char) :
    BlockText.dedent text = joinLines ((trim (fun x => Text.isBlankLine x.2)
      (trim (fun x => isBlank x.2) (cuts (textLines text)))).map
        fun x => BlockText.unindent x.1 x.2) := by
  have hblank : ∀ x : Nat × List Char, isBlank x.2 = true → Text.isBlankLine x.2 = true :=
    fun x h => List.all_eq_true.2 fun c hc => isBlankLine_of_isIndent c (List.all_eq_true.1 h c hc)
  rw [dedent_eq, trim_map, trim_trim hblank]
  congr 2
  exact trim_congr fun x hx => all_unindent_cut isBlankLine_of_isIndent hx

theorem value_eq_kept (raw : List Char) :
    value raw = joinLines ((kept raw).map fun x => x.2.drop x.1) := by
  rw [value, trim_map, kept]
  congr 2
  exact trim_congr fun x hx => all_drop_cut (fun _ h => h) hx

end

theorem joinLines_injective {ls ms : List (List Char)} (hls : ls ≠ []) (hms : ms ≠ [])
    (hlines : ∀ line ∈ ls ++ ms, '\n' ∉ line) (h : joinLines ls = joinLines ms) : ls = ms := by
  obtain ⟨hlines, hlines'⟩ := List.forall_mem_append.1 hlines
  calc ls = Text.split '\n' (joinLines ls) := (Text.split_intercalate hls hlines).symm
    _ = Text.split '\n' (joinLines ms) := by rw [h]
    _ = ms := Text.split_intercalate hms hlines'

theorem mem_of_mem_cuts {ls : List (List Char)} {x : Nat × List Char} (hx : x ∈ cuts ls) :
    x.2 ∈ ls := by
  obtain hx | hx := List.mem_append.1 hx
  · obtain ⟨line, hline, rfl⟩ := List.mem_map.1 hx
    exact List.mem_of_mem_take hline
  · obtain ⟨line, hline, rfl⟩ := List.mem_map.1 hx
    exact List.mem_of_mem_drop hline

theorem unindent_sublist (n : Nat) (line : List Char) :
    (BlockText.unindent n line).Sublist line := by
  rw [BlockText.unindent]
  split
  · exact List.Sublist.refl _
  · exact List.drop_sublist n line

theorem drop_cut_ne_nil {ls : List (List Char)} {x : Nat × List Char} (hx : x ∈ cuts ls)
    (h : isBlank x.2 = false) : x.2.drop x.1 ≠ [] := by
  intro hempty
  rw [isBlank, ← all_drop_cut (fun _ h => h) hx, hempty] at h
  simp at h

theorem eq_nil_of_joinLines_cons {line : List Char} {ls : List (List Char)}
    (h : joinLines (line :: ls) = []) : line = [] := by
  cases ls with
  | nil => simpa [joinLines, List.intercalate] using h
  | cons next ls => simp [joinLines, List.intercalate] at h

section
variable {ls : List (List Char)} {kept : List (Nat × List Char)}
  (hkept : kept = trim (fun x => isBlank x.2) (cuts ls))
  (h : joinLines ((trim (fun x => Text.isBlankLine x.2) kept).map
    fun x => BlockText.unindent x.1 x.2) = joinLines (kept.map fun x => x.2.drop x.1))
include hkept h

theorem trim_ne_nil_of_joinLines_eq (hne : kept ≠ []) :
    trim (fun x => Text.isBlankLine x.2) kept ≠ [] := by
  obtain ⟨x, rest, hcons⟩ := List.exists_cons_of_ne_nil hne
  have hself : trim (fun x => isBlank x.2) kept = kept := by
    rw [hkept]
    exact trim_trim (fun _ h => h) _
  have hblank : isBlank x.2 = false := (trim_eq_self_iff.1 hself).1 x (by simp [hcons])
  have hcut : x ∈ cuts ls := by
    apply (trim_sublist (fun x => isBlank x.2) (cuts ls)).subset
    rw [← hkept, hcons]
    exact List.mem_cons_self
  intro hnil
  rw [hnil, hcons, List.map_cons] at h
  exact drop_cut_ne_nil hcut hblank (eq_nil_of_joinLines_cons h.symm)

theorem trim_eq_self_of_joinLines_eq (hls : ∀ line ∈ ls, '\n' ∉ line) :
    trim (fun x => Text.isBlankLine x.2) kept = kept ∧
      kept.map (fun x => BlockText.unindent x.1 x.2) = kept.map fun x => x.2.drop x.1 := by
  by_cases hnil : kept = []
  · rw [hnil]
    exact ⟨rfl, rfl⟩
  have hsub := trim_sublist (fun x : Nat × List Char => Text.isBlankLine x.2) kept
  have hline : ∀ x ∈ kept, '\n' ∉ x.2 := by
    intro x hx
    rw [hkept] at hx
    exact hls _ (mem_of_mem_cuts ((trim_sublist _ _).subset hx))
  have hunindented : ∀ line ∈ (trim (fun x => Text.isBlankLine x.2) kept).map
      (fun x => BlockText.unindent x.1 x.2), '\n' ∉ line := by
    intro line hmap
    obtain ⟨x, hx, rfl⟩ := List.mem_map.1 hmap
    exact fun hc => hline x (hsub.subset hx) ((unindent_sublist x.1 x.2).subset hc)
  have hdropped : ∀ line ∈ kept.map fun x => x.2.drop x.1, '\n' ∉ line := by
    intro line hmap
    obtain ⟨x, hx, rfl⟩ := List.mem_map.1 hmap
    exact fun hc => hline x hx (List.mem_of_mem_drop hc)
  have hlines := joinLines_injective
    (by simpa using trim_ne_nil_of_joinLines_eq hkept h hnil) (by simpa using hnil)
    (List.forall_mem_append.2 ⟨hunindented, hdropped⟩) h
  have hself : trim (fun x => Text.isBlankLine x.2) kept = kept := by
    apply hsub.eq_of_length
    simpa using congrArg List.length hlines
  exact ⟨hself, by rwa [hself] at hlines⟩

end

theorem dedent_eq_value_iff {text raw : List Char} (h : textLines text = lines (unescape raw)) :
    BlockText.dedent text = value raw ↔ Regular raw := by
  have hls : ∀ line ∈ lines (unescape raw), '\n' ∉ line := by
    rw [← h]
    exact fun line hline => Text.not_mem_of_mem_split hline
  rw [dedent_eq_trim, value_eq_kept, h]
  constructor
  · intro heq
    obtain ⟨hself, hmap⟩ := trim_eq_self_of_joinLines_eq rfl heq hls
    exact ⟨fun x hx => unindent_eq_drop_iff.1 (List.map_inj_left.1 hmap x hx),
      trim_eq_self_iff.1 hself⟩
  · rintro ⟨hshort, hends⟩
    have hself : trim (fun x => Text.isBlankLine x.2) (kept raw) = kept raw :=
      trim_eq_self_iff.2 hends
    rw [← kept, hself]
    exact congrArg _ (List.map_congr_left fun x hx => unindent_eq_drop_iff.2 (hshort x hx))

example : Regular "\n  a\n\n   b".toList ∧ ¬ Regular "\n  a\n \n   b".toList := by decide +kernel

end BlockString

namespace Lexeme

theorem exists_raw_of_afterQuote {cs rest : List Char} {v : String} {n : Nat}
    (h : Token.afterQuote (cs ++ rest) = (.string v, n)) (hn : n = cs.length + 1)
    (hblock : ['"', '"'] <+: cs) :
    ∃ raw text, cs = ['"', '"'] ++ (raw ++ ['"', '"', '"']) ∧
      v = String.ofList (BlockText.dedent text) ∧
      textLines text = BlockString.lines (BlockString.unescape raw) := by
  obtain ⟨cs, rfl⟩ := hblock
  rw [List.append_assoc, List.cons_append, List.cons_append, List.nil_append,
    Token.afterQuote] at h
  cases hread : BlockText.read (cs ++ rest) with
  | none => simp [hread] at h
  | some r =>
    obtain ⟨text, size⟩ := r
    simp only [hread, Prod.mk.injEq, Token.string.injEq] at h
    obtain ⟨rfl, rfl⟩ := h
    obtain ⟨raw, tail, heq, rfl, hlines⟩ := BlockString.lines_of_read hread
    refine ⟨raw, text, ?_, rfl, hlines⟩
    have hlength : (raw ++ ['"', '"', '"']).length = cs.length := by
      simp only [List.length_append, List.length_cons, List.length_nil] at hn ⊢
      omega
    have happend : cs ++ rest = (raw ++ ['"', '"', '"']) ++ tail := by simpa using heq
    rw [(List.append_inj happend hlength.symm).1]

/-- What scanning holds for a block string is the value of the text between its quotes exactly if
this text is regular. -/
theorem scan_blockString {source : List Char} {l : Lexeme} {v : String} (hl : l ∈ scan source)
    (hv : l.token = .string v) (hblock : ['"', '"', '"'] <+: l.span.text source) :
    ∃ raw, l.span.text source = ['"', '"', '"'] ++ (raw ++ ['"', '"', '"']) ∧
      (v.toList = BlockString.value raw ↔ BlockString.Regular raw) := by
  obtain ⟨before, c, part, rest, -, htext, hfirst⟩ := exists_of_mem_scan hl
  rw [htext] at hblock ⊢
  obtain ⟨rfl, hpart⟩ := List.cons_prefix_cons.1 hblock
  rw [hv] at hfirst
  obtain ⟨raw, text, rfl, rfl, hlines⟩ := exists_raw_of_afterQuote hfirst rfl hpart
  refine ⟨raw, rfl, ?_⟩
  rw [String.toList_ofList]
  exact BlockString.dedent_eq_value_iff hlines

/-- A text of three lines, of which the second is shorter than the indentation and empty. -/
theorem scan_blockString_threeLines :
    ∃ raw, "\"\"\"\n  a\n\n   b\"\"\"".toList = ['"', '"', '"'] ++ (raw ++ ['"', '"', '"']) ∧
      ("a\n\n b".toList = BlockString.value raw ↔ BlockString.Regular raw) := by
  have hmem : ⟨.string "a\n\n b", ⟨0, 16⟩, .first⟩ ∈ scan "\"\"\"\n  a\n\n   b\"\"\"".toList := by
    decide +kernel
  exact scan_blockString hmem rfl (by decide +kernel)

/-- Texts that are not regular. A line of two spaces is kept where four are removed from the
others, and a last line that holds a form feed is dropped. -/
theorem scan_blockString_irregular :
    (scan "\"\"\"\n    a\n  \n    b\"\"\"".toList = [⟨.string "a\n  \nb", ⟨0, 21⟩, .first⟩] ∧
      BlockString.value "\n    a\n  \n    b".toList = "a\n\nb".toList) ∧
    (scan "\"\"\"a\n\x0c\"\"\"".toList = [⟨.string "a", ⟨0, 9⟩, .first⟩] ∧
      BlockString.value "a\n\x0c".toList = "a\n\x0c".toList) := by
  decide +kernel

end Lexeme
end GraphQLCheck
