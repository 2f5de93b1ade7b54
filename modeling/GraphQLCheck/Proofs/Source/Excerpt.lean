import GraphQLCheck.Proofs.Source.LineTracker
import GraphQLCheck.Proofs.Token.Caret
import GraphQLCheck.Source.Excerpt

/-!
Excerpts by byte offsets exist wherever a span lies between characters of its source, and they are
the ones that are made by counting characters (`Excerpt.render?_eq`). Each line of an excerpt is a
line of the source under its own number (`Excerpt.render?_numbered`).

The offsets are those of a text that is cut in three at the span. What is shown is cut out of it
again: in front of it lines end (`Ended`), so that its own lines are among those of the source.
-/
namespace GraphQLCheck

def Ended (text : List Char) : Prop := text = [] ∨ ∃ ls, text = ls ++ ['\n']

theorem textLines_append {a : List Char} (ha : Ended a) (b : List Char) :
    textLines (a ++ b) = (textLines a).dropLast ++ textLines b := by
  obtain rfl | ⟨ls, rfl⟩ := ha
  · rfl
  · have hls : textLines (ls ++ ['\n']) = textLines ls ++ [[]] := Text.split_append_separator ..
    have hlines : textLines (ls ++ '\n' :: b) = textLines ls ++ textLines b :=
      Text.split_append_separator ..
    rw [hls, List.dropLast_concat, List.append_assoc, List.singleton_append, hlines]

theorem length_dropLast_textLines (a : List Char) :
    (textLines a).dropLast.length = a.count '\n' := by
  rw [List.length_dropLast, textLines, Text.length_split, Nat.add_sub_cancel]

theorem exists_ended (text : List Char) :
    ∃ ended current, text = ended ++ current ∧ Ended ended ∧ '\n' ∉ current := by
  induction text with
  | nil => exact ⟨[], [], rfl, .inl rfl, List.not_mem_nil⟩
  | cons c cs ih =>
    obtain ⟨ended, current, rfl, hended, hcurrent⟩ := ih
    obtain rfl | ⟨ls, rfl⟩ := hended
    · by_cases hc : c = '\n'
      · exact ⟨[c], current, rfl, .inr ⟨[], by rw [hc]; rfl⟩, hcurrent⟩
      · exact ⟨[], c :: current, rfl, .inl rfl, by simp [Ne.symm hc, hcurrent]⟩
    · exact ⟨c :: (ls ++ ['\n']), current, rfl, .inr ⟨c :: ls, rfl⟩, hcurrent⟩

namespace Utf8

theorem take_append_drop (n : Nat) (text : List Char) : take n text ++ drop n text = text := by
  induction text generalizing n with
  | nil => rfl
  | cons c cs ih =>
    rw [take, drop]
    split
    · rfl
    · rw [List.cons_append, ih]

theorem isBoundary_size (a b : List Char) : isBoundary (a ++ b) (size a) = true := by
  rw [isBoundary, take_size, beq_self_eq_true]

theorem exists_append_of_isBoundary {text : List Char} {n : Nat} (h : isBoundary text n = true) :
    ∃ a b, text = a ++ b ∧ n = size a :=
  ⟨take n text, drop n text, (take_append_drop n text).symm, (eq_of_beq h).symm⟩

theorem slice?_middle (a t b : List Char) :
    slice? (a ++ t ++ b) (size a) (size (a ++ t)) = some t := by
  have hstart : isBoundary (a ++ t ++ b) (size a) = true := by
    rw [List.append_assoc, isBoundary_size]
  have hle : size a ≤ size (a ++ t) := by
    rw [size_append]
    exact Nat.le_add_right _ _
  rw [slice?, hstart, isBoundary_size, take_size, drop_size]
  simp [hle]

theorem slice?_front (a b : List Char) : slice? (a ++ b) 0 (size a) = some a :=
  slice?_middle [] a b

theorem slice?_back (a b : List Char) : slice? (a ++ b) (size a) (size (a ++ b)) = some b := by
  have h := slice?_middle a b []
  rwa [List.append_nil] at h

section
variable {c : Char} {a b : List Char}

theorem find?_of_not_mem (h : c ∉ a) : find? c a = none := by
  induction a with
  | nil => rfl
  | cons d a ih =>
    obtain ⟨hd, ha⟩ := not_or.1 (mt List.mem_cons.2 h)
    rw [find?, if_neg (Ne.symm hd), ih ha]
    rfl

theorem find?_append (h : c ∉ a) (b : List Char) : find? c (a ++ c :: b) = some (size a) := by
  induction a with
  | nil => exact if_pos rfl
  | cons d a ih =>
    obtain ⟨hd, ha⟩ := not_or.1 (mt List.mem_cons.2 h)
    rw [List.cons_append, find?, if_neg (Ne.symm hd), ih ha, Option.map_some, size_cons]

theorem findLast?_of_not_mem (h : c ∉ a) : findLast? c a = none := by
  induction a with
  | nil => rfl
  | cons d a ih =>
    obtain ⟨hd, ha⟩ := not_or.1 (mt List.mem_cons.2 h)
    simp only [findLast?, ih ha, if_neg (Ne.symm hd)]

theorem findLast?_append (a : List Char) (h : c ∉ b) :
    findLast? c (a ++ c :: b) = some (size a) := by
  induction a with
  | nil => simp only [List.nil_append, findLast?, findLast?_of_not_mem h, if_true]; rfl
  | cons d a ih => simp only [List.cons_append, findLast?, ih, size_cons]

theorem lineStart_append (ha : Ended a) (hb : '\n' ∉ b) : lineStart (a ++ b) = size a := by
  obtain rfl | ⟨ls, rfl⟩ := ha
  · rw [lineStart, List.nil_append, findLast?_of_not_mem hb]
    rfl
  · rw [lineStart, List.append_assoc, List.singleton_append, findLast?_append ls hb, size_append]
    rfl

end

end Utf8

namespace Excerpt
open Utf8 Snippet

theorem subtract?_of_le {a b : Nat} (h : b ≤ a) : subtract? a b = some (a - b) := if_pos h

theorem subtract?_add (a b : Nat) : subtract? (a + b) b = some a := by
  rw [subtract?_of_le (Nat.le_add_left b a), Nat.add_sub_cancel]

theorem length_toString_le {m n : Nat} (h : m ≤ n) :
    (toString m).length ≤ (toString n).length := by
  have hpos : 0 < n.repr.length := by
    rw [← String.length_toList, Nat.toList_repr]
    exact Nat.length_toDigits_pos
  rw [Nat.toString_eq_repr, Nat.toString_eq_repr, Nat.length_repr_le_iff hpos]
  exact Nat.lt_of_le_of_lt h ((Nat.length_repr_le_iff hpos).1 le_rfl)

theorem numbered?_eq {width number : Nat} (h : (toString number).length ≤ width)
    (line : List Char) : numbered? width number line = some (numbered width number line) := by
  rw [numbered?, subtract?_of_le h]
  rfl

theorem numberedFrom?_eq {width first : Nat} {ls : List (List Char)}
    (h : ∀ i < ls.length, (toString (first + i)).length ≤ width) :
    numberedFrom? width first ls =
      some (ls.mapIdx fun i line => numbered width (first + i) line) := by
  induction ls generalizing first with
  | nil => rfl
  | cons line ls ih =>
    have hfirst : (toString first).length ≤ width := h 0 (Nat.zero_lt_succ _)
    have hwidths : ∀ i < ls.length, (toString (first + 1 + i)).length ≤ width := by
      intro i hi
      rw [Nat.add_assoc, Nat.add_comm 1 i]
      exact h (i + 1) (Nat.succ_lt_succ hi)
    have hrest := ih hwidths
    rw [numberedFrom?] at hrest ⊢
    rw [List.zipIdx_cons, List.mapM_cons, numbered?_eq hfirst, hrest, List.mapIdx_cons]
    simp only [Nat.add_assoc, Nat.add_comm 1]
    rfl

section
variable (a t b : List Char)

/-- A text that is cut in three is cut at a span of characters, and at one of bytes. -/
def middle : Span := ⟨a.length, (a ++ t).length⟩

def middleBytes : Span := ⟨size a, size (a ++ t)⟩

theorem take_middle : (a ++ t ++ b).take (middle a t).start = a := by
  rw [List.append_assoc]
  exact List.take_left

theorem drop_middle : (a ++ t ++ b).drop (middle a t).stop = b := List.drop_left

theorem text_middle : (middle a t).text (a ++ t ++ b) = t := by
  rw [Span.text, middle, List.take_left, List.drop_left]

theorem location?_eq : location? (a ++ t ++ b) (size a) = some (.atOffset (a ++ t ++ b) a.length) := by
  obtain ⟨ended, current, rfl, hended, hcurrent⟩ := exists_ended a
  have hlast : ∀ c ∈ ended.getLast?, c = '\n' := by
    obtain rfl | ⟨ls, rfl⟩ := hended
    · exact nofun
    · simp
  have hslice := slice?_back ended current
  rw [location?, List.append_assoc, slice?_front, Option.bind_eq_bind, Option.bind_some,
    lineStart_append hended hcurrent, hslice, Location.atOffset_lines _ hlast hcurrent,
    List.count_append, List.count_eq_zero.2 hcurrent]
  rfl

theorem exists_lead : ∃ before,
    a = before ++ joinLines (lead (a ++ t ++ b) (middle a t)) ∧ Ended before ∧
      windowStart? (a ++ t ++ b) (size a) = some (size before) := by
  rw [lead, take_middle]
  obtain ⟨ended, current, rfl, hended, hcurrent⟩ := exists_ended a
  have hlines : textLines current = [current] := Text.split_of_not_mem hcurrent
  obtain rfl | ⟨ls, rfl⟩ := hended
  · refine ⟨[], by simp [hlines, joinLines], .inl rfl, ?_⟩
    rw [windowStart?, List.append_assoc, slice?_front, List.nil_append, Option.bind_eq_bind,
      Option.bind_some, findLast?_of_not_mem hcurrent]
    rfl
  · obtain ⟨ended, previous, rfl, hended, hprevious⟩ := exists_ended ls
    refine ⟨ended, ?_, hended, ?_⟩
    · have htwo : textLines (previous ++ '\n' :: current) = [previous, current] := by
        rw [textLines, Text.split_append_separator, Text.split_of_not_mem hprevious, ← textLines,
          hlines]
        rfl
      simp only [List.append_assoc, List.singleton_append, textLines_append hended, htwo]
      simp [joinLines]
    · have hfeed : findLast? '\n' (ended ++ previous ++ ['\n'] ++ current) =
          some (size (ended ++ previous)) := by
        rw [List.append_assoc, List.singleton_append, findLast?_append _ hcurrent]
      have hearlier : slice? (ended ++ previous ++ ['\n'] ++ current ++ (t ++ b)) 0
          (size (ended ++ previous)) = some (ended ++ previous) := by
        simp only [List.append_assoc (ended ++ previous)]
        exact slice?_front ..
      rw [windowStart?, List.append_assoc _ t b, slice?_front, Option.bind_eq_bind,
        Option.bind_some, hfeed]
      simp only [hearlier, Option.bind_some, Option.pure_def, lineStart_append hended hprevious]

theorem exists_rest : ∃ after,
    b = b.takeWhile (· ≠ '\n') ++ after ∧ (after = [] ∨ ∃ ls, after = '\n' :: ls) ∧
      windowStop? (a ++ t ++ b) (size (a ++ t)) =
        some (size (a ++ t ++ b.takeWhile (· ≠ '\n'))) := by
  have hline : '\n' ∉ b.takeWhile (· ≠ '\n') := fun h => by simpa using List.mem_takeWhile_imp h
  refine ⟨b.dropWhile (· ≠ '\n'), (List.takeWhile_append_dropWhile).symm, ?_⟩
  rw [windowStop?, slice?_back, Option.bind_eq_bind, Option.bind_some]
  cases hrest : b.dropWhile (· ≠ '\n') with
  | nil =>
    have hb := List.takeWhile_append_dropWhile (p := (· ≠ '\n')) (l := b)
    rw [hrest, List.append_nil] at hb
    rw [hb] at hline ⊢
    simp [find?_of_not_mem hline]
  | cons c ls =>
    have hc := List.head?_dropWhile_not (· ≠ '\n') b
    rw [hrest] at hc
    obtain rfl : c = '\n' := by simpa using hc
    have hb : b = b.takeWhile (· ≠ '\n') ++ '\n' :: ls := by
      rw [← hrest, List.takeWhile_append_dropWhile]
    have hfind : find? '\n' b = some (size (b.takeWhile (· ≠ '\n'))) := by
      conv_lhs => rw [hb]
      exact find?_append hline ls
    refine ⟨.inr ⟨ls, rfl⟩, ?_⟩
    rw [hfind, size_append (a ++ t) (b.takeWhile _), Nat.add_comm (size (a ++ t))]
    rfl

/-- What is shown stands in the source between whole lines. Its first line has the number that
comes behind those in front. -/
theorem exists_window : ∃ before after,
    a ++ t ++ b = before ++ window (a ++ t ++ b) (middle a t) ++ after ∧ Ended before ∧
      (after = [] ∨ ∃ ls, after = '\n' :: ls) ∧
      a = before ++ joinLines (lead (a ++ t ++ b) (middle a t)) ∧
      firstLine (a ++ t ++ b) (middle a t) = before.count '\n' + 1 ∧
      windowStart? (a ++ t ++ b) (size a) = some (size before) ∧
      windowStop? (a ++ t ++ b) (size (a ++ t)) =
        some (size (before ++ window (a ++ t ++ b) (middle a t))) := by
  obtain ⟨before, ha, hbefore, hstart⟩ := exists_lead a t b
  obtain ⟨after, hb, hafter, hstop⟩ := exists_rest a t b
  have hwindow : before ++ window (a ++ t ++ b) (middle a t) = a ++ t ++ b.takeWhile (· ≠ '\n') := by
    rw [window, text_middle, drop_middle, ← List.append_assoc, ← List.append_assoc, ← ha]
  have hlines : textLines a =
      (textLines before).dropLast ++ lead (a ++ t ++ b) (middle a t) := by
    conv_lhs => rw [ha]
    rw [textLines_append hbefore, textLines_joinLines (lead_ne_nil _ _) fun _ => not_mem_of_mem_lead]
  refine ⟨before, after, ?_, hbefore, hafter, ha, ?_, hstart, by rw [hwindow]; exact hstop⟩
  · rw [hwindow, List.append_assoc _ _ after, ← hb]
  · rw [firstLine, take_middle, hlines, List.length_append, length_dropLast_textLines]
    omega

theorem caretLine?_eq (width : Nat) : caretLine? width (a ++ t ++ b) (middleBytes a t) =
    some (caretLine width (a ++ t ++ b) (middle a t)) := by
  have hbefore : slice? (a ++ t ++ b) 0 (size a) = some a := by
    rw [List.append_assoc, slice?_front]
  obtain ⟨ended, current, rfl, hended, hcurrent⟩ := exists_ended a
  have hindent : slice? (ended ++ current ++ t ++ b) (size ended) (size (ended ++ current)) =
      some current := by
    rw [List.append_assoc (ended ++ current), slice?_middle]
  have hlines : textLines (ended ++ current) = (textLines ended).dropLast ++ [current] := by
    rw [textLines_append hended, textLines, textLines, Text.split_of_not_mem hcurrent]
  have hlength : ((ended ++ current).reverse.takeWhile (· ≠ '\n')).length = current.length := by
    rw [← List.length_reverse, ← Text.getLastD_split, ← textLines, hlines, List.getLastD_concat]
  rw [caretLine, take_middle, text_middle, hlength]
  simp only [caretLine?, middleBytes, hbefore, lineStart_append hended hcurrent, hindent,
    slice?_middle, Option.bind_eq_bind, Option.bind_some, Option.pure_def]

theorem render?_middle : render? (a ++ t ++ b) (middleBytes a t) =
    some (render (a ++ t ++ b) (middle a t)) := by
  obtain ⟨before, after, hsource, -, -, ha, hfirst, hstart, hstop⟩ := exists_window a t b
  generalize hw : window (a ++ t ++ b) (middle a t) = w at hsource hstop
  generalize hl : joinLines (lead (a ++ t ++ b) (middle a t)) = l at ha
  have hwindow : slice? (a ++ t ++ b) (size before) (size (before ++ w)) = some w := by
    rw [hsource, slice?_middle]
  have hlead : slice? (a ++ t ++ b) (size before) (size a) = some l := by
    rw [List.append_assoc, ha, slice?_middle]
  have hnumber : (subtract? (a.count '\n' + 1 + 1) (l.count '\n')).bind (subtract? · 1) =
      some (firstLine (a ++ t ++ b) (middle a t)) := by
    have hcount : a.count '\n' + 1 + 1 = before.count '\n' + 1 + 1 + l.count '\n' := by
      conv_lhs => rw [ha, List.count_append]
      omega
    rw [hcount, subtract?_add, Option.bind_some, subtract?_add, hfirst]
  have hlast : subtract? (firstLine (a ++ t ++ b) (middle a t) + max 1 (shownLines w).length) 1 =
      some (firstLine (a ++ t ++ b) (middle a t) + max 1 (shownLines w).length - 1) :=
    subtract?_of_le (by omega)
  have hrows : numberedFrom? (width (a ++ t ++ b) (middle a t))
      (firstLine (a ++ t ++ b) (middle a t)) (shownLines w) =
        some ((shownLines w).mapIdx fun i line => numbered (width (a ++ t ++ b) (middle a t))
          (firstLine (a ++ t ++ b) (middle a t) + i) line) := by
    refine numberedFrom?_eq fun i hi => length_toString_le ?_
    rw [hw]
    omega
  have hline : (Location.atOffset (a ++ t ++ b) a.length).line = a.count '\n' + 1 := by
    rw [Location.atOffset, List.append_assoc, List.take_left]
  have hcarets := caretLine?_eq a t b (width (a ++ t ++ b) (middle a t))
  rw [width, hw] at hrows hcarets
  rw [Option.bind_eq_some_iff] at hnumber
  obtain ⟨n, hn, hnumber⟩ := hnumber
  simp only [render?, render, text_middle, hw, middleBytes, location?_eq, hline, hstart, hstop,
    hwindow, hlead, hn, hnumber, hlast, hrows, slice?_middle, Option.bind_eq_bind,
    Option.bind_some, Option.pure_def] at hcarets ⊢
  split
  · rfl
  · rw [hcarets]
    rfl

end

def chars (source : List Char) (s : Span) : Span :=
  ⟨(take s.start source).length, (take s.stop source).length⟩

section
variable {source : List Char} {s : Span}

theorem exists_middle (hstart : isBoundary source s.start = true)
    (hstop : isBoundary source s.stop = true) (hle : s.start ≤ s.stop) :
    ∃ a t b, source = a ++ t ++ b ∧ s = middleBytes a t ∧ chars source s = middle a t := by
  obtain ⟨a, r, hsource, ha⟩ := exists_append_of_isBoundary hstart
  obtain ⟨c, b, hsource', hc⟩ := exists_append_of_isBoundary hstop
  rw [ha, hc] at hle
  obtain ⟨t, rfl⟩ := LineTracker.exists_append_of_size_le (hsource ▸ List.prefix_append a r)
    (hsource' ▸ List.prefix_append c b) hle
  refine ⟨a, t, b, hsource', ?_, ?_⟩
  · rw [middleBytes, ← ha, ← hc]
  · rw [chars, ha, hc, hsource', take_size, List.append_assoc, take_size]
    rfl

/-- No check fails, and bytes and characters are counted to the same effect. -/
theorem render?_eq (hstart : isBoundary source s.start = true)
    (hstop : isBoundary source s.stop = true) (hle : s.start ≤ s.stop) :
    render? source s = some (render source (chars source s)) := by
  obtain ⟨a, t, b, rfl, rfl, hchars⟩ := exists_middle hstart hstop hle
  rw [hchars, render?_middle]

end

def Labelled (row : List Char) (number : Nat) (text : List Char) : Prop :=
  ∃ label, row = label ++ text ∧ IsLabel label number

theorem eq_or_of_dropReturn (line : List Char) :
    line = dropReturn line ∨ line = dropReturn line ++ ['\r'] := by
  rw [dropReturn]
  split
  · rename_i h
    exact .inr (List.dropLast_append_getLast? _ h).symm
  · exact .inl rfl

theorem line_of_shownLines {text line : List Char} {i : Nat}
    (h : (shownLines text)[i]? = some line) :
    ∃ l, (textLines text)[i]? = some l ∧ (l = line ∨ l = line ++ ['\r']) := by
  have hne : textLines text ≠ [] := Text.split_ne_nil _ _
  have hlines : textLines text = (textLines text).dropLast ++ [(textLines text).getLastD []] := by
    rw [List.getLastD_eq_getLast?, List.getLast?_eq_some_getLast hne]
    exact (List.dropLast_append_getLast hne).symm
  generalize hinit : (textLines text).dropLast = init at hlines
  generalize hlast : (textLines text).getLastD [] = last at hlines
  simp only [shownLines, hinit, hlast] at h
  rw [hlines]
  obtain hi | hi := Nat.lt_or_ge i init.length
  · rw [List.getElem?_append_left (by simpa using hi), List.getElem?_map, Option.map_eq_some_iff] at h
    obtain ⟨l, hl, rfl⟩ := h
    exact ⟨l, by rw [List.getElem?_append_left hi, hl], eq_or_of_dropReturn l⟩
  · rw [List.getElem?_append_right (by simpa using hi), List.length_map] at h
    rw [List.getElem?_append_right hi]
    split at h
    · simp at h
    · exact ⟨line, h, .inl rfl⟩

theorem line_of_window {before w after line : List Char} (hbefore : Ended before)
    (hafter : after = [] ∨ ∃ ls, after = '\n' :: ls) {i : Nat}
    (h : (textLines w)[i]? = some line) :
    (textLines (before ++ w ++ after))[before.count '\n' + i]? = some line := by
  have hw : (textLines (w ++ after))[i]? = some line := by
    obtain rfl | ⟨ls, rfl⟩ := hafter
    · rwa [List.append_nil]
    · obtain ⟨hi, -⟩ := List.getElem?_eq_some_iff.1 h
      rw [textLines, Text.split_append_separator, ← textLines, List.getElem?_append_left hi, h]
  rw [List.append_assoc, textLines_append hbefore, ← length_dropLast_textLines,
    List.getElem?_append_right (Nat.le_add_right _ _), Nat.add_sub_cancel_left, hw]

section
variable (a t b : List Char)

theorem exists_of_rows {row : List Char} {i : Nat}
    (h : (rows (a ++ t ++ b) (middle a t))[i]? = some row) :
    ∃ text line, Labelled row (firstLine (a ++ t ++ b) (middle a t) + i) text ∧
      (textLines (a ++ t ++ b))[firstLine (a ++ t ++ b) (middle a t) + i - 1]? = some line ∧
      (line = text ∨ line = text ++ ['\r']) := by
  obtain ⟨before, after, hsource, hbefore, hafter, -, hfirst, -⟩ := exists_window a t b
  rw [rows, List.getElem?_mapIdx, Option.map_eq_some_iff] at h
  obtain ⟨text, htext, rfl⟩ := h
  obtain ⟨line, hline, hreturn⟩ := line_of_shownLines htext
  refine ⟨text, line, ⟨_, rfl, isLabel_labelOf _ _⟩, ?_, hreturn⟩
  rw [hfirst, Nat.add_right_comm, Nat.add_sub_cancel]
  conv_lhs => rw [hsource]
  exact line_of_window hbefore hafter hline

end

theorem Labelled.unique {row text text' : List Char} {n m : Nat} (h : Labelled row n text)
    (h' : Labelled row m text') : n = m ∧ text = text' := by
  obtain ⟨label, rfl, hlabel⟩ := h
  obtain ⟨label', heq, hlabel'⟩ := h'
  exact ⟨hlabel.eq hlabel' heq, hlabel.eq_line hlabel' heq⟩

theorem not_labelled {row : List Char}
    (h : (row.takeWhile (· ≠ '|')).filter Char.isDigit = []) (n : Nat) (text : List Char) :
    ¬ Labelled row n text := by
  rintro ⟨label, rfl, hlabel⟩
  rw [hlabel.digits, Nat.toString_eq_repr, Nat.toList_repr] at h
  exact Nat.toDigits_ne_nil h

theorem not_labelled_carets (source : List Char) (s : Span) (carets : List Char) (n : Nat)
    (text : List Char) : ¬ Labelled (indent source s ++ '^' :: carets) n text := by
  refine not_labelled ?_ n text
  have hbar : '|' ∉ List.replicate (width source s + 1) ' ' ++ [' '] := by simp
  have hindent : indent source s ++ '^' :: carets =
      List.replicate (width source s + 1) ' ' ++ [' '] ++
        '|' :: (' ' :: (List.replicate (front source s).length ' ' ++ '^' :: carets)) := by
    simp [indent]
  rw [hindent, takeWhile_bar hbar]
  simp

theorem exists_others (source : List Char) (s : Span) :
    ∃ others, textLines (render source s).toList = rows source s ++ others ∧
      ∀ row ∈ others, ∀ n text, ¬ Labelled row n text := by
  have hrows : ∃ others, textLines (joinLines (rows source s)) = rows source s ++ others ∧
      ∀ row ∈ others, ∀ n text, ¬ Labelled row n text := by
    by_cases hnil : rows source s = []
    · rw [hnil]
      refine ⟨[[]], rfl, ?_⟩
      rw [List.forall_mem_singleton]
      exact not_labelled rfl
    · exact ⟨[], by rw [textLines_rows hnil, List.append_nil], nofun⟩
  obtain ⟨others, hothers, hunlabelled⟩ := hrows
  by_cases hfeed : '\n' ∈ s.text source
  · refine ⟨others, ?_, hunlabelled⟩
    rw [render, if_pos hfeed, ← width, toList_intercalate_numbered, hothers]
  · obtain ⟨carets, hcarets⟩ := exists_textLines_render hfeed
    refine ⟨others ++ [indent source s ++ '^' :: carets], ?_, ?_⟩
    · rw [hcarets, hothers, List.append_assoc]
    · rw [List.forall_mem_append, List.forall_mem_singleton]
      exact ⟨hunlabelled, not_labelled_carets source s carets⟩

/-- An excerpt exists for every span that lies between characters of a source. Its rows are numbered
in sequence, from one or later, and nothing else in it is numbered. What stands under a number is
the line of the source that has the number, up to a carriage return at its end. -/
theorem render?_numbered {source : List Char} {s : Span}
    (hstart : isBoundary source s.start = true) (hstop : isBoundary source s.stop = true)
    (hle : s.start ≤ s.stop) :
    ∃ shown first numbered others,
      render? source s = some shown ∧ shown = render source (chars source s) ∧
      textLines shown.toList = numbered ++ others ∧ 1 ≤ first ∧
      (∀ i row, numbered[i]? = some row → ∃ text, Labelled row (first + i) text) ∧
      (∀ row ∈ others, ∀ n text, ¬ Labelled row n text) ∧
      ∀ row ∈ textLines shown.toList, ∀ n text, Labelled row n text →
        1 ≤ n ∧ ∃ line, (textLines source)[n - 1]? = some line ∧
          (line = text ∨ line = text ++ ['\r']) := by
  have hrender := render?_eq hstart hstop hle
  obtain ⟨a, t, b, rfl, rfl, hchars⟩ := exists_middle hstart hstop hle
  rw [hchars] at hrender ⊢
  obtain ⟨before, after, -, -, -, -, hfirst, -⟩ := exists_window a t b
  obtain ⟨others, hlines, hothers⟩ := exists_others (a ++ t ++ b) (middle a t)
  have hpos : 1 ≤ firstLine (a ++ t ++ b) (middle a t) := hfirst ▸ Nat.le_add_left 1 _
  refine ⟨_, firstLine (a ++ t ++ b) (middle a t), rows (a ++ t ++ b) (middle a t), others, hrender,
    rfl, hlines, hpos, fun i row hrow => ?_, hothers, fun row hrow n text hlabelled => ?_⟩
  · obtain ⟨text, -, hlabelled, -⟩ := exists_of_rows a t b hrow
    exact ⟨text, hlabelled⟩
  · rw [hlines, List.mem_append] at hrow
    obtain hrow | hrow := hrow
    · obtain ⟨i, hi⟩ := List.getElem?_of_mem hrow
      obtain ⟨text', line, hlabelled', hline, hreturn⟩ := exists_of_rows a t b hi
      obtain ⟨rfl, rfl⟩ := hlabelled.unique hlabelled'
      exact ⟨hpos.trans (Nat.le_add_right _ _), line, hline, hreturn⟩
    · exact absurd hlabelled (hothers row hrow n text)

/-- A span over two lines, the first of which ends with a carriage return. -/
theorem render?_numbered_twoLines :
    isBoundary "é\r\n  a\nb".toList 2 = true ∧ isBoundary "é\r\n  a\nb".toList 7 = true ∧
      ∃ shown first numbered others,
        render? "é\r\n  a\nb".toList ⟨2, 7⟩ = some shown ∧ shown = " 1 | é\n 2 |   a" ∧
        textLines shown.toList = numbered ++ others ∧ 1 ≤ first ∧
        (∀ i row, numbered[i]? = some row → ∃ text, Labelled row (first + i) text) ∧
        (∀ row ∈ others, ∀ n text, ¬ Labelled row n text) ∧
        ∀ row ∈ textLines shown.toList, ∀ n text, Labelled row n text →
          1 ≤ n ∧ ∃ line, (textLines "é\r\n  a\nb".toList)[n - 1]? = some line ∧
            (line = text ∨ line = text ++ ['\r']) := by
  have hstart : isBoundary "é\r\n  a\nb".toList 2 = true := by decide
  have hstop : isBoundary "é\r\n  a\nb".toList 7 = true := by decide
  obtain ⟨shown, first, numbered, others, hrender, rfl, hrest⟩ :=
    render?_numbered (s := ⟨2, 7⟩) hstart hstop (by decide)
  exact ⟨hstart, hstop, _, first, numbered, others, hrender, by decide, hrest⟩

end Excerpt
end GraphQLCheck
