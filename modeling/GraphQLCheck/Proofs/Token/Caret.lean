import GraphQLCheck.Proofs.Token.Locations
import Mathlib.Data.List.TakeWhile

/-!
Where the caret of an excerpt points. The lines of an excerpt end in the line that a span without
line breaks stands on (`Snippet.textLines_window`), and the caret stands under the start of the span
if this line is shown. An empty one is not, since an empty last line is left out
(`Snippet.pointsAt_iff`). Of all tokens only the end of a source can stand on an empty line, behind
a last line feed or in an empty source.
-/
namespace GraphQLCheck

theorem Location.atOffset_eq (source : List Char) (n : Nat) :
    atOffset source n = ⟨(textLines (source.take n)).length,
      ((textLines (source.take n)).getLastD []).length + 1⟩ := by
  rw [textLines, Text.length_split, Text.getLastD_split, List.length_reverse]
  rfl

theorem textLines_joinLines {ls : List (List Char)} (hne : ls ≠ []) (h : ∀ line ∈ ls, '\n' ∉ line) :
    textLines (joinLines ls) = ls :=
  Text.split_intercalate hne h

namespace Snippet

def IsLabel (label : List Char) (number : Nat) : Prop :=
  ∃ k, label = List.replicate k ' ' ++ (toString number).toList ++ [' ', '|', ' ']

/-- The last line that is shown has its first caret under a location of a source. The line above
is the one of the source that has the number of the location, under its number. -/
def PointsAt (shown source : List Char) (l : Location) : Prop :=
  ∃ above label front behind indent carets,
    textLines shown = above ++ [label ++ (front ++ behind), indent ++ '^' :: carets] ∧
    IsLabel label l.line ∧
    (textLines source)[l.line - 1]? = some (front ++ behind) ∧ front.length + 1 = l.column ∧
    '^' ∉ indent ∧ indent.length = (label ++ front).length

section
variable {source : List Char} {s : Span}

def front (source : List Char) (s : Span) : List Char :=
  (textLines (source.take s.start)).getLastD []

def behind (source : List Char) (s : Span) : List Char :=
  s.text source ++ (source.drop s.stop).takeWhile (· ≠ '\n')

theorem not_mem_behind (hline : '\n' ∉ s.text source) : '\n' ∉ behind source s := by
  rw [behind, List.mem_append, not_or]
  exact ⟨hline, fun h => by simpa using List.mem_takeWhile_imp h⟩

theorem eq_append_behind (hs : s.start ≤ s.stop) (source : List Char) :
    source = source.take s.start ++
      (behind source s ++ (source.drop s.stop).dropWhile (· ≠ '\n')) := by
  rw [behind, List.append_assoc, List.takeWhile_append_dropWhile, Span.text, ← List.append_assoc]
  conv_lhs => rw [← List.take_append_drop s.stop source]
  congr 1
  conv_lhs => rw [← List.take_append_drop s.start (source.take s.stop), List.take_take,
    Nat.min_eq_left hs]

theorem exists_textLines_behind (hline : '\n' ∉ s.text source) :
    ∃ ls, textLines (behind source s ++ (source.drop s.stop).dropWhile (· ≠ '\n')) =
      behind source s :: ls := by
  have hbehind := Text.split_of_not_mem (not_mem_behind hline)
  cases hrest : (source.drop s.stop).dropWhile (· ≠ '\n') with
  | nil =>
    rw [List.append_nil]
    exact ⟨[], hbehind⟩
  | cons c rest =>
    have hc := List.head?_dropWhile_not (· ≠ '\n') (source.drop s.stop)
    rw [hrest] at hc
    obtain rfl : c = '\n' := by simpa using hc
    refine ⟨textLines rest, ?_⟩
    rw [textLines, Text.split_append_separator, hbehind]
    rfl

theorem getElem?_textLines (hs : s.start ≤ s.stop) (hline : '\n' ∉ s.text source) :
    (textLines source)[(textLines (source.take s.start)).length - 1]? =
      some (front source s ++ behind source s) := by
  obtain ⟨ls, hls⟩ := exists_textLines_behind hline
  have hlines : textLines source =
      (textLines (source.take s.start)).dropLast ++ (front source s ++ behind source s) :: ls := by
    conv_lhs => rw [eq_append_behind hs source]
    rw [textLines, Text.split_append_split, ← textLines, ← textLines, hls]
    rfl
  rw [hlines, List.getElem?_append_right (by simp), List.length_dropLast, Nat.sub_self]
  rfl

theorem lead_ne_nil (source : List Char) (s : Span) : lead source s ≠ [] := by
  have hpos := List.length_pos_iff.2 (Text.split_ne_nil '\n' (source.take s.start))
  rw [← List.length_pos_iff, lead, List.length_drop, textLines]
  omega

theorem getLastD_lead (source : List Char) (s : Span) :
    (lead source s).getLastD [] = front source s := by
  have hne := lead_ne_nil source s
  rw [lead] at hne ⊢
  rw [front, List.getLastD_eq_getLast?, List.getLastD_eq_getLast?, List.getLast?_drop, if_neg]
  rwa [← List.drop_eq_nil_iff]

theorem not_mem_of_mem_lead {line : List Char} (h : line ∈ lead source s) : '\n' ∉ line :=
  Text.not_mem_of_mem_split (List.mem_of_mem_drop h)

theorem textLines_window (hline : '\n' ∉ s.text source) :
    textLines (window source s) =
      (lead source s).dropLast ++ [front source s ++ behind source s] := by
  have hbehind : textLines (behind source s) = [behind source s] :=
    Text.split_of_not_mem (not_mem_behind hline)
  rw [window, List.append_assoc, ← behind, textLines, Text.split_append_split, ← textLines,
    ← textLines, hbehind, textLines_joinLines (lead_ne_nil source s) fun _ => not_mem_of_mem_lead,
    getLastD_lead]
  rfl

theorem shownLines_window (hline : '\n' ∉ s.text source) :
    shownLines (window source s) = (lead source s).dropLast.map dropReturn ++
      if front source s ++ behind source s = [] then []
      else [front source s ++ behind source s] := by
  simp only [shownLines, textLines_window hline, List.dropLast_concat, List.getLastD_concat,
    List.isEmpty_iff]

theorem firstLine_add (source : List Char) (s : Span) :
    firstLine source s + (lead source s).dropLast.length =
      (textLines (source.take s.start)).length := by
  have hpos := List.length_pos_iff.2 (lead_ne_nil source s)
  have hle : (lead source s).length ≤ (textLines (source.take s.start)).length := by
    rw [lead, List.length_drop]
    exact Nat.sub_le ..
  rw [firstLine, List.length_dropLast]
  omega

end

section
variable {label : List Char} {width n m : Nat}

def labelOf (width number : Nat) : List Char :=
  List.replicate (width - (toString number).length + 1) ' ' ++ (toString number).toList
    ++ [' ', '|', ' ']

theorem toList_numbered (width number : Nat) (line : List Char) :
    (numbered width number line).toList = labelOf width number ++ line := by
  simp [numbered, labelOf, spaces, String.toList_append]

theorem isLabel_labelOf (width number : Nat) : IsLabel (labelOf width number) number :=
  ⟨_, rfl⟩

theorem length_labelOf (n : Nat) :
    (labelOf (toString n).length n).length = (toString n).length + 4 := by
  simp only [labelOf, List.length_append, List.length_replicate, String.length_toList,
    List.length_cons, List.length_nil]
  omega

theorem isDigit_of_mem {c : Char} (h : c ∈ (toString n).toList) : c.isDigit = true := by
  rw [Nat.toString_eq_repr, Nat.toList_repr] at h
  exact Nat.isDigit_of_mem_toDigits (by decide) (by decide) h

theorem IsLabel.exists_bar (h : IsLabel label n) :
    ∃ front, label = front ++ ['|', ' '] ∧ '|' ∉ front ∧
      front.filter Char.isDigit = (toString n).toList := by
  obtain ⟨k, rfl⟩ := h
  refine ⟨List.replicate k ' ' ++ ((toString n).toList ++ [' ']), by simp, fun hbar => ?_, ?_⟩
  · rw [List.mem_append, List.mem_append, List.mem_replicate, List.mem_singleton] at hbar
    obtain ⟨-, hbar⟩ | hbar | hbar := hbar
    · exact absurd hbar (by decide)
    · exact absurd (isDigit_of_mem hbar) (by decide)
    · exact absurd hbar (by decide)
  · rw [List.filter_append, List.filter_append, List.filter_replicate_of_neg (by decide),
      List.nil_append, List.filter_eq_self.2 fun c => isDigit_of_mem]
    exact List.append_nil _

theorem takeWhile_bar {front : List Char} (h : '|' ∉ front) (rest : List Char) :
    (front ++ '|' :: rest).takeWhile (· ≠ '|') = front := by
  rw [List.takeWhile_append_of_pos, List.takeWhile_cons, if_neg (by decide), List.append_nil]
  exact fun c hc => decide_eq_true fun hbar => h (hbar ▸ hc)

theorem IsLabel.digits (h : IsLabel label n) (line : List Char) :
    ((label ++ line).takeWhile (· ≠ '|')).filter Char.isDigit = (toString n).toList := by
  obtain ⟨front, rfl, hbar, hdigits⟩ := h.exists_bar
  rw [List.append_assoc, List.cons_append, takeWhile_bar hbar, hdigits]

theorem IsLabel.eq {label' line line' : List Char} (h : IsLabel label n) (h' : IsLabel label' m)
    (heq : label ++ line = label' ++ line') : n = m := by
  have hdigits := h.digits line
  rw [heq, h'.digits line', Nat.toString_eq_repr, Nat.toString_eq_repr, Nat.toList_repr,
    Nat.toList_repr] at hdigits
  have hread := congrArg (Nat.ofDigitChars 10 · 0) hdigits
  simpa using hread.symm

theorem IsLabel.eq_line {label' line line' : List Char} (h : IsLabel label n)
    (h' : IsLabel label' m) (heq : label ++ line = label' ++ line') : line = line' := by
  obtain ⟨front, rfl, hbar, -⟩ := h.exists_bar
  obtain ⟨front', rfl, hbar', -⟩ := h'.exists_bar
  simp only [List.append_assoc, List.cons_append, List.nil_append] at heq
  have hfront := congrArg (List.takeWhile (· ≠ '|')) heq
  rw [takeWhile_bar hbar, takeWhile_bar hbar'] at hfront
  rw [hfront] at heq
  simpa using List.append_cancel_left heq

theorem not_mem_labelOf : '\n' ∉ labelOf width n := by
  rw [labelOf, List.mem_append, List.mem_append, List.mem_replicate]
  rintro ((⟨-, h⟩ | h) | h)
  · exact absurd h (by decide)
  · exact absurd (isDigit_of_mem h) (by decide)
  · exact absurd h (by decide)

end

section
variable {source : List Char} {s : Span}

def width (source : List Char) (s : Span) : Nat :=
  (toString (firstLine source s + max 1 (shownLines (window source s)).length - 1)).length

def rows (source : List Char) (s : Span) : List (List Char) :=
  (shownLines (window source s)).mapIdx fun i line =>
    labelOf (width source s) (firstLine source s + i) ++ line

def indent (source : List Char) (s : Span) : List Char :=
  List.replicate (width source s + 1) ' ' ++ [' ', '|', ' '] ++
    List.replicate (front source s).length ' '

theorem exists_toList_caretLine (source : List Char) (s : Span) :
    ∃ k, (caretLine (width source s) source s).toList =
      indent source s ++ '^' :: List.replicate k '^' := by
  obtain ⟨k, hk⟩ := Nat.exists_eq_add_of_le (Nat.le_max_left 1 (s.text source).length)
  refine ⟨k, ?_⟩
  rw [caretLine, hk, Nat.add_comm 1 k, List.replicate_succ, indent, front, textLines,
    Text.getLastD_split, List.length_reverse]
  simp [spaces]

theorem not_mem_indent : '^' ∉ indent source s := by
  simp [indent]

theorem not_mem_dropReturn {line : List Char} (h : '\n' ∉ line) : '\n' ∉ dropReturn line := by
  rw [dropReturn]
  split
  · exact fun hmem => h ((List.dropLast_sublist line).subset hmem)
  · exact h

theorem not_mem_of_mem_shownLines {text line : List Char} (h : line ∈ shownLines text) :
    '\n' ∉ line := by
  have hlines : ∀ line ∈ textLines text, '\n' ∉ line := fun _ => Text.not_mem_of_mem_split
  obtain h | h := List.mem_append.1 h
  · obtain ⟨line, hline, rfl⟩ := List.mem_map.1 h
    exact not_mem_dropReturn (hlines line ((List.dropLast_sublist _).subset hline))
  · split at h
    · exact absurd h List.not_mem_nil
    · obtain rfl := List.mem_singleton.1 h
      have hne : textLines text ≠ [] := Text.split_ne_nil _ _
      rw [List.getLastD_eq_getLast?, List.getLast?_eq_some_getLast hne]
      exact hlines _ (List.getLast_mem hne)

theorem not_mem_rows {row : List Char} (h : row ∈ rows source s) : '\n' ∉ row := by
  obtain ⟨i, hi, rfl⟩ := List.mem_mapIdx.1 h
  rw [List.mem_append, not_or]
  exact ⟨not_mem_labelOf, not_mem_of_mem_shownLines (List.getElem_mem hi)⟩

theorem textLines_rows (h : rows source s ≠ []) :
    textLines (joinLines (rows source s)) = rows source s :=
  textLines_joinLines h fun _ => not_mem_rows

theorem toList_intercalate_numbered (source : List Char) (s : Span) :
    ("\n".intercalate ((shownLines (window source s)).mapIdx fun i line =>
      numbered (width source s) (firstLine source s + i) line)).toList =
        joinLines (rows source s) := by
  rw [String.toList_intercalate]
  simp only [rows, List.mapIdx_eq_zipIdx_map, List.map_map, Function.comp_def, toList_numbered]
  rfl

theorem exists_textLines_render (hline : '\n' ∉ s.text source) :
    ∃ carets, textLines (render source s).toList =
      textLines (joinLines (rows source s)) ++ [indent source s ++ '^' :: carets] := by
  obtain ⟨k, hcarets⟩ := exists_toList_caretLine source s
  refine ⟨List.replicate k '^', ?_⟩
  have hrender : (render source s).toList =
      joinLines (rows source s) ++ '\n' :: (indent source s ++ '^' :: List.replicate k '^') := by
    rw [render, if_neg hline, String.toList_append, String.toList_append, ← width, hcarets,
      toList_intercalate_numbered]
    simp
  have hcaret : '\n' ∉ indent source s ++ '^' :: List.replicate k '^' := by
    simp [indent]
  rw [hrender, textLines, Text.split_append_separator, Text.split_of_not_mem hcaret, textLines]

theorem exists_rows_of_ne_nil (hline : '\n' ∉ s.text source)
    (hne : front source s ++ behind source s ≠ []) :
    ∃ above label, rows source s = above ++ [label ++ (front source s ++ behind source s)] ∧
      IsLabel label (textLines (source.take s.start)).length ∧
      label.length = width source s + 4 := by
  have hshown := shownLines_window hline
  rw [if_neg hne] at hshown
  have hwidth : width source s = (toString (textLines (source.take s.start)).length).length := by
    rw [width, hshown, List.length_append, List.length_map, List.length_singleton,
      ← firstLine_add source s, Nat.max_eq_right (Nat.le_add_left 1 _)]
    rfl
  rw [rows, hshown, List.mapIdx_concat, List.length_map, firstLine_add]
  refine ⟨_, _, rfl, isLabel_labelOf _ _, ?_⟩
  rw [hwidth, length_labelOf]

theorem rows_eq_nil_or (hline : '\n' ∉ s.text source)
    (hnil : front source s ++ behind source s = []) :
    rows source s = [] ∨ ∃ above label line number, rows source s = above ++ [label ++ line] ∧
      IsLabel label number ∧ number < (textLines (source.take s.start)).length := by
  have hshown := shownLines_window hline
  rw [if_pos hnil, List.append_nil] at hshown
  obtain h | ⟨lines, line, h⟩ := List.eq_nil_or_concat (lead source s).dropLast
  · rw [h] at hshown
    left
    rw [rows, hshown]
    rfl
  · have hnumber := firstLine_add source s
    rw [h, List.concat_eq_append, List.length_append, List.length_singleton] at hnumber
    rw [h, List.concat_eq_append, List.map_append, List.map_singleton] at hshown
    rw [rows, hshown, List.mapIdx_concat, List.length_map]
    refine .inr ⟨_, _, _, _, rfl, isLabel_labelOf _ _, ?_⟩
    omega

/-- The caret of a span that stays on one line points at the location of the span, unless the line
is empty. -/
theorem pointsAt_iff (hs : s.start ≤ s.stop) (hline : '\n' ∉ s.text source) :
    PointsAt (render source s).toList source (Location.atOffset source s.start) ↔
      front source s ++ behind source s ≠ [] := by
  obtain ⟨carets, hlines⟩ := exists_textLines_render hline
  rw [Location.atOffset_eq]
  constructor
  · rintro ⟨above, label, left, right, indent', carets', hshown, hlabel, hget, -, -, -⟩ hnil
    have hsplit : textLines (joinLines (rows source s)) ++ [indent source s ++ '^' :: carets] =
        above ++ [label ++ (left ++ right)] ++ [indent' ++ '^' :: carets'] := by
      rw [← hlines, hshown, List.append_assoc]
      rfl
    have habove := (List.append_inj' hsplit rfl).1
    obtain hempty | ⟨above', label', line, number, hrow, hlabel', hnumber⟩ :=
      rows_eq_nil_or hline hnil
    · rw [hempty] at habove
      have hrow : [] ++ [[]] = above ++ [label ++ (left ++ right)] := habove
      obtain ⟨k, rfl⟩ := hlabel
      have hlast := (List.append_inj' hrow rfl).2
      simp at hlast
    · rw [textLines_rows (by simp [hrow]), hrow] at habove
      have hlast := List.singleton_inj.1 (List.append_inj' habove rfl).2
      exact absurd (hlabel'.eq hlabel hlast) (Nat.ne_of_lt hnumber)
  · intro hne
    obtain ⟨above, label, hrow, hlabel, hlength⟩ := exists_rows_of_ne_nil hline hne
    refine ⟨above, label, front source s, behind source s, indent source s, carets, ?_, hlabel,
      getElem?_textLines hs hline, rfl, not_mem_indent, ?_⟩
    · rw [hlines, textLines_rows (by simp [hrow]), hrow, List.append_assoc]
      rfl
    · simp only [indent, List.length_append, List.length_replicate, hlength]
      rfl

end

end Snippet

namespace Lexeme

/-- The caret below a token that stays on one line points at the location of the token. The one
below the end of a source does unless the last line of the source is empty. -/
theorem caret_pointsAt_iff {source : List Char} {l : Lexeme}
    (hl : l ∈ scan source ++ [finish source]) (hline : '\n' ∉ l.span.text source) :
    Snippet.PointsAt (Snippet.render source l.span).toList source
        (Location.atOffset source l.span.start) ↔
      ¬ (l = finish source ∧ (textLines source).getLastD [] = []) := by
  obtain hl | hl := List.mem_append.1 hl
  · obtain ⟨hstart, hstop⟩ := start_lt_stop hl
    have hfinish : l ≠ finish source := by
      rintro rfl
      rw [finish_span] at hstart
      exact Nat.lt_irrefl _ hstart
    obtain ⟨before, c, part, rest, -, htext, -⟩ := exists_of_mem_scan hl
    have hne : Snippet.front source l.span ++ Snippet.behind source l.span ≠ [] := by
      simp [Snippet.behind, htext]
    rw [Snippet.pointsAt_iff hstart.le hline]
    exact iff_of_true hne fun h => hfinish h.1
  · obtain rfl := List.mem_singleton.1 hl
    rw [finish_span] at hline ⊢
    have hbehind : Snippet.behind source ⟨source.length, source.length⟩ = [] := by
      simp [Snippet.behind, Span.text]
    rw [Snippet.pointsAt_iff le_rfl hline, hbehind, List.append_nil, Snippet.front,
      List.take_length]
    simp

/-- A dollar sign alone on the second line. -/
theorem caret_pointsAt_dollar :
    (⟨.invalid, ⟨8, 9⟩, ⟨2, 3⟩⟩ : Lexeme) ∈
      scan "query\n  $\n".toList ++ [finish "query\n  $\n".toList] ∧
    '\n' ∉ Span.text ⟨8, 9⟩ "query\n  $\n".toList ∧
    Snippet.PointsAt (Snippet.render "query\n  $\n".toList ⟨8, 9⟩).toList "query\n  $\n".toList
      (Location.atOffset "query\n  $\n".toList 8) := by
  have hl : (⟨.invalid, ⟨8, 9⟩, ⟨2, 3⟩⟩ : Lexeme) ∈
      scan "query\n  $\n".toList ++ [finish "query\n  $\n".toList] := by decide
  have hline : '\n' ∉ Span.text ⟨8, 9⟩ "query\n  $\n".toList := by decide
  exact ⟨hl, hline, (caret_pointsAt_iff hl hline).2 (by decide)⟩

/-- The source ends behind a line feed. The end is at 2:1, and above the caret stands line 1. -/
theorem caret_not_pointsAt :
    finish "query\n".toList = ⟨.finish, ⟨6, 6⟩, ⟨2, 1⟩⟩ ∧
    '\n' ∉ Span.text ⟨6, 6⟩ "query\n".toList ∧
    Snippet.render "query\n".toList ⟨6, 6⟩ = " 1 | query\n   | ^" ∧
    ¬ Snippet.PointsAt (Snippet.render "query\n".toList ⟨6, 6⟩).toList "query\n".toList
      (Location.atOffset "query\n".toList 6) := by
  have hline : '\n' ∉ Span.text ⟨6, 6⟩ "query\n".toList := by decide
  refine ⟨by decide, hline, by decide, ?_⟩
  rw [Snippet.pointsAt_iff (s := ⟨6, 6⟩) (by decide) hline]
  decide

end Lexeme
end GraphQLCheck
