import GraphQLCheck.Source.LineTracker
import Mathlib.Data.List.Infix

/-!
Tracked locations are the ones that are computed anew. Of the text that it scanned a tracker keeps
how many lines ended in it and where the last of them ended (`LineTracker.Knows`). That holds at the
start and after each offset of a source, whether it lies in front of what was scanned or behind it
(`LineTracker.locate_size`).
-/
namespace GraphQLCheck

namespace Utf8

theorem encode_append (a b : List Char) : encode (a ++ b) = encode a ++ encode b :=
  List.flatMap_append

theorem size_append (a b : List Char) : size (a ++ b) = size a + size b := by
  rw [size, encode_append, List.length_append, ← size, ← size]

theorem size_cons (c : Char) (cs : List Char) : size (c :: cs) = c.utf8Size + size cs := by
  rw [size, encode, List.flatMap_cons, List.length_append, String.length_utf8EncodeChar, ← encode,
    ← size]

theorem size_take_le (n : Nat) (text : List Char) : size (text.take n) ≤ size text := by
  conv_rhs => rw [← List.take_append_drop n text, size_append]
  exact Nat.le_add_right _ _

theorem size_eq_zero {text : List Char} : size text = 0 ↔ text = [] := by
  cases text with
  | nil => exact iff_of_true rfl rfl
  | cons c cs =>
    have hc := c.utf8Size_pos
    rw [size_cons]
    exact iff_of_false (by omega) (List.cons_ne_nil c cs)

theorem take_size (a b : List Char) : take (size a) (a ++ b) = a := by
  induction a with
  | nil => cases b <;> rfl
  | cons c a ih =>
    have hc := c.utf8Size_pos
    rw [size_cons, List.cons_append, take, if_neg (by omega), Nat.add_sub_cancel_left, ih]

theorem drop_size (a b : List Char) : drop (size a) (a ++ b) = b := by
  induction a with
  | nil => cases b <;> rfl
  | cons c a ih =>
    have hc := c.utf8Size_pos
    rw [size_cons, List.cons_append, drop, if_neg (by omega), Nat.add_sub_cancel_left, ih]

theorem lineFeed_mem_encode {c : Char} (h : '\n'.toUInt8 ∈ String.utf8EncodeChar c) : c = '\n' := by
  have hlead : ∀ n, n < 256 → '\n'.toUInt8 = UInt8.ofNat n → n = 10 := by
    intro n hn hbyte
    have hnat := congrArg UInt8.toNat hbyte
    rw [UInt8.toNat_ofNat', Nat.mod_eq_of_lt hn] at hnat
    exact hnat.symm
  simp only [String.utf8EncodeChar] at h
  split at h
  · have hc := hlead c.val.toNat (by omega) (List.mem_singleton.1 h)
    exact Char.ext (UInt32.toNat_inj.1 hc)
  · split at h
    · simp only [List.mem_cons, List.not_mem_nil, or_false] at h
      obtain h | h := h <;> exact absurd (hlead _ (by omega) h) (by omega)
    · split at h
      · simp only [List.mem_cons, List.not_mem_nil, or_false] at h
        obtain h | h | h := h <;> exact absurd (hlead _ (by omega) h) (by omega)
      · simp only [List.mem_cons, List.not_mem_nil, or_false] at h
        obtain h | h | h | h := h <;> exact absurd (hlead _ (by omega) h) (by omega)

end Utf8

theorem Location.atOffset_lines {ended current : List Char} (rest : List Char)
    (hended : ∀ c ∈ ended.getLast?, c = '\n') (hcurrent : '\n' ∉ current) :
    atOffset (ended ++ current ++ rest) (ended ++ current).length =
      ⟨ended.count '\n' + 1, current.length + 1⟩ := by
  have hcolumn : (ended ++ current).reverse.takeWhile (· ≠ '\n') = current.reverse := by
    have hstop : ended.reverse.takeWhile (· ≠ '\n') = [] := by
      obtain rfl | ⟨ended, c, rfl⟩ := List.eq_nil_or_concat ended
      · rfl
      · obtain rfl : c = '\n' := hended c (by simp)
        simp
    rw [List.reverse_append, List.takeWhile_append_of_pos, hstop, List.append_nil]
    intro c hc
    exact decide_eq_true fun h => hcurrent (h ▸ List.mem_reverse.1 hc)
  rw [atOffset, List.take_left, hcolumn, List.length_reverse, List.count_append,
    List.count_eq_zero.2 hcurrent, Nat.add_zero]

theorem Location.atByte_size (before rest : List Char) :
    atByte (before ++ rest) (Utf8.size before) = atOffset (before ++ rest) before.length := by
  rw [atByte, Utf8.take_size]
  simp [atOffset]

namespace LineTracker

/-- What a tracker keeps of a text: the lines that ended in it, and where the last of them ended. -/
def Knows (t : LineTracker) (text : List Char) : Prop :=
  ∃ ended current, text = ended ++ current ∧ (∀ c ∈ ended.getLast?, c = '\n') ∧ '\n' ∉ current ∧
    t.line = ended.count '\n' + 1 ∧ t.lineStart = Utf8.size ended

theorem foldl_see_of_not_mem {bytes : List UInt8} (h : '\n'.toUInt8 ∉ bytes) (t : LineTracker)
    (offset : Nat) : (bytes.zipIdx offset).foldl (fun u x => u.see x.1 x.2) t = t := by
  induction bytes generalizing offset with
  | nil => rfl
  | cons byte bytes ih =>
    obtain ⟨hbyte, hbytes⟩ := not_or.1 (mt List.mem_cons.2 h)
    rw [List.zipIdx_cons, List.foldl_cons, see, if_neg (Ne.symm hbyte), ih hbytes]

theorem Knows.see_char {t : LineTracker} {text : List Char} (h : t.Knows text) (c : Char) :
    (((String.utf8EncodeChar c).zipIdx (Utf8.size text)).foldl (fun u x => u.see x.1 x.2) t).Knows
      (text ++ [c]) := by
  obtain ⟨ended, current, rfl, hended, hcurrent, hline, hstart⟩ := h
  by_cases hc : c = '\n'
  · subst hc
    have hsee : ((String.utf8EncodeChar '\n').zipIdx (Utf8.size (ended ++ current))).foldl
        (fun u x => u.see x.1 x.2) t =
          { t with line := t.line + 1, lineStart := Utf8.size (ended ++ current) + 1 } := rfl
    rw [hsee]
    refine ⟨ended ++ current ++ ['\n'], [], by simp, by simp, nofun, ?_,
      (Utf8.size_append _ ['\n']).symm⟩
    simp [hline, List.count_eq_zero.2 hcurrent]
  · rw [foldl_see_of_not_mem fun h => hc (Utf8.lineFeed_mem_encode h)]
    refine ⟨ended, current ++ [c], by simp, hended, ?_, hline, hstart⟩
    simp [hcurrent, Ne.symm hc]

theorem Knows.see_text {t : LineTracker} {text : List Char} (h : t.Knows text) (more : List Char) :
    (((Utf8.encode more).zipIdx (Utf8.size text)).foldl (fun u x => u.see x.1 x.2) t).Knows
      (text ++ more) := by
  induction more generalizing t text with
  | nil =>
    rw [List.append_nil]
    exact h
  | cons c more ih =>
    have hsize : Utf8.size text + (String.utf8EncodeChar c).length = Utf8.size (text ++ [c]) := by
      rw [Utf8.size_append, Utf8.size_cons, String.length_utf8EncodeChar]
      rfl
    rw [Utf8.encode, List.flatMap_cons, ← Utf8.encode, List.zipIdx_append, List.foldl_append,
      hsize, List.append_cons text c more]
    exact ih (h.see_char c)

/-- A tracker came to the end of some text that a source begins with, and knows it. -/
def Tracks (t : LineTracker) (source : List Char) : Prop :=
  ∃ text, text <+: source ∧ t.scanned = Utf8.size text ∧ t.Knows text

theorem tracks_start (source : List Char) : start.Tracks source :=
  ⟨[], List.nil_prefix, rfl, [], [], rfl, nofun, nofun, rfl, rfl⟩

theorem exists_append_of_size_le {source text before : List Char} (htext : text <+: source)
    (hbefore : before <+: source) (hle : Utf8.size text ≤ Utf8.size before) :
    ∃ more, before = text ++ more := by
  obtain ⟨more, rfl⟩ | ⟨more, rfl⟩ := List.prefix_or_prefix_of_prefix htext hbefore
  · exact ⟨more, rfl⟩
  · rw [Utf8.size_append] at hle
    rw [Utf8.size_eq_zero.1 (by omega : Utf8.size more = 0), List.append_nil]
    exact ⟨[], (List.append_nil _).symm⟩

/-- The location of an offset of a source is the one that is computed anew, and the tracker tracks
on. -/
theorem locate_size {t : LineTracker} (before rest : List Char) (h : t.Tracks (before ++ rest)) :
    (t.locate (before ++ rest) (Utf8.size before)).1 =
        Location.atOffset (before ++ rest) before.length ∧
      (t.locate (before ++ rest) (Utf8.size before)).2.Tracks (before ++ rest) := by
  by_cases hoffset : Utf8.size before < t.scanned
  · rw [locate, if_pos hoffset]
    exact ⟨Location.atByte_size before rest, h⟩
  · obtain ⟨text, htext, hscanned, hknows⟩ := h
    rw [hscanned, Nat.not_lt] at hoffset
    obtain ⟨more, rfl⟩ := exists_append_of_size_le htext (List.prefix_append before rest) hoffset
    have hbytes : ((Utf8.encode (text ++ more ++ rest)).take (Utf8.size (text ++ more))).drop
        t.scanned = Utf8.encode more := by
      rw [Utf8.encode_append, Utf8.size, List.take_left, Utf8.encode_append, hscanned, Utf8.size,
        List.drop_left]
    have hknows' : (t.advance (text ++ more ++ rest) (Utf8.size (text ++ more))).Knows
        (text ++ more) := by
      rw [advance, hbytes, hscanned]
      exact hknows.see_text more
    rw [locate, if_neg (by omega)]
    refine ⟨?_, text ++ more, List.prefix_append _ rest, rfl, hknows'⟩
    obtain ⟨ended, current, heq, hended, hcurrent, hline, hstart⟩ := hknows'
    dsimp only
    rw [Utf8.take_size, hline, hstart, heq, Utf8.drop_size,
      Location.atOffset_lines rest hended hcurrent]

end LineTracker
end GraphQLCheck
