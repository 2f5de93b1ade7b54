import GraphQLCheck.Traversal.Path
import Mathlib.Data.List.Basic

/-!
Paths that are printed and read again. A segment is read back from its text, which has no dot in
it, so that the pieces of a printed path are the texts of its segments. Only the path without
segments is not read back (`Path.read_render`): its text is empty, which has one empty piece and
not none.
-/
namespace GraphQLCheck

namespace Segment

theorem toList_toString (n : Nat) : (toString n).toList = Nat.toDigits 10 n := by
  rw [Nat.toString_eq_repr, Nat.toList_repr]

theorem foldl_toDigits (n : Nat) :
    (Nat.toDigits 10 n).foldl (fun n d => n * 10 + (d.toNat - '0'.toNat)) 0 = n := by
  conv_rhs => rw [← Nat.ofDigitChars_toDigits (b := 10) (n := n) (by decide) (by decide)]
  rw [Nat.ofDigitChars]
  simp only [Nat.mul_comm]

theorem index?_of_digits {text : List Char} (hne : text ≠ [])
    (hdigits : ∀ c ∈ text, c.isDigit = true) :
    index? text =
      let n := text.foldl (fun n d => n * 10 + (d.toNat - '0'.toNat)) 0
      if n ≤ maxIndex then some n else none := by
  have hempty : text.isEmpty = false := by simpa using hne
  have hall : text.all Char.isDigit = true := List.all_eq_true.2 hdigits
  have hplus : ∀ ds, text ≠ '+' :: ds := by
    rintro ds rfl
    exact absurd (hdigits '+' List.mem_cons_self) (by decide)
  unfold index?
  split
  · exact absurd rfl (hplus _)
  · simp [hempty, hall]

theorem index?_toString {n : Nat} (h : n ≤ maxIndex) :
    index? (toString n).toList = some n := by
  have hdigits : ∀ c ∈ Nat.toDigits 10 n, c.isDigit = true :=
    fun _ => Nat.isDigit_of_mem_toDigits (by decide) (by decide)
  rw [toList_toString, index?_of_digits Nat.toDigits_ne_nil hdigits]
  simp only [foldl_toDigits, if_pos h]

theorem read_keyword : ∀ s ∈ keywords, read s.render.toList = .ok s := by
  decide

theorem read_text {s : Segment} (h : ∀ n, s = .index n → n ≤ maxIndex) :
    read s.render.toList = .ok s := by
  by_cases hkeyword : s ∈ keywords
  · exact read_keyword s hkeyword
  · cases s with
    | index n => rw [render, read, index?_toString (h n rfl)]
    | _ => exact absurd (by decide) hkeyword

theorem dot_not_mem_text (s : Segment) : '.' ∉ s.render.toList := by
  cases s with
  | index n =>
    rw [render, toList_toString]
    intro h
    exact absurd (Nat.isDigit_of_mem_toDigits (by decide) (by decide) h) (by decide)
  | _ => decide

end Segment

namespace Path

theorem split_render {p : Path} (h : p ≠ root) :
    Text.split '.' p.render.toList = p.segments.map fun s => s.render.toList := by
  have hne : p.segments ≠ [] := fun hnil => h (congrArg Path.mk hnil)
  have hpieces : p.render.toList = ['.'].intercalate (p.segments.map fun s => s.render.toList) := by
    rw [render, String.toList_intercalate, List.map_map]
    rfl
  rw [hpieces, Text.split_intercalate (by simpa using hne)]
  intro piece hpiece
  obtain ⟨s, -, rfl⟩ := List.mem_map.1 hpiece
  exact s.dot_not_mem_text

theorem mapM_read_text {ss : List Segment} (h : ∀ n, Segment.index n ∈ ss → n ≤ Segment.maxIndex) :
    (ss.map fun s => s.render.toList).mapM Segment.read = .ok ss := by
  induction ss with
  | nil => rfl
  | cons s ss ih =>
    have hs : Segment.read s.render.toList = .ok s :=
      Segment.read_text fun n hn => h n (hn ▸ List.mem_cons_self)
    have hss := ih fun n hn => h n (List.mem_cons_of_mem s hn)
    rw [List.map_cons, List.mapM_cons, hs, hss]
    rfl

/-- A path is read back from its text, unless it has no segments. The empty text of such a path is
refused, as an empty segment is. -/
theorem read_render {p : Path} (h : ∀ n, Segment.index n ∈ p.segments → n ≤ Segment.maxIndex) :
    read p.render = if p = root then .error (.plain "Invalid path segment " (some .usage))
      else .ok p := by
  split
  · rename_i hroot
    subst hroot
    rfl
  · rename_i hroot
    rw [read, split_render hroot, mapM_read_text h]
    rfl

theorem read_render_largest :
    (∀ n, Segment.index n ∈ [.index 18446744073709551615, .selectionSet, .index 0] →
        n ≤ Segment.maxIndex) ∧
      read "18446744073709551615.selectionSet.0" =
        .ok ⟨[.index 18446744073709551615, .selectionSet, .index 0]⟩ := by
  have hbound : ∀ n, Segment.index n ∈ [.index 18446744073709551615, .selectionSet, .index 0] →
      n ≤ Segment.maxIndex := by
    simp [Segment.maxIndex, UInt64.size]
  exact ⟨hbound, read_render (p := ⟨[.index 18446744073709551615, .selectionSet, .index 0]⟩) hbound⟩

/-- The path of a document is not read back. -/
theorem read_render_root_ne : root.render = "" ∧ read root.render ≠ .ok root :=
  ⟨rfl, nofun⟩

end Path
end GraphQLCheck
