import GraphQLCheck.Proofs.Source.LineTracker
import GraphQLCheck.Proofs.Token.Locations
import GraphQLCheck.Token.Context
import Mathlib.Logic.Function.Iterate

/-!
A context that takes tokens when they are asked for answers as a cursor does, which has them all.
Both stand in front of the same token after each request (`Context.Follows.answer`), so that all
answers agree (`Context.answers_ofSource`). Of the locations it follows that they are the ones
computed anew.
-/
namespace GraphQLCheck

namespace Context

variable {source : List Char} {c : Context} {d : Cursor}

/-- A context and a cursor stand in front of the same token of a source. The context may have taken
it already. -/
structure Follows (source : List Char) (c : Context) (d : Cursor) : Prop where
  source_eq : c.source = source
  tracked_eq : c.tracked = d.tracked
  tracks : c.lines.Tracks source
  finish_eq : d.finish = Position.start.after source
  suffix : d.ahead <:+ Lexeme.scan source
  ahead : c.peeked = none ∧ c.ahead = d.ahead ∨
    c.peeked = some d.peek ∧ c.ahead = d.ahead.tail ∧ c.span = bytes source d.head.span

theorem follows_ofSource (tracked : Bool) (source : List Char) :
    (ofSource tracked source).Follows source (.ofSource tracked source) :=
  ⟨rfl, rfl, LineTracker.tracks_start source, rfl, List.suffix_rfl, .inl ⟨rfl, rfl⟩⟩

theorem Follows.head_mem (h : c.Follows source d) :
    d.head ∈ Lexeme.scan source ++ [Lexeme.finish source] := by
  cases hahead : d.ahead with
  | nil =>
    refine List.mem_append_right _ (List.mem_singleton.2 ?_)
    rw [Cursor.head, hahead, h.finish_eq]
    rfl
  | cons l ls =>
    refine List.mem_append_left _ (h.suffix.subset ?_)
    rw [Cursor.head, hahead]
    exact List.mem_cons_self

theorem Follows.take_eq (h : c.Follows source d) (hahead : c.ahead = d.ahead) :
    c.take = (d.peek, { c with ahead := d.ahead.tail, span := bytes source d.head.span }) := by
  rw [take, Cursor.peek, Cursor.head, h.source_eq]
  cases hd : d.ahead with
  | nil =>
    have hoffset : d.finish.offset = source.length := by
      rw [h.finish_eq]
      exact Nat.zero_add _
    simp only [hahead, hd, hoffset, List.tail_nil]
  | cons l ls =>
    simp only [hahead, hd, List.tail_cons]

theorem Follows.next_spec (h : c.Follows source d) :
    c.next.1 = d.peek ∧ c.next.2.Follows source d.next ∧
      c.next.2.span = bytes source d.head.span := by
  have hsuffix : d.next.ahead <:+ Lexeme.scan source := (List.tail_suffix d.ahead).trans h.suffix
  obtain ⟨hpeeked, hahead⟩ | ⟨hpeeked, hahead, hspan⟩ := h.ahead
  · have hnext : c.next =
        (d.peek, { c with ahead := d.ahead.tail, span := bytes source d.head.span }) := by
      simp only [next, hpeeked, h.take_eq hahead]
    rw [hnext]
    exact ⟨rfl, ⟨h.source_eq, h.tracked_eq, h.tracks, h.finish_eq, hsuffix, .inl ⟨hpeeked, rfl⟩⟩,
      rfl⟩
  · have hnext : c.next = (d.peek, { c with peeked := none }) := by
      simp only [next, hpeeked]
    rw [hnext]
    exact ⟨rfl, ⟨h.source_eq, h.tracked_eq, h.tracks, h.finish_eq, hsuffix, .inl ⟨rfl, hahead⟩⟩,
      hspan⟩

theorem Follows.peek_spec (h : c.Follows source d) :
    c.peek.1 = d.peek ∧ c.peek.2.Follows source d ∧ c.peek.2.span = bytes source d.head.span := by
  obtain ⟨hpeeked, hahead⟩ | ⟨hpeeked, hahead, hspan⟩ := h.ahead
  · have hpeek : c.peek = (d.peek, { c with
        peeked := some d.peek, ahead := d.ahead.tail, span := bytes source d.head.span }) := by
      simp only [peek, hpeeked, h.take_eq hahead]
    rw [hpeek]
    exact ⟨rfl, ⟨h.source_eq, h.tracked_eq, h.tracks, h.finish_eq, h.suffix, .inr ⟨rfl, rfl, rfl⟩⟩,
      rfl⟩
  · have hpeek : c.peek = (d.peek, c) := by
      simp only [peek, hpeeked]
    rw [hpeek]
    exact ⟨rfl, h, hspan⟩

theorem Follows.locate_spec (h : c.Follows source d) :
    c.locate.1 = d.mark ∧ c.locate.2.Follows source d := by
  rw [locate, Cursor.mark, h.tracked_eq]
  by_cases htracked : d.tracked
  · obtain ⟨-, hfollows, hspan⟩ := h.peek_spec
    have hstart := Lexeme.start_le h.head_mem
    have hoffset : min c.peek.2.span.start (Utf8.size c.peek.2.source) =
        Utf8.size (source.take d.head.span.start) := by
      rw [hspan, hfollows.source_eq]
      exact Nat.min_eq_left (Utf8.size_take_le _ source)
    have htracks : c.peek.2.lines.Tracks
        (source.take d.head.span.start ++ source.drop d.head.span.start) := by
      rw [List.take_append_drop]
      exact hfollows.tracks
    have hlocate := LineTracker.locate_size _ _ htracks
    rw [List.take_append_drop, List.length_take, Nat.min_eq_left hstart,
      ← Lexeme.location_eq h.head_mem] at hlocate
    rw [if_pos htracked, if_pos htracked]
    dsimp only
    rw [hoffset, hfollows.source_eq]
    exact ⟨congrArg some hlocate.1, rfl, hfollows.tracked_eq, hlocate.2, hfollows.finish_eq,
      hfollows.suffix, hfollows.ahead⟩
  · rw [if_neg htracked, if_neg htracked]
    exact ⟨rfl, h⟩

theorem Follows.answer (h : c.Follows source d) (r : Request) :
    (c.answer r).1 = (d.answer r).1 ∧ (c.answer r).2.Follows source (d.answer r).2 := by
  cases r with
  | next => exact ⟨congrArg Answer.token h.next_spec.1, h.next_spec.2.1⟩
  | peek => exact ⟨congrArg Answer.token h.peek_spec.1, h.peek_spec.2.1⟩
  | locate => exact h.locate_spec.imp_left (congrArg Answer.location)

theorem Follows.answers (h : c.Follows source d) (requests : List Request) :
    c.answers requests = d.answers requests := by
  induction requests generalizing c d with
  | nil => rfl
  | cons r requests ih =>
    obtain ⟨hanswer, hfollows⟩ := h.answer r
    rw [Context.answers, Cursor.answers, hanswer, ih hfollows]

/-- Taking tokens on demand and finding locations with a tracker makes no difference. -/
theorem answers_ofSource (tracked : Bool) (source : List Char) (requests : List Request) :
    (ofSource tracked source).answers requests =
      (Cursor.ofSource tracked source).answers requests :=
  (follows_ofSource tracked source).answers requests

end Context

namespace Cursor

theorem getElem?_answers (d : Cursor) (requests : List Request) (i : Nat) :
    (d.answers requests)[i]? = requests[i]?.map fun r =>
      ((next^[(requests.take i).count .next] d).answer r).1 := by
  induction requests generalizing d i with
  | nil => rfl
  | cons r requests ih =>
    cases i with
    | zero => rfl
    | succ i =>
      rw [answers, List.getElem?_cons_succ, ih, List.getElem?_cons_succ, List.take_succ_cons,
        List.count_cons]
      cases r <;> rfl

theorem iterate_next (d : Cursor) (k : Nat) : next^[k] d = { d with ahead := d.ahead.drop k } := by
  induction k with
  | zero => rfl
  | succ k ih => rw [Function.iterate_succ_apply', ih, next, List.tail_drop]

theorem head_iterate_next (tracked : Bool) (source : List Char) (k : Nat) :
    (next^[k] (ofSource tracked source)).head =
      (Lexeme.scan source)[k]?.getD (Lexeme.finish source) := by
  rw [iterate_next, head, ← List.head?_drop]
  cases hdrop : (Lexeme.scan source).drop k with
  | nil => simp only [ofSource, hdrop]; rfl
  | cons l ls => simp only [ofSource, hdrop]; rfl

end Cursor

namespace Context

/-- However tokens are consumed and looked at in between, a context that tracks locates the token
that is consumed next, by what stands in front of it. -/
theorem location_answer (source : List Char) {requests : List Request} {i : Nat}
    (h : requests[i]? = some .locate) :
    ((ofSource true source).answers requests)[i]? = some (.location (some
      (Location.atOffset source ((Lexeme.scan source)[(requests.take i).count .next]?.getD
        (Lexeme.finish source)).span.start))) := by
  generalize hk : (requests.take i).count .next = k
  have hmem : (Lexeme.scan source)[k]?.getD (Lexeme.finish source) ∈
      Lexeme.scan source ++ [Lexeme.finish source] := by
    cases hget : (Lexeme.scan source)[k]? with
    | none => exact List.mem_append_right _ List.mem_cons_self
    | some l => exact List.mem_append_left _ (List.mem_of_getElem? hget)
  have hmark : (Cursor.next^[k] (.ofSource true source)).mark =
      some ((Lexeme.scan source)[k]?.getD (Lexeme.finish source)).location := by
    rw [Cursor.mark, Cursor.location, Cursor.head_iterate_next, Cursor.iterate_next]
    rfl
  rw [answers_ofSource, Cursor.getElem?_answers, h, hk, Option.map_some,
    Cursor.answer, hmark, Lexeme.location_eq hmem]

/-- The third token, behind a comment and a block string of two lines. -/
theorem location_answer_third :
    [Request.locate, .next, .peek, .next, .locate][4]? = some .locate ∧
    ((ofSource true "a # é\r\n\"\"\"é\nx\"\"\" b".toList).answers
      [.locate, .next, .peek, .next, .locate])[4]? = some (.location (some ⟨3, 6⟩)) := by
  have hrequest : [Request.locate, .next, .peek, .next, .locate][4]? = some .locate := rfl
  exact ⟨hrequest, (location_answer _ hrequest).trans (by decide)⟩

end Context
end GraphQLCheck
