import GraphQLCheck.Proofs.Source.Excerpt
import GraphQLCheck.Proofs.Token.Context
import GraphQLCheck.Proofs.Token.Spelling
import GraphQLCheck.Token.Script

/-!
A script ends on a context as it does on a cursor. Where it fails, the context took the token last
in front of which the cursor stands, whether places are kept or not (`Script.agrees`). A reader that
is the run of a script (`Scripted`) reads from a source what the script reads of it token by token,
with the same error at the same place (`Scripted.read?_eq`).
-/
namespace GraphQLCheck

theorem Lexeme.exists_middle {source : List Char} {l : Lexeme}
    (hl : l ∈ scan source ++ [finish source]) :
    ∃ a t b, source = a ++ t ++ b ∧ l.span = Excerpt.middle a t := by
  obtain hl | hl := List.mem_append.1 hl
  · obtain ⟨before, c, part, rest, t, rfl, -, rfl⟩ := exists_of_mem_scanAt (p := .start) hl
    refine ⟨before, c :: part, rest, by simp, ?_⟩
    simp [Excerpt.middle, Position.after, Position.start]
  · obtain rfl := List.mem_singleton.1 hl
    exact ⟨source, [], [], by simp, by simp [finish_span, Excerpt.middle]⟩

namespace Context

variable {source : List Char} {c : Context} {d : Cursor}

theorem Follows.left_eq (h : c.Follows source d) : c.left = d.ahead.length := by
  obtain ⟨hpeeked, hahead⟩ | ⟨hpeeked, hahead, -⟩ := h.ahead
  · simp only [left, hpeeked, hahead]
  · rw [left, hpeeked, hahead, Cursor.peek, Cursor.head]
    cases hd : d.ahead with
    | nil => rfl
    | cons l ls =>
      have hl : l.token ≠ .finish :=
        Lexeme.ne_finish_of_mem_scan (h.suffix.subset (hd ▸ List.mem_cons_self))
      simp only [List.tail_cons, List.length_cons]

theorem error?_eq {l : Lexeme} (hl : l ∈ Lexeme.scan source ++ [Lexeme.finish source])
    (hsource : c.source = source) (hspan : c.span = bytes source l.span) (message : String) :
    c.error? message = some (l.error source message) := by
  obtain ⟨a, t, b, rfl, hmiddle⟩ := Lexeme.exists_middle hl
  have hbytes : c.span = Excerpt.middleBytes a t := by
    rw [hspan, hmiddle, bytes, Excerpt.take_middle]
    simp only [Excerpt.middle, List.take_left]
    rfl
  rw [error?, hsource, hbytes, Excerpt.render?_middle, Excerpt.middleBytes, Excerpt.location?_eq,
    Lexeme.error, hmiddle, Lexeme.location_eq hl, hmiddle]
  rfl

end Context

/-- A context and a cursor came to the same end. After a failure the context stands at the token
that was refused. -/
inductive Agrees {ε α : Type} (source : List Char) :
    Option (Except ε α) × Context → Outcome ε α → Prop
  | done {a : α} {c : Context} {d : Cursor} (h : c.Follows source d) :
    Agrees source (some (.ok a), c) (.done a d)
  | failed {e : ε} {c : Context} {d : Cursor} (hsource : c.source = source)
    (hhead : d.head ∈ Lexeme.scan source ++ [Lexeme.finish source])
    (hspan : c.span = Context.bytes source d.head.span) :
    Agrees source (some (.error e), c) (.failed e d)
  | unfinished {c : Context} : Agrees source (none, c) .unfinished

namespace Script

variable {ε α β : Type}

theorem agrees (s : Script ε α) {source : List Char} {c : Context} {d : Cursor}
    (h : c.Follows source d) : Agrees source (s.onContext c) (s.onCursor d) := by
  induction s generalizing c d with
  | done a => exact .done h
  | unfinished => exact .unfinished
  | next refuse go ih =>
    obtain ⟨htoken, hfollows, hspan⟩ := h.next_spec
    rw [onContext, onCursor, htoken]
    cases refuse d.peek with
    | some e => exact .failed hfollows.source_eq h.head_mem hspan
    | none => exact ih d.peek hfollows
  | peek refuse go ih =>
    obtain ⟨htoken, hfollows, hspan⟩ := h.peek_spec
    rw [onContext, onCursor, htoken]
    cases refuse d.peek with
    | some e => exact .failed hfollows.source_eq h.head_mem hspan
    | none => exact ih d.peek hfollows
  | locate go ih =>
    obtain ⟨hlocation, hfollows⟩ := h.locate_spec
    rw [onContext, onCursor, hlocation]
    exact ih d.mark hfollows
  | left go ih =>
    rw [onContext, onCursor, h.left_eq]
    exact ih d.ahead.length h

theorem onCursor_bind (s : Script ε α) (f : α → Script ε β) :
    (s.bind f).onCursor = s.onCursor >>= fun a => (f a).onCursor := by
  funext c
  rw [Reader.bind_apply, Reader.bind]
  induction s generalizing c with
  | done a => rfl
  | unfinished => rfl
  | next refuse go ih =>
    rw [Script.bind, onCursor, onCursor]
    cases refuse c.peek with
    | some e => rfl
    | none => exact ih c.peek c.next
  | peek refuse go ih =>
    rw [Script.bind, onCursor, onCursor]
    cases refuse c.peek with
    | some e => rfl
    | none => exact ih c.peek c
  | locate go ih => exact ih c.mark c
  | left go ih => exact ih c.ahead.length c

end Script

/-- A script of which a reader is the run. -/
structure Scripted {ε α : Type} (r : Reader ε α) where
  script : Script ε α
  onCursor_eq : script.onCursor = r

inductive Verdict {ε α : Type} (r : Reader ε α)
  | refuse (reason : ε) (h : r = Reader.fail reason)
  | go (s : Scripted r)

namespace Verdict

variable {ε α : Type} {r r' : Reader ε α}

def reason? : Verdict r → Option ε
  | refuse e _ => some e
  | go _ => none

def script : Verdict r → Script ε α
  | refuse _ _ => .unfinished
  | go s => s.script

def ite {p : Prop} [Decidable p] (s : Verdict r) (t : Verdict r') :
    Verdict (if p then r else r') :=
  if hp : p then if_pos hp ▸ s else if_neg hp ▸ t

end Verdict

namespace Scripted

variable {ε α β : Type} {r r' : Reader ε α}

def pure (a : α) : Scripted (Pure.pure a : Reader ε α) := ⟨.done a, rfl⟩

def unfinished : Scripted (Reader.unfinished : Reader ε α) := ⟨.unfinished, rfl⟩

def bind {k : α → Reader ε β} (s : Scripted r) (t : ∀ a, Scripted (k a)) : Scripted (r >>= k) where
  script := s.script.bind fun a => (t a).script
  onCursor_eq := by simp only [Script.onCursor_bind, s.onCursor_eq, (t _).onCursor_eq]

def map (f : α → β) (s : Scripted r) : Scripted (f <$> r) where
  script := s.script.bind fun a => .done (f a)
  onCursor_eq := by
    rw [Script.onCursor_bind, s.onCursor_eq, map_eq_pure_bind]
    rfl

def ite {p : Prop} [Decidable p] (s : Scripted r) (t : Scripted r') :
    Scripted (if p then r else r') :=
  if hp : p then if_pos hp ▸ s else if_neg hp ▸ t

def mark : Scripted (Reader.mark : Reader ε (Option Location)) := ⟨.locate .done, rfl⟩

def skip : Scripted (Reader.skip : Reader ε Unit) :=
  ⟨.next (fun _ => none) fun _ => .done (), rfl⟩

def take (accept : Token → Option α) (reason : Token → ε) :
    Scripted (Reader.take accept reason) where
  script := .next (fun t => if (accept t).isNone then some (reason t) else none)
    fun t => (accept t).elim .unfinished .done
  onCursor_eq := by
    funext c
    rw [Reader.take, Script.onCursor]
    cases accept c.peek <;> rfl

def takeName (reason : ε) : Scripted (Reader.takeName reason) := take _ _

def expect (token : Token) (reason : ε) : Scripted (Reader.expect token reason) := take _ _

def look {k : Token → Reader ε α} (verdict : ∀ t, Verdict (k t)) :
    Scripted (Reader.peek >>= k) where
  script := .peek (fun t => (verdict t).reason?) fun t => (verdict t).script
  onCursor_eq := by
    funext c
    rw [Script.onCursor, Reader.bind_apply, Reader.bind, Reader.peek_apply]
    cases verdict c.peek with
    | refuse e h => exact congrFun h.symm c
    | go s => exact congrFun s.onCursor_eq c

def optional (token : Token) : Scripted (Reader.optional token : Reader ε Bool) where
  script := .peek (fun _ => none) fun t =>
    if t = token then .next (fun _ => none) fun _ => .done true else .done false
  onCursor_eq := by
    funext c
    rw [Reader.optional, Script.onCursor]
    by_cases hpeek : c.peek = token
    · simp only [if_pos hpeek]
      rfl
    · simp only [if_neg hpeek]
      rfl

def itemsWithin (go : Token → Bool) (item : Scripted r) :
    (n : Nat) → Scripted (Reader.itemsWithin go r n)
  | 0 => unfinished
  | n + 1 => look fun _ => .ite
    (.go (item.bind fun _ => (itemsWithin go item n).bind fun _ => pure _)) (.go (pure _))

def within {r : Nat → Reader ε α} (s : ∀ n, Scripted (r n)) :
    Scripted fun c => r (c.ahead.length + 1) c where
  script := .left fun n => (s (n + 1)).script
  onCursor_eq := funext fun c => congrFun (s (c.ahead.length + 1)).onCursor_eq c

def itemsWhile (go : Token → Bool) (item : Scripted r) : Scripted (Reader.itemsWhile go r) :=
  within (itemsWithin go item)

def itemsUntil (close : Token) (item : Scripted r) : Scripted (Reader.itemsUntil close r) :=
  (itemsWhile _ item).bind fun _ => skip.bind fun _ => pure _

def itemsUntil₁ (close : Token) (item : Scripted r) : Scripted (Reader.itemsUntil₁ close r) :=
  item.bind fun _ => (itemsUntil close item).bind fun _ => pure _

theorem read?_eq (s : Scripted r) (hends : ∀ c, r c ≠ .unfinished) (message : ε → String)
    (tracked : Bool) (source : String) :
    s.script.read? message tracked source =
      some (r.run (fun text e l => l.error text (message e)) tracked source) := by
  have hagrees := s.script.agrees (Context.follows_ofSource tracked source.toList)
  rw [s.onCursor_eq] at hagrees
  rw [Script.read?, Reader.run]
  generalize s.script.onContext (.ofSource tracked source.toList) = x at hagrees
  cases hr : r (.ofSource tracked source.toList) with
  | done a d =>
    rw [hr] at hagrees
    cases hagrees
    rfl
  | failed e d =>
    rw [hr] at hagrees
    cases hagrees with
    | failed hsource hhead hspan =>
      simp only [Context.error?_eq hhead hsource hspan, Option.map_some]
  | unfinished => exact absurd hr (hends _)

end Scripted
end GraphQLCheck
