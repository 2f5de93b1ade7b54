import GraphQLCheck.Token.Reader

/-!
What readers do, as equations. A cursor that stands in front of a token is the next cursor with
that token put back (`Cursor.exists_place`), so that what a reader took can be read off the cursor
it leaves. `Sound` and `Complete` tie a reader to a type of trees that have tokens: it takes the
tokens of such a tree and nothing else, and it takes them wherever they stand.
-/
namespace GraphQLCheck

structure Place where
  span : Span
  location : Location

namespace Place

def lexeme (p : Place) (t : Token) : Lexeme := ⟨t, p.span, p.location⟩

@[simp]
theorem token_lexeme (p : Place) (t : Token) : (p.lexeme t).token = t := rfl

def mark (tracked : Bool) (p : Place) : Option Location :=
  if tracked then some p.location else none

theorem lexeme_inj {p q : Place} {t u : Token} :
    p.lexeme t = q.lexeme u ↔ p = q ∧ t = u := by
  cases p
  cases q
  simp only [lexeme, Lexeme.mk.injEq, Place.mk.injEq]
  exact And.comm

end Place

/-- The token in front, which is the end of the source where there is none. -/
def headToken : List Lexeme → Token
  | [] => .finish
  | l :: _ => l.token

theorem headToken_lexeme (p : Place) (t : Token) (ls : List Lexeme) :
    headToken (p.lexeme t :: ls) = t := rfl

namespace Cursor

def before (c : Cursor) (ls : List Lexeme) : Cursor := { c with ahead := ls }

@[simp]
theorem before_before (c : Cursor) (ls rs : List Lexeme) : (c.before ls).before rs = c.before rs :=
  rfl

@[simp]
theorem ahead_before (c : Cursor) (ls : List Lexeme) : (c.before ls).ahead = ls := rfl

@[simp]
theorem next_before (c : Cursor) (l : Lexeme) (ls : List Lexeme) :
    (c.before (l :: ls)).next = c.before ls := rfl

@[simp]
theorem mark_before (c : Cursor) (p : Place) (t : Token) (ls : List Lexeme) :
    (c.before (p.lexeme t :: ls)).mark = p.mark c.tracked := rfl

theorem peek_eq (c : Cursor) : c.peek = headToken c.ahead := by
  rw [peek, head]
  cases c.ahead <;> rfl

theorem peek_before (c : Cursor) (ls : List Lexeme) : (c.before ls).peek = headToken ls :=
  peek_eq _

theorem exists_place {c : Cursor} (h : c.peek ≠ .finish) :
    ∃ p : Place, c = c.next.before (p.lexeme c.peek :: c.next.ahead) := by
  obtain ⟨ahead, finish, tracked⟩ := c
  cases ahead with
  | nil => exact absurd rfl h
  | cons l ls => exact ⟨⟨l.span, l.location⟩, rfl⟩

theorem length_next_le (c : Cursor) : c.next.ahead.length ≤ c.ahead.length := by
  simp only [next, List.length_tail]
  omega

theorem length_next {c : Cursor} (h : c.peek ≠ .finish) :
    c.next.ahead.length + 1 = c.ahead.length := by
  obtain ⟨q, hq⟩ := exists_place h
  have hahead := congrArg (fun d : Cursor => d.ahead.length) hq
  simpa using hahead.symm

end Cursor

namespace Reader

variable {ε α β : Type} {r : Reader ε α} {c d : Cursor}

theorem bind_apply (r : Reader ε α) (f : α → Reader ε β) (c : Cursor) :
    (r >>= f) c = Reader.bind r f c := rfl

theorem bind_done {f : α → Reader ε β} {a : α} (h : r c = .done a d) : (r >>= f) c = f a d := by
  rw [bind_apply, Reader.bind, h]

theorem bind_eq_done {f : α → Reader ε β} {b : β} :
    (r >>= f) c = .done b d ↔ ∃ a m, r c = .done a m ∧ f a m = .done b d := by
  rw [bind_apply, Reader.bind]
  cases r c with
  | done a m =>
    constructor
    · exact fun h => ⟨a, m, rfl, h⟩
    · rintro ⟨a, m, h, hf⟩
      obtain ⟨rfl, rfl⟩ := Outcome.done.inj h
      exact hf
  | failed e m => simp
  | unfinished => simp

theorem pure_apply (a : α) : (pure a : Reader ε α) c = .done a c := rfl

theorem pure_eq_done {a b : α} : (pure a : Reader ε α) c = .done b d ↔ a = b ∧ c = d := by
  rw [pure_apply, Outcome.done.injEq]

theorem map_eq_done {f : α → β} {b : β} :
    (f <$> r) c = .done b d ↔ ∃ a, r c = .done a d ∧ f a = b := by
  rw [map_eq_pure_bind, bind_eq_done]
  simp only [pure_eq_done]
  constructor
  · rintro ⟨a, m, hr, hf, rfl⟩
    exact ⟨a, hr, hf⟩
  · rintro ⟨a, hr, hf⟩
    exact ⟨a, d, hr, hf, rfl⟩

theorem map_done {f : α → β} {a : α} (h : r c = .done a d) : (f <$> r) c = .done (f a) d :=
  map_eq_done.2 ⟨a, h, rfl⟩

theorem bind_failed {f : α → Reader ε β} {e : ε} (h : r c = .failed e d) :
    (r >>= f) c = .failed e d := by
  rw [bind_apply, Reader.bind, h]

theorem bind_eq_failed {f : α → Reader ε β} {e : ε} :
    (r >>= f) c = .failed e d ↔
      r c = .failed e d ∨ ∃ a m, r c = .done a m ∧ f a m = .failed e d := by
  constructor
  · intro h
    cases hr : r c with
    | done a m =>
      rw [bind_done hr] at h
      exact .inr ⟨a, m, rfl, h⟩
    | failed e' m =>
      rw [bind_failed hr] at h
      obtain ⟨rfl, rfl⟩ := Outcome.failed.inj h
      exact .inl rfl
    | unfinished => simp [bind_apply, Reader.bind, hr] at h
  · rintro (h | ⟨a, m, h, hf⟩)
    · exact bind_failed h
    · rw [bind_done h, hf]

theorem pure_ne_failed {e : ε} {a : α} : (pure a : Reader ε α) c ≠ .failed e d := nofun

theorem bind_pure_eq_failed {f : α → β} {e : ε} :
    (r >>= fun a => pure (f a)) c = .failed e d ↔ r c = .failed e d := by
  rw [bind_eq_failed]
  constructor
  · rintro (h | ⟨a, m, -, h⟩)
    · exact h
    · exact absurd h pure_ne_failed
  · exact .inl

theorem map_eq_failed {e : ε} {f : α → β} : (f <$> r) c = .failed e d ↔ r c = .failed e d := by
  rw [map_eq_pure_bind, bind_pure_eq_failed]

theorem fail_ne_done {reason : ε} {a : α} : (fail reason : Reader ε α) c ≠ .done a d := by
  simp [fail]

theorem unfinished_ne_done {a : α} : (unfinished : Reader ε α) c ≠ .done a d := by
  simp [unfinished]

theorem skip_pure_ne_failed {e : ε} {a : α} :
    (skip >>= fun _ => pure a : Reader ε α) c ≠ .failed e d := nofun

theorem fail_eq_failed {reason e : ε} (h : (fail reason : Reader ε α) c = .failed e d) : c = d :=
  (Outcome.failed.inj h).2

theorem peek_apply : (peek : Reader ε Token) c = .done c.peek c := rfl

theorem skip_apply : (skip : Reader ε Unit) c = .done () c.next := rfl

theorem skip_eq_done {u : Unit} : (skip : Reader ε Unit) c = .done u d ↔ c.next = d := by
  rw [skip_apply, Outcome.done.injEq]
  exact and_iff_right rfl

theorem mark_apply : (mark : Reader ε (Option Location)) c = .done c.mark c := rfl

theorem mark_eq_done {l : Option Location} :
    (mark : Reader ε (Option Location)) c = .done l d ↔ c.mark = l ∧ c = d := by
  rw [mark_apply, Outcome.done.injEq]

theorem take_done {accept : Token → Option α} {reason : Token → ε} {t : Token} {a : α}
    (h : accept t = some a) (p : Place) (ls : List Lexeme) :
    take accept reason (c.before (p.lexeme t :: ls)) = .done a (c.before ls) := by
  rw [take, Cursor.peek_before, headToken_lexeme, h]
  rfl

theorem take_eq_done {accept : Token → Option α} {reason : Token → ε} {a : α}
    (hfinish : accept .finish = none) :
    take accept reason c = .done a d ↔
      ∃ p t, accept t = some a ∧ c = d.before (Place.lexeme p t :: d.ahead) := by
  constructor
  · intro h
    rw [take] at h
    cases ha : accept c.peek with
    | none => simp [ha] at h
    | some b =>
      simp only [ha, Outcome.done.injEq] at h
      obtain ⟨rfl, rfl⟩ := h
      have hpeek : c.peek ≠ .finish := fun hc => by
        rw [hc, hfinish] at ha
        simp at ha
      obtain ⟨p, hp⟩ := Cursor.exists_place hpeek
      exact ⟨p, c.peek, ha, hp⟩
  · rintro ⟨p, t, ht, hc⟩
    rw [hc, take_done ht]
    rfl

theorem take_failed {accept : Token → Option α} {reason : Token → ε} (h : accept c.peek = none) :
    take accept reason c = .failed (reason c.peek) c := by
  rw [take, h]

theorem take_eq_failed {accept : Token → Option α} {reason : Token → ε} {e : ε}
    (h : take accept reason c = .failed e d) : c = d := by
  cases ha : accept c.peek with
  | some a => simp [take, ha] at h
  | none =>
    rw [take_failed ha] at h
    exact (Outcome.failed.inj h).2

theorem takeName_done {reason : ε} (p : Place) (text : String) (ls : List Lexeme) :
    takeName reason (c.before (p.lexeme (.name text) :: ls)) = .done text (c.before ls) := by
  rw [takeName]
  exact take_done (by rfl) p ls

theorem takeName_eq_done {reason : ε} {text : String} :
    takeName reason c = .done text d ↔
      ∃ p : Place, c = d.before (p.lexeme (.name text) :: d.ahead) := by
  rw [takeName, take_eq_done rfl]
  refine exists_congr fun p => ⟨?_, fun h => ⟨_, rfl, h⟩⟩
  rintro ⟨t, ht, hc⟩
  cases t <;> simp_all

theorem expect_done {t : Token} {reason : ε} (p : Place) (ls : List Lexeme) :
    expect t reason (c.before (p.lexeme t :: ls)) = .done () (c.before ls) :=
  take_done (if_pos rfl) p ls

theorem expect_eq_done {t : Token} {reason : ε} {u : Unit} (ht : t ≠ .finish) :
    expect t reason c = .done u d ↔ ∃ p : Place, c = d.before (p.lexeme t :: d.ahead) := by
  rw [expect, take_eq_done (if_neg (Ne.symm ht))]
  refine exists_congr fun p => ⟨?_, fun h => ⟨t, if_pos rfl, h⟩⟩
  rintro ⟨s, hs, hc⟩
  by_cases h : s = t
  · rwa [h] at hc
  · simp [h] at hs

theorem optional_done {t : Token} (p : Place) (ls : List Lexeme) :
    (optional t : Reader ε Bool) (c.before (p.lexeme t :: ls)) = .done true (c.before ls) := by
  rw [optional, Cursor.peek_before, headToken_lexeme, if_pos rfl]
  rfl

theorem optional_of_ne {t : Token} (h : c.peek ≠ t) :
    (optional t : Reader ε Bool) c = .done false c :=
  if_neg h

theorem optional_eq_done {t : Token} {b : Bool} (ht : t ≠ .finish) :
    (optional t : Reader ε Bool) c = .done b d ↔
      (b = true ∧ ∃ p : Place, c = d.before (p.lexeme t :: d.ahead)) ∨
        (b = false ∧ c.peek ≠ t ∧ c = d) := by
  constructor
  · intro h
    by_cases hc : c.peek = t
    · simp only [optional, hc, if_true, Outcome.done.injEq] at h
      obtain ⟨rfl, rfl⟩ := h
      obtain ⟨p, hp⟩ := Cursor.exists_place (hc ▸ ht)
      exact .inl ⟨rfl, p, hc ▸ hp⟩
    · rw [optional_of_ne hc, Outcome.done.injEq] at h
      exact .inr ⟨h.1.symm, hc, h.2⟩
  · rintro (⟨rfl, p, hc⟩ | ⟨rfl, hc, rfl⟩)
    · rw [hc, optional_done]
      rfl
    · exact optional_of_ne hc

def Yields (q : α → Prop) (r : Reader ε α) : Prop := ∀ c a d, r c = .done a d → q a

theorem Yields.bind {q : α → Prop} {q' : β → Prop} {f : α → Reader ε β} (hr : Yields q r)
    (hf : ∀ a, q a → Yields q' (f a)) : Yields q' (r >>= f) := by
  intro c b d h
  obtain ⟨a, m, ha, hb⟩ := bind_eq_done.1 h
  exact hf a (hr _ _ _ ha) _ _ _ hb

theorem yields_bind {q : β → Prop} {f : α → Reader ε β} (hf : ∀ a, Yields q (f a)) :
    Yields q (r >>= f) := by
  intro c b d h
  obtain ⟨a, m, -, hb⟩ := bind_eq_done.1 h
  exact hf a _ _ _ hb

theorem yields_pure {q : α → Prop} {a : α} (h : q a) : Yields q (pure a : Reader ε α) := by
  intro c b d hb
  exact (pure_eq_done.1 hb).1 ▸ h

theorem yields_fail {q : α → Prop} (e : ε) : Yields q (fail e : Reader ε α) :=
  fun _ _ _ h => absurd h fail_ne_done

theorem yields_ite {q : α → Prop} {b : Prop} [Decidable b] {s : Reader ε α}
    (hr : b → Yields q r) (hs : ¬ b → Yields q s) : Yields q (if b then r else s) := by
  by_cases h : b
  · rw [if_pos h]
    exact hr h
  · rw [if_neg h]
    exact hs h

end Reader

/-- No condition: all trees of a kind, or all reasons for a failure. -/
def Always {τ : Type} (_ : τ) : Prop := True

section
variable {ε α τ : Type} {lexemes : τ → List Lexeme} {value : Bool → τ → α} {p : τ → Prop}

/-- What the reader takes are the tokens of a tree that satisfies `p`, and what it yields is what
the tree stands for. -/
def Sound (r : Reader ε α) (lexemes : τ → List Lexeme) (value : Bool → τ → α)
    (p : τ → Prop) : Prop :=
  ∀ c a d, r c = .done a d →
    ∃ t, p t ∧ c = d.before (lexemes t ++ d.ahead) ∧ a = value d.tracked t

/-- The reader takes the tokens of every tree that satisfies `p`, where a token follows at which
such a tree may end. -/
def Complete (r : Reader ε α) (lexemes : τ → List Lexeme) (value : Bool → τ → α)
    (ends : Token → Prop) (p : τ → Prop) : Prop :=
  ∀ (c : Cursor) (t : τ) (rest : List Lexeme), p t → ends (headToken rest) →
    r (c.before (lexemes t ++ rest)) = .done (value c.tracked t) (c.before rest)

namespace Reader

variable {item : Reader ε α} {go : Token → Bool}

theorem sound_itemsWithin (hitem : Sound item lexemes value p) (n : Nat) {c : Cursor}
    {as : List α} {d : Cursor} (h : itemsWithin go item n c = .done as d) :
    ∃ ts : List τ, (∀ t ∈ ts, p t) ∧ c = d.before (ts.flatMap lexemes ++ d.ahead) ∧
      as = ts.map (value d.tracked) ∧ go d.peek = false := by
  induction n generalizing c as with
  | zero => exact absurd h unfinished_ne_done
  | succ n ih =>
    rw [itemsWithin, bind_done peek_apply] at h
    cases hgo : go c.peek with
    | false =>
      simp only [hgo, Bool.false_eq_true, if_false, pure_eq_done] at h
      obtain ⟨rfl, rfl⟩ := h
      exact ⟨[], by simp, rfl, rfl, hgo⟩
    | true =>
      simp only [hgo, if_true, bind_eq_done, pure_eq_done] at h
      obtain ⟨a, m, ha, bs, e, hbs, rfl, rfl⟩ := h
      obtain ⟨t, ht, hc, rfl⟩ := hitem c a m ha
      obtain ⟨ts, hts, rfl, rfl, hgo⟩ := ih hbs
      exact ⟨t :: ts, List.forall_mem_cons.2 ⟨ht, hts⟩, by simpa using hc, rfl, hgo⟩

theorem complete_itemsWithin {ends : Token → Prop} (hitem : Complete item lexemes value ends p)
    (hfirst : ∀ t, p t → ∀ rest, go (headToken (lexemes t ++ rest)) = true ∧
      ends (headToken (lexemes t ++ rest)))
    {ts : List τ} (hts : ∀ t ∈ ts, p t) {c : Cursor} {rest : List Lexeme}
    (hstop : go (headToken rest) = false) (hrest : ends (headToken rest)) {n : Nat}
    (hn : ts.length < n) :
    itemsWithin go item n (c.before (ts.flatMap lexemes ++ rest)) =
      .done (ts.map (value c.tracked)) (c.before rest) := by
  induction ts generalizing n with
  | nil =>
    obtain ⟨m, rfl⟩ : ∃ m, n = m + 1 := ⟨n - 1, by omega⟩
    rw [itemsWithin, bind_done peek_apply, Cursor.peek_before]
    simp [hstop, pure_apply]
  | cons t ts ih =>
    obtain ⟨m, rfl⟩ : ∃ m, n = m + 1 := ⟨n - 1, by omega⟩
    obtain ⟨ht, hts⟩ := List.forall_mem_cons.1 hts
    have hnext : ends (headToken (ts.flatMap lexemes ++ rest)) := by
      cases ts with
      | nil => exact hrest
      | cons u us =>
        rw [List.flatMap_cons, List.append_assoc]
        exact (hfirst u (List.forall_mem_cons.1 hts).1 _).2
    have htail : ts.length < m := Nat.lt_of_succ_lt_succ hn
    rw [itemsWithin, bind_done peek_apply, Cursor.peek_before, List.flatMap_cons,
      List.append_assoc, if_pos (hfirst t ht _).1, bind_done (hitem c t _ ht hnext),
      bind_done (ih hts htail), pure_apply, List.map_cons]

theorem length_le_flatMap (hne : ∀ t, lexemes t ≠ []) (ts : List τ) :
    ts.length ≤ (ts.flatMap lexemes).length := by
  induction ts with
  | nil => simp
  | cons t ts ih =>
    have ht := List.length_pos_iff.2 (hne t)
    rw [List.flatMap_cons, List.length_append, List.length_cons]
    omega

theorem complete_itemsWhile (go : Token → Bool) {ends : Token → Prop}
    (hitem : Complete item lexemes value ends p)
    (hne : ∀ t, lexemes t ≠ [])
    (hfirst : ∀ t, p t → ∀ rest, go (headToken (lexemes t ++ rest)) = true ∧
      ends (headToken (lexemes t ++ rest)))
    {ts : List τ} (hts : ∀ t ∈ ts, p t) (c : Cursor) {rest : List Lexeme}
    (hstop : go (headToken rest) = false) (hrest : ends (headToken rest)) :
    itemsWhile go item (c.before (ts.flatMap lexemes ++ rest)) =
      .done (ts.map (value c.tracked)) (c.before rest) := by
  refine complete_itemsWithin hitem hfirst hts hstop hrest ?_
  have hlength := length_le_flatMap hne ts
  rw [Cursor.ahead_before, List.length_append]
  omega

theorem sound_itemsUntil {close : Token} (hclose : close ≠ .finish)
    (hitem : Sound item lexemes value p) {c : Cursor} {as : List α} {d : Cursor}
    (h : itemsUntil close item c = .done as d) :
    ∃ (ts : List τ) (q : Place), (∀ t ∈ ts, p t) ∧
      c = d.before (ts.flatMap lexemes ++ q.lexeme close :: d.ahead) ∧
      as = ts.map (value d.tracked) := by
  simp only [itemsUntil, bind_eq_done, skip_eq_done, pure_eq_done] at h
  obtain ⟨bs, m, hbs, _, e, hnext, rfl, rfl⟩ := h
  obtain ⟨ts, hts, rfl, rfl, hgo⟩ := sound_itemsWithin hitem _ hbs
  have hpeek : m.peek = close := by simpa using hgo
  obtain ⟨q, hq⟩ := Cursor.exists_place (hpeek ▸ hclose)
  rw [hpeek, hnext] at hq
  refine ⟨ts, q, hts, ?_, ?_⟩
  · rw [hq]
    rfl
  · rw [hq]
    rfl

theorem complete_itemsUntil (close : Token) {ends : Token → Prop}
    (hitem : Complete item lexemes value ends p) (hne : ∀ t, lexemes t ≠ [])
    (hfirst : ∀ t, p t → ∀ rest, headToken (lexemes t ++ rest) ≠ close ∧
      ends (headToken (lexemes t ++ rest)))
    (hclose : ends close) {ts : List τ} (hts : ∀ t ∈ ts, p t) (c : Cursor) (q : Place)
    (rest : List Lexeme) :
    itemsUntil close item (c.before (ts.flatMap lexemes ++ q.lexeme close :: rest)) =
      .done (ts.map (value c.tracked)) (c.before rest) := by
  have hstop : decide (headToken (q.lexeme close :: rest) ≠ close) = false := by
    simp [headToken_lexeme]
  have hitems := complete_itemsWhile (· ≠ close) hitem hne
    (fun t ht r => ⟨decide_eq_true (hfirst t ht r).1, (hfirst t ht r).2⟩) hts c hstop hclose
  rw [itemsUntil, bind_done hitems, bind_done skip_apply, pure_apply, Cursor.next_before]

theorem sound_itemsUntil₁ {close : Token} (hclose : close ≠ .finish)
    (hitem : Sound item lexemes value p) {c : Cursor} {as : List α} {d : Cursor}
    (h : itemsUntil₁ close item c = .done as d) :
    ∃ (t : τ) (ts : List τ) (q : Place), (∀ u ∈ t :: ts, p u) ∧
      c = d.before ((t :: ts).flatMap lexemes ++ q.lexeme close :: d.ahead) ∧
      as = (t :: ts).map (value d.tracked) := by
  simp only [itemsUntil₁, bind_eq_done, pure_eq_done] at h
  obtain ⟨a, m, ha, bs, e, hbs, rfl, rfl⟩ := h
  obtain ⟨ts, q, hts, rfl, rfl⟩ := sound_itemsUntil hclose hitem hbs
  obtain ⟨t, ht, hc, rfl⟩ := hitem _ _ _ ha
  exact ⟨t, ts, q, List.forall_mem_cons.2 ⟨ht, hts⟩, by simpa using hc, rfl⟩

theorem complete_itemsUntil₁ (close : Token) {ends : Token → Prop}
    (hitem : Complete item lexemes value ends p) (hne : ∀ t, lexemes t ≠ [])
    (hfirst : ∀ t, p t → ∀ rest, headToken (lexemes t ++ rest) ≠ close ∧
      ends (headToken (lexemes t ++ rest)))
    (hclose : ends close) {t : τ} {ts : List τ} (hts : ∀ u ∈ t :: ts, p u) (c : Cursor)
    (q : Place) (rest : List Lexeme) :
    itemsUntil₁ close item (c.before ((t :: ts).flatMap lexemes ++ q.lexeme close :: rest)) =
      .done ((t :: ts).map (value c.tracked)) (c.before rest) := by
  obtain ⟨ht, hts⟩ := List.forall_mem_cons.1 hts
  have hnext : ends (headToken (ts.flatMap lexemes ++ q.lexeme close :: rest)) := by
    cases ts with
    | nil => exact hclose
    | cons u us =>
      rw [List.flatMap_cons, List.append_assoc]
      exact (hfirst u (List.forall_mem_cons.1 hts).1 _).2
  rw [List.flatMap_cons, List.append_assoc, itemsUntil₁, bind_done (hitem c t _ ht hnext),
    bind_done (complete_itemsUntil close hitem hne hfirst hclose hts c q rest), pure_apply,
    List.map_cons]

end Reader

end
end GraphQLCheck
