import GraphQLCheck.Proofs.Token.Reading

/-!
Reading without places. A reader sees the places of tokens only through `mark`, which keeps them
in what is read, so that without them it takes the same tokens, fails at the same token for the
same reason and yields the same value less its places. `Untracked` says this of one reader, for
every `Veil` that hides places; each combinator passes it on. `Veil.untracked` hides the places
that are kept, and `Veil.bare` those of the tokens too, so that sources with the same tokens are
read alike.
-/
namespace GraphQLCheck

namespace Cursor

def untracked (c : Cursor) : Cursor := { c with tracked := false }

def bare (c : Cursor) : Cursor :=
  ⟨c.ahead.map fun l => ⟨l.token, ⟨0, 0⟩, .first⟩, .start, false⟩

theorem untracked_ofSource (tracked : Bool) (source : List Char) :
    (ofSource tracked source).untracked = ofSource false source := rfl

end Cursor

/-- A change of cursors that leaves their tokens as they are, and behind which no places are
kept. -/
structure Veil where
  cover : Cursor → Cursor
  peek : ∀ c, (cover c).peek = c.peek
  next : ∀ c, (cover c).next = cover c.next
  mark : ∀ c, (cover c).mark = none
  length : ∀ c, (cover c).ahead.length = c.ahead.length

namespace Veil

def untracked : Veil where
  cover := Cursor.untracked
  peek _ := rfl
  next _ := rfl
  mark _ := rfl
  length _ := rfl

def bare : Veil where
  cover := Cursor.bare
  peek c := by
    obtain ⟨ahead, finish, tracked⟩ := c
    cases ahead with
    | nil => rfl
    | cons l ls => rfl
  next c := by
    obtain ⟨ahead, finish, tracked⟩ := c
    cases ahead with
    | nil => rfl
    | cons l ls => rfl
  mark _ := rfl
  length c := List.length_map _

end Veil

def Outcome.veiled {ε α β : Type} (v : Veil) (f : α → β) : Outcome ε α → Outcome ε β
  | .done a rest => .done (f a) (v.cover rest)
  | .failed e rest => .failed e (v.cover rest)
  | .unfinished => .unfinished

namespace Outcome

variable {ε α β : Type} {v : Veil} {f : α → β} {x : Outcome ε α} {d : Cursor}

theorem veiled_eq_done {b : β} :
    x.veiled v f = .done b d ↔ ∃ a rest, x = .done a rest ∧ f a = b ∧ v.cover rest = d := by
  cases x <;> simp [veiled, and_assoc]

theorem veiled_eq_failed {e : ε} :
    x.veiled v f = .failed e d ↔ ∃ rest, x = .failed e rest ∧ v.cover rest = d := by
  cases x <;> simp [veiled, and_assoc]

end Outcome

/-- Behind a veil, `r'` does what `r` does without it, up to the places that `f` takes out of the
value. -/
def Untracked {ε α β : Type} (f : α → β) (r : Reader ε α) (r' : Reader ε β) : Prop :=
  ∀ (v : Veil) (c : Cursor), r' (v.cover c) = (r c).veiled v f

namespace Untracked
open Reader

variable {ε α β γ δ : Type} {f : α → β} {g : γ → δ} {r : Reader ε α} {r' : Reader ε β}

theorem pure {a : α} {b : β} (h : f a = b) :
    Untracked f (Pure.pure a : Reader ε α) (Pure.pure b) := fun _ _ => h ▸ rfl

theorem bind {k : α → Reader ε γ} {k' : β → Reader ε δ} (h : Untracked f r r')
    (hk : ∀ a, Untracked g (k a) (k' (f a))) : Untracked g (r >>= k) (r' >>= k') := by
  intro v c
  rw [bind_apply, bind_apply, Reader.bind, Reader.bind, h v c]
  cases r c with
  | done a rest => exact hk a v rest
  | failed e rest => rfl
  | unfinished => rfl

theorem map {p : α → γ} {q : β → δ} (h : Untracked f r r') (hpq : ∀ a, g (p a) = q (f a)) :
    Untracked g (p <$> r) (q <$> r') := by
  rw [map_eq_pure_bind, map_eq_pure_bind]
  exact h.bind fun a => pure (hpq a)

theorem fail {reason : ε} : Untracked f (Reader.fail reason) (Reader.fail reason) :=
  fun _ _ => rfl

theorem unfinished : Untracked f (Reader.unfinished : Reader ε α) Reader.unfinished :=
  fun _ _ => rfl

theorem peek : Untracked id (Reader.peek : Reader ε Token) Reader.peek :=
  fun v c => congrArg (Outcome.done · (v.cover c)) (v.peek c)

theorem skip : Untracked id (Reader.skip : Reader ε Unit) Reader.skip :=
  fun v c => congrArg (Outcome.done ()) (v.next c)

theorem mark :
    Untracked (fun _ => none) (Reader.mark : Reader ε (Option Location)) Reader.mark :=
  fun v c => congrArg (Outcome.done · (v.cover c)) (v.mark c)

theorem take (accept : Token → Option α) (reason : Token → ε) :
    Untracked id (Reader.take accept reason) (Reader.take accept reason) := by
  intro v c
  rw [Reader.take, Reader.take, v.peek, v.next]
  cases accept c.peek with
  | some a => rfl
  | none => rfl

theorem takeName (reason : ε) : Untracked id (Reader.takeName reason) (Reader.takeName reason) :=
  take _ _

theorem expect (token : Token) (reason : ε) :
    Untracked id (Reader.expect token reason) (Reader.expect token reason) := take _ _

theorem optional (token : Token) :
    Untracked id (Reader.optional token : Reader ε Bool) (Reader.optional token) := by
  intro v c
  rw [Reader.optional, Reader.optional, v.peek, v.next]
  split
  · rfl
  · rfl

theorem ite {p : Prop} [Decidable p] {s : Reader ε α} {s' : Reader ε β}
    (h : p → Untracked f r r') (hn : ¬p → Untracked f s s') :
    Untracked f (if p then r else s) (if p then r' else s') := by
  by_cases hp : p
  · rw [if_pos hp, if_pos hp]
    exact h hp
  · rw [if_neg hp, if_neg hp]
    exact hn hp

theorem itemsWithin {go : Token → Bool} (h : Untracked f r r') (n : Nat) :
    Untracked (List.map f) (Reader.itemsWithin go r n) (Reader.itemsWithin go r' n) := by
  induction n with
  | zero => exact unfinished
  | succ n ih =>
    rw [Reader.itemsWithin, Reader.itemsWithin]
    refine peek.bind fun t => ite (fun _ => ?_) fun _ => pure rfl
    exact h.bind fun a => ih.bind fun as => pure rfl

theorem itemsWhile {go : Token → Bool} (h : Untracked f r r') :
    Untracked (List.map f) (Reader.itemsWhile go r) (Reader.itemsWhile go r') := by
  intro v c
  rw [Reader.itemsWhile, v.length]
  exact itemsWithin h (c.ahead.length + 1) v c

theorem itemsUntil {close : Token} (h : Untracked f r r') :
    Untracked (List.map f) (Reader.itemsUntil close r) (Reader.itemsUntil close r') :=
  (itemsWhile h).bind fun _ => skip.bind fun _ => pure rfl

theorem itemsUntil₁ {close : Token} (h : Untracked f r r') :
    Untracked (List.map f) (Reader.itemsUntil₁ close r) (Reader.itemsUntil₁ close r') :=
  h.bind fun _ => (itemsUntil h).bind fun _ => pure rfl

/-- What is read from a source: an error tells the place of the token in front, which does not
depend on what is kept. -/
theorem run (h : Untracked f r r') (toError : List Char → ε → Lexeme → Error) (source : String) :
    r'.run toError false source = (r.run toError true source).map f := by
  have hread := h .untracked (.ofSource true source.toList)
  rw [Reader.run, Reader.run, ← Cursor.untracked_ofSource true]
  change r' (Cursor.untracked _) = _ at hread
  rw [hread]
  cases r (.ofSource true source.toList) <;> rfl

theorem done_of_tokens (h : Untracked f r r') {c d : Cursor}
    (htokens : c.ahead.map Lexeme.token = d.ahead.map Lexeme.token) {a : α} {rest : Cursor}
    (hc : r c = .done a rest) : ∃ b rest', r d = .done b rest' ∧ f b = f a := by
  have hbare : c.bare = d.bare := by
    have hahead := congrArg (List.map fun t => (⟨t, ⟨0, 0⟩, .first⟩ : Lexeme)) htokens
    rw [List.map_map, List.map_map] at hahead
    exact congrArg (Cursor.mk · .start false) hahead
  have hveiled : (r d).veiled .bare f = .done (f a) rest.bare := by
    rw [← h .bare d]
    change r' d.bare = _
    rw [← hbare]
    change r' (Veil.bare.cover c) = _
    rw [h .bare c, hc]
    rfl
  obtain ⟨b, rest', hb, hvalue, -⟩ := Outcome.veiled_eq_done.1 hveiled
  exact ⟨b, rest', hb, hvalue⟩

end Untracked
end GraphQLCheck
