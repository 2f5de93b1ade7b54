import GraphQLCheck.Proofs.Token.Reading

/-!
What readers look at. A reader that settles comes to an end with every bound above the number of
tokens that it takes, and it looks at these tokens and the one behind them only: its outcome stays
the same whatever follows that token (`Reader.Settles`). Where it fails, it does so for a reason
that is given. Each combinator passes this on, repetitions if each of their items takes a token.
-/
namespace GraphQLCheck

namespace Cursor

theorem before_ahead (c : Cursor) : c.before c.ahead = c := rfl

theorem head_append {c : Cursor} {ls rest : List Lexeme}
    (h : (c.before ls).head = (c.before rest).head) (taken : List Lexeme) :
    (c.before (taken ++ ls)).head = (c.before (taken ++ rest)).head := by
  cases taken with
  | nil => exact h
  | cons l taken => rfl

end Cursor

def Outcome.ending {ε α : Type} (d : Cursor) : Except ε α → Outcome ε α
  | .ok a => .done a d
  | .error e => .failed e d

namespace Reader

variable {ε α β : Type} {p : ε → Prop} {i j k m n : Nat} {c : Cursor} {r s : Nat → Reader ε α}

def Attains (p : ε → Prop) (k n : Nat) : Except ε α → Prop
  | .ok _ => k ≤ n
  | .error e => p e

theorem Attains.imp {i m : Nat} {x : Except ε α} (h : Attains p k n x) (hle : k ≤ n → i ≤ m) :
    Attains p i m x := by
  cases x with
  | ok a => exact hle h
  | error e => exact h

/-- From the cursor the reader comes to an end: it has taken `k` tokens or more, or it fails for a
reason of the given kind. With every bound `n` such that fewer than `n + j` tokens are taken the
outcome is the same, and also where other tokens stand behind the one in front of which the reader
ends. -/
def Settles (p : ε → Prop) (j k : Nat) (r : Nat → Reader ε α) (c : Cursor) : Prop :=
  ∃ (x : Except ε α) (taken rest : List Lexeme), c.ahead = taken ++ rest ∧
    Attains p k taken.length x ∧
    ∀ n ls, taken.length < n + j → (c.before ls).head = (c.before rest).head →
      r n (c.before (taken ++ ls)) = .ending (c.before ls) x

theorem mapReason_done {ε' : Type} {f : ε → ε'} {r : Reader ε α} {a : α} {d : Cursor}
    (h : r c = .done a d) : r.mapReason f c = .done a d := by
  rw [mapReason, h]

theorem mapReason_failed {ε' : Type} {f : ε → ε'} {r : Reader ε α} {e : ε} {d : Cursor}
    (h : r c = .failed e d) : r.mapReason f c = .failed (f e) d := by
  rw [mapReason, h]

theorem Settles.mono (h : Settles p j k r c) (hj : i ≤ j) (hk : m ≤ k) : Settles p i m r c := by
  obtain ⟨x, taken, rest, hahead, hattains, hread⟩ := h
  refine ⟨x, taken, rest, hahead, hattains.imp (Nat.le_trans hk), ?_⟩
  exact fun n ls hn hhead => hread n ls (by omega) hhead

theorem Settles.weaken (h : Settles p j k r c) : Settles p j 0 r c :=
  h.mono (Nat.le_refl _) (Nat.zero_le _)

theorem Settles.anyReason (h : Settles p j k r c) : Settles Always j k r c := by
  obtain ⟨x, taken, rest, hahead, hattains, hread⟩ := h
  refine ⟨x, taken, rest, hahead, ?_, hread⟩
  cases x with
  | ok a => exact hattains
  | error e => exact trivial

theorem Settles.unbounded {r : Reader ε α} (h : Settles p i k (fun _ => r) c) :
    Settles p j k (fun _ => r) c := by
  obtain ⟨x, taken, rest, hahead, hattains, hread⟩ := h
  refine ⟨x, taken, rest, hahead, hattains, fun _ ls _ hhead => ?_⟩
  exact hread (taken.length + 1) ls (by omega) hhead

theorem Settles.outcome {r : Reader ε α} (h : Settles p j k (fun _ => r) c) :
    (∃ a d, r c = .done a d) ∨ ∃ e d, r c = .failed e d ∧ p e := by
  obtain ⟨x, taken, rest, hahead, hattains, hread⟩ := h
  have hend := hread (taken.length + 1) rest (by omega) rfl
  rw [← hahead, c.before_ahead] at hend
  cases x with
  | ok a => exact .inl ⟨a, _, hend⟩
  | error e => exact .inr ⟨e, _, hend, hattains⟩

theorem settles_pure (a : α) : Settles p j 0 (fun _ => (pure a : Reader ε α)) c :=
  ⟨.ok a, [], c.ahead, rfl, Nat.zero_le _, fun _ _ _ _ => rfl⟩

theorem settles_fail {e : ε} (he : p e) : Settles p j k (fun _ => (fail e : Reader ε α)) c :=
  ⟨.error e, [], c.ahead, rfl, he, fun _ _ _ _ => rfl⟩

theorem Settles.bind {f : Nat → α → Reader ε β} (hr : Settles p j k r c)
    (hf : ∀ n a d, r n c = .done a d → d.ahead.length + k ≤ c.ahead.length →
      Settles p (j - k) m (fun n => f n a) d) :
    Settles p j (m + k) (fun n => r n >>= f n) c := by
  obtain ⟨x, taken, rest, hahead, hattains, hread⟩ := hr
  cases x with
  | error e =>
    refine ⟨.error e, taken, rest, hahead, hattains, fun n ls hn hhead => ?_⟩
    exact bind_failed (hread n ls hn hhead)
  | ok a =>
    have hk : k ≤ taken.length := hattains
    have hdone := hread (taken.length + 1) rest (by omega) rfl
    rw [← hahead, c.before_ahead] at hdone
    have hshort : (c.before rest).ahead.length + k ≤ c.ahead.length := by
      rw [hahead, List.length_append, Cursor.ahead_before]
      omega
    obtain ⟨y, taken', rest', hahead', hattains', hread'⟩ := hf _ a _ hdone hshort
    rw [Cursor.ahead_before] at hahead'
    subst hahead'
    refine ⟨y, taken ++ taken', rest', by rw [hahead, List.append_assoc], ?_, ?_⟩
    · rw [List.length_append, Nat.add_comm m]
      exact hattains'.imp (Nat.add_le_add hk)
    · intro n ls hn hhead
      rw [List.length_append] at hn
      have hfirst := hread n (taken' ++ ls) (by omega) (Cursor.head_append hhead taken')
      rw [List.append_assoc]
      exact (bind_done hfirst).trans (hread' n ls (by omega) hhead)

theorem Settles.map {f : α → β} (h : Settles p j k r c) : Settles p j k (fun n => f <$> r n) c := by
  have hbind : Settles p j (0 + k) (fun n => r n >>= fun a => pure (f a)) c :=
    h.bind fun _ a _ _ _ => settles_pure (f a)
  simpa only [map_eq_pure_bind, Nat.zero_add] using hbind

theorem settles_ite {b : Prop} [Decidable b] (hr : b → Settles p j k r c)
    (hs : ¬ b → Settles p j k s c) : Settles p j k (fun n => if b then r n else s n) c := by
  by_cases h : b
  · simpa only [if_pos h] using hr h
  · simpa only [if_neg h] using hs h

theorem settles_peek {f : Nat → Token → Reader ε α} (hf : Settles p j k (fun n => f n c.peek) c) :
    Settles p j k (fun n => peek >>= f n) c := by
  obtain ⟨x, taken, rest, hahead, hattains, hread⟩ := hf
  refine ⟨x, taken, rest, hahead, hattains, fun n ls hn hhead => ?_⟩
  have hpeek : (c.before (taken ++ ls)).peek = c.peek := by
    have hsame := Cursor.head_append hhead taken
    rw [← hahead] at hsame
    exact congrArg Lexeme.token hsame
  refine (bind_done peek_apply).trans ?_
  rw [hpeek]
  exact hread n ls hn hhead

theorem settles_mark {f : Nat → Option Location → Reader ε α}
    (hf : Settles p j k (fun n => f n c.mark) c) : Settles p j k (fun n => mark >>= f n) c := by
  obtain ⟨x, taken, rest, hahead, hattains, hread⟩ := hf
  refine ⟨x, taken, rest, hahead, hattains, fun n ls hn hhead => ?_⟩
  have hmark : (c.before (taken ++ ls)).mark = c.mark := by
    have hsame := Cursor.head_append hhead taken
    rw [← hahead] at hsame
    rw [Cursor.mark, Cursor.location, hsame]
    rfl
  refine (bind_done mark_apply).trans ?_
  rw [hmark]
  exact hread n ls hn hhead

theorem settles_skip {f : Nat → Unit → Reader ε α} (hpeek : c.peek ≠ .finish)
    (hf : Settles p (j - 1) k (fun n => f n ()) c.next) :
    Settles p j (k + 1) (fun n => skip >>= f n) c := by
  obtain ⟨q, hq⟩ := Cursor.exists_place hpeek
  obtain ⟨x, taken, rest, hahead, hattains, hread⟩ := hf
  refine ⟨x, q.lexeme c.peek :: taken, rest, ?_, ?_, fun n ls hn hhead => ?_⟩
  · rw [hq, Cursor.ahead_before, hahead]
    rfl
  · exact hattains.imp Nat.succ_le_succ
  · rw [List.length_cons] at hn
    exact hread n ls (by omega) hhead

theorem settles_take {accept : Token → Option α} {reason : Token → ε}
    (hfinish : accept .finish = none) (hreason : ∀ t, p (reason t)) :
    Settles p j 1 (fun _ => take accept reason) c := by
  cases ha : accept c.peek with
  | none =>
    refine ⟨.error (reason c.peek), [], c.ahead, rfl, hreason _, fun n ls hn hhead => ?_⟩
    have hpeek : (c.before ls).peek = c.peek := congrArg Lexeme.token hhead
    rw [← hpeek] at ha ⊢
    exact take_failed ha
  | some a =>
    have hpeek : c.peek ≠ .finish := fun hc => by
      rw [hc, hfinish] at ha
      simp at ha
    obtain ⟨q, hq⟩ := Cursor.exists_place hpeek
    refine ⟨.ok a, [q.lexeme c.peek], c.next.ahead, ?_, Nat.le_refl 1, ?_⟩
    · exact congrArg Cursor.ahead hq
    · exact fun n ls _ _ => take_done ha q ls

theorem settles_takeName {e : ε} (he : p e) : Settles p j 1 (fun _ => takeName e) c :=
  settles_take rfl fun _ => he

theorem settles_expect {t : Token} {e : ε} (ht : t ≠ .finish) (he : p e) :
    Settles p j 1 (fun _ => expect t e) c := settles_take (if_neg (Ne.symm ht)) fun _ => he

theorem settles_present {t : Token} {f : Nat → Bool → Reader ε α} (ht : t ≠ .finish)
    (hpeek : c.peek = t) (hf : Settles p (j - 1) k (fun n => f n true) c.next) :
    Settles p j (k + 1) (fun n => optional t >>= f n) c := by
  obtain ⟨q, hq⟩ := Cursor.exists_place (hpeek ▸ ht)
  obtain ⟨x, taken, rest, hahead, hattains, hread⟩ := hf
  refine ⟨x, q.lexeme t :: taken, rest, ?_, ?_, fun n ls hn hhead => ?_⟩
  · rw [hq, Cursor.ahead_before, hahead, hpeek]
    rfl
  · exact hattains.imp Nat.succ_le_succ
  · rw [List.length_cons] at hn
    exact (bind_done (optional_done q _)).trans (hread n ls (by omega) hhead)

theorem settles_absent {t : Token} {f : Nat → Bool → Reader ε α} (hpeek : c.peek ≠ t)
    (hf : Settles p j k (fun n => f n false) c) :
    Settles p j k (fun n => optional t >>= f n) c := by
  obtain ⟨x, taken, rest, hahead, hattains, hread⟩ := hf
  refine ⟨x, taken, rest, hahead, hattains, fun n ls hn hhead => ?_⟩
  have hne : (c.before (taken ++ ls)).peek ≠ t := by
    have hsame := Cursor.head_append hhead taken
    rw [← hahead] at hsame
    exact fun h => hpeek ((congrArg Lexeme.token hsame).symm.trans h)
  exact (bind_done (optional_of_ne hne)).trans (hread n ls hn hhead)

theorem settles_optional {t : Token} {f : Nat → Bool → Reader ε α} (ht : t ≠ .finish)
    (hpresent : c.peek = t → Settles p (j - 1) k (fun n => f n true) c.next)
    (habsent : c.peek ≠ t → Settles p j k (fun n => f n false) c) :
    Settles p j k (fun n => optional t >>= f n) c := by
  by_cases hpeek : c.peek = t
  · exact (settles_present ht hpeek (hpresent hpeek)).mono (Nat.le_refl _) (Nat.le_succ k)
  · exact settles_absent hpeek (habsent hpeek)

theorem settles_part {t : Token} {a : α} (ht : t ≠ .finish)
    (hr : c.peek = t → Settles p (j - 1) 0 r c.next) :
    Settles p j 0 (fun n => optional t >>= fun b => if b then r n else pure a) c :=
  settles_optional ht hr fun _ => settles_pure a

theorem Settles.mapReason {ε' : Type} {q : ε' → Prop} {f : ε → ε'} (h : Settles p j k r c)
    (hf : ∀ e, p e → q (f e)) : Settles q j k (fun n => (r n).mapReason f) c := by
  obtain ⟨x, taken, rest, hahead, hattains, hread⟩ := h
  refine ⟨x.mapError f, taken, rest, hahead, ?_, fun n ls hn hhead => ?_⟩
  · cases x with
    | ok a => exact hattains
    | error e => exact hf e hattains
  · have hread := hread n ls hn hhead
    cases x with
    | ok a => exact mapReason_done hread
    | error e => exact mapReason_failed hread

theorem itemsWithin_stop {go : Token → Bool} {item : Reader ε α} {n : Nat} {as : List α}
    {d : Cursor} (h : itemsWithin go item n c = .done as d) : go d.peek = false := by
  induction n generalizing c as with
  | zero => exact absurd h unfinished_ne_done
  | succ n ih =>
    rw [itemsWithin, bind_done peek_apply] at h
    by_cases hgo : go c.peek = true
    · simp only [if_pos hgo, bind_eq_done, pure_eq_done] at h
      obtain ⟨a, m, -, as, d, has, -, rfl⟩ := h
      exact ih has
    · rw [if_neg hgo, pure_eq_done] at h
      exact h.2 ▸ Bool.eq_false_iff.2 hgo

/-- A repetition goes through at most as many items as it takes tokens. -/
theorem settles_items {go : Token → Bool} {item : Nat → Reader ε α}
    (h : ∀ d, d.ahead.length ≤ c.ahead.length → go d.peek = true → Settles p j 1 item d) :
    ∃ (x : Except ε (List α)) (taken rest : List Lexeme), c.ahead = taken ++ rest ∧
      Attains p 0 taken.length x ∧ ∀ n m ls, taken.length < n + j → taken.length < m →
        (c.before ls).head = (c.before rest).head →
        itemsWithin go (item n) m (c.before (taken ++ ls)) = .ending (c.before ls) x := by
  induction hlength : c.ahead.length using Nat.strongRecOn generalizing c with
  | ind N ih =>
    cases hgo : go c.peek with
    | false =>
      refine ⟨.ok [], [], c.ahead, rfl, Nat.le_refl 0, fun n m ls _ hm hhead => ?_⟩
      obtain ⟨m, rfl⟩ : ∃ k, m = k + 1 := ⟨m - 1, by omega⟩
      have hpeek : (c.before ls).peek = c.peek := congrArg Lexeme.token hhead
      rw [List.nil_append, itemsWithin, bind_done peek_apply, hpeek, hgo]
      rfl
    | true =>
      obtain ⟨x, taken, rest, hahead, hattains, hread⟩ := h c (Nat.le_refl _) hgo
      have hpeek : ∀ ls, (c.before ls).head = (c.before rest).head →
          go (c.before (taken ++ ls)).peek = true := by
        intro ls hhead
        have hsame := Cursor.head_append hhead taken
        rw [← hahead] at hsame
        rw [← hgo]
        exact congrArg (fun l : Lexeme => go l.token) hsame
      cases x with
      | error e =>
        refine ⟨.error e, taken, rest, hahead, hattains, fun n m ls hn hm hhead => ?_⟩
        obtain ⟨m, rfl⟩ : ∃ k, m = k + 1 := ⟨m - 1, by omega⟩
        rw [itemsWithin, bind_done peek_apply, if_pos (hpeek ls hhead)]
        exact bind_failed (hread n ls hn hhead)
      | ok a =>
        have hone : 1 ≤ taken.length := hattains
        have hshort : (c.before rest).ahead.length < N := by
          rw [← hlength, hahead, List.length_append, Cursor.ahead_before]
          omega
        obtain ⟨y, taken', rest', hahead', hattains', hread'⟩ :=
          ih _ hshort (fun d hd => h d (by omega)) rfl
        rw [Cursor.ahead_before] at hahead'
        subst hahead'
        refine ⟨y.map (a :: ·), taken ++ taken', rest', by rw [hahead, List.append_assoc], ?_, ?_⟩
        · cases y with
          | ok as => exact Nat.zero_le _
          | error e => exact hattains'
        · intro n m ls hn hm hhead
          rw [List.length_append] at hn hm
          obtain ⟨m, rfl⟩ : ∃ k, m = k + 1 := ⟨m - 1, by omega⟩
          have hhead' := Cursor.head_append hhead taken'
          rw [List.append_assoc, itemsWithin, bind_done peek_apply, if_pos (hpeek _ hhead'),
            bind_done (hread n _ (by omega) hhead')]
          have hitems := hread' n m ls (by omega) (by omega) hhead
          cases y with
          | ok as => exact bind_done hitems
          | error e => exact bind_failed hitems

theorem settles_itemsWhile {go : Token → Bool} {item : Nat → Reader ε α}
    (h : ∀ d, d.ahead.length ≤ c.ahead.length → go d.peek = true → Settles p j 1 item d) :
    Settles p j 0 (fun n => itemsWhile go (item n)) c := by
  obtain ⟨x, taken, rest, hahead, hattains, hread⟩ := settles_items h
  refine ⟨x, taken, rest, hahead, hattains, fun n ls hn hhead => ?_⟩
  refine hread n _ ls hn ?_ hhead
  rw [Cursor.ahead_before, List.length_append]
  omega

theorem settles_itemsUntil {close : Token} (hclose : close ≠ .finish) {item : Nat → Reader ε α}
    (h : ∀ d, d.ahead.length ≤ c.ahead.length → Settles p j 1 item d) :
    Settles p j 0 (fun n => itemsUntil close (item n)) c := by
  refine (settles_itemsWhile fun d hd _ => h d hd).bind fun n as d hdone _ => ?_
  have hpeek : d.peek = close := by simpa using itemsWithin_stop hdone
  exact (settles_skip (hpeek ▸ hclose) (settles_pure as)).weaken

theorem settles_itemsUntil₁ {close : Token} (hclose : close ≠ .finish) {item : Nat → Reader ε α}
    (h : ∀ d, d.ahead.length ≤ c.ahead.length → Settles p j 1 item d) :
    Settles p j 1 (fun n => itemsUntil₁ close (item n)) c := by
  refine (h c (Nat.le_refl _)).bind fun n a d _ hd => ?_
  have hitem : ∀ e, e.ahead.length ≤ d.ahead.length → Settles p (j - 1) 1 item e :=
    fun e he => (h e (by omega)).mono (Nat.sub_le _ _) (Nat.le_refl _)
  exact (settles_itemsUntil hclose hitem).bind fun _ as _ _ _ => settles_pure (a :: as)

theorem Settles.bounded (h : Settles p 0 k r c) :
    Settles p j k (fun _ c => r (c.ahead.length + 1) c) c := by
  obtain ⟨x, taken, rest, hahead, hattains, hread⟩ := h
  refine ⟨x, taken, rest, hahead, hattains, fun n ls hn hhead => hread _ ls ?_ hhead⟩
  rw [Cursor.ahead_before, List.length_append]
  omega

theorem Settles.of_succ (h : Settles p 1 k (fun n => r (n + 1)) c) : Settles p 0 k r c := by
  obtain ⟨x, taken, rest, hahead, hattains, hread⟩ := h
  refine ⟨x, taken, rest, hahead, hattains, fun n ls hn hhead => ?_⟩
  obtain ⟨n, rfl⟩ : ∃ m, n = m + 1 := ⟨n - 1, by omega⟩
  exact hread n ls hn hhead

end Reader
end GraphQLCheck
