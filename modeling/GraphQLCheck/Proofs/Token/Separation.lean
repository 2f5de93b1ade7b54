import GraphQLCheck.Proofs.Token.Extent

/-!
Text that is not significant. A gap is a text of separators and of comments that are closed. It
has no tokens (`Gap.tokens_append`), and it parts what stands in front of it from what stands
behind. The tokens in front stay what they are where the text behind one of them is exchanged for
one that is parted from it (`Lexeme.exists_tokens_exchange`), so that a gap may be put there
(`Lexeme.exists_tokens_insert`).
-/
namespace GraphQLCheck

/-- A comment is closed by the end of its line. -/
inductive Gap : List Char → Prop
  | nil : Gap []
  | separator {c : Char} {gap : List Char} (hc : c ∈ separators) (h : Gap gap) : Gap (c :: gap)
  | comment {text gap : List Char} {c : Char} (htext : OneLine text) (hc : c = '\n' ∨ c = '\r')
      (h : Gap gap) : Gap ('#' :: (text ++ c :: gap))

theorem Gap.parted {gap : List Char} (h : Gap gap) (hne : gap ≠ []) (cs : List Char) :
    Parted (gap ++ cs) := by
  cases h with
  | nil => exact absurd rfl hne
  | separator hc h => exact ⟨_, _, rfl, List.mem_cons_of_mem _ hc⟩
  | comment htext hc h => exact ⟨_, _, rfl, List.mem_cons_self⟩

theorem ignored_eq_zero_iff {c : Char} {cs : List Char} :
    ignored c cs = 0 ↔ isSeparator c = false ∧ c ≠ '#' := by
  unfold ignored
  split
  · simp [*]
  · split
    · simp [*]
    · simp [*]

theorem ignored_le (c : Char) (cs : List Char) : ignored c cs ≤ cs.length + 1 := by
  unfold ignored
  split
  · exact Nat.le_add_left 1 _
  · split
    · rw [Nat.add_comm]
      exact Nat.succ_le_succ (length_takeWhile_le _ _)
    · exact Nat.zero_le _

theorem length_takeWhile_eq {p : Char → Bool} {cs r : List Char} {c : Char} :
    ((cs ++ c :: r).takeWhile p).length = cs.length ↔ (∀ d ∈ cs, p d = true) ∧ p c = false := by
  induction cs with
  | nil => simp [List.takeWhile_cons]
  | cons d ds ih =>
    by_cases hd : p d = true
    · rw [List.cons_append, List.takeWhile_cons, if_pos hd, List.length_cons, List.length_cons,
        Nat.add_right_cancel_iff, ih, List.forall_mem_cons, and_iff_right hd]
    · simp [hd]

theorem ignored_part {c d : Char} {part r : List Char}
    (h : ignored c (part ++ d :: r) = part.length + 1) (r' : List Char) :
    ignored c (part ++ d :: r') = part.length + 1 := by
  by_cases hseparator : isSeparator c = true
  · rw [ignored, if_pos hseparator] at h ⊢
    exact h
  · by_cases hcomment : c = '#'
    · rw [ignored, if_neg hseparator, if_pos hcomment] at h ⊢
      have hrun := length_takeWhile_eq.1 (Nat.add_left_cancel (h.trans (Nat.add_comm _ 1)))
      rw [length_takeWhile_eq.2 hrun, Nat.add_comm]
    · rw [ignored, if_neg hseparator, if_neg hcomment] at h
      exact absurd h.symm (Nat.succ_ne_zero _)

theorem ignored_comment {text r : List Char} {c : Char} (htext : OneLine text)
    (hc : c = '\n' ∨ c = '\r') : ignored '#' (text ++ c :: r) = text.length + 1 := by
  have hrun : ((text ++ c :: r).takeWhile fun d => d ≠ '\n' ∧ d ≠ '\r').length = text.length := by
    refine length_takeWhile_eq.2 ⟨fun d hd => decide_eq_true (htext d hd), ?_⟩
    obtain rfl | rfl := hc <;> rfl
  rw [ignored, if_neg (by decide), if_pos rfl, hrun, Nat.add_comm]

namespace Lexeme

theorem exists_append_of_pos {k : Nat} {cs : List Char} (hpos : 0 < k) (hk : k ≤ cs.length + 1) :
    ∃ part rest, cs = part ++ rest ∧ k = part.length + 1 := by
  refine ⟨cs.take (k - 1), cs.drop (k - 1), (List.take_append_drop _ _).symm, ?_⟩
  rw [List.length_take]
  omega

/-- A text is scanned part by part. Each part is passed over or is a token. -/
theorem scan_induction {motive : List Char → Prop} (nil : motive [])
    (skip : ∀ c part rest, ignored c (part ++ rest) = part.length + 1 →
      motive rest → motive (c :: (part ++ rest)))
    (token : ∀ c part rest t, ignored c (part ++ rest) = 0 →
      Token.first c (part ++ rest) = (t, part.length + 1) →
      motive rest → motive (c :: (part ++ rest)))
    (cs : List Char) : motive cs := by
  induction hn : cs.length using Nat.strongRecOn generalizing cs with
  | ind n ih =>
    cases cs with
    | nil => exact nil
    | cons c cs =>
      by_cases h : ignored c cs = 0
      · obtain ⟨part, rest, rfl, hsize⟩ :=
          exists_append_of_pos (Token.first_snd_pos c cs) (Token.first_snd_le c cs)
        refine token c part rest _ h (Prod.ext rfl hsize) (ih rest.length ?_ rest rfl)
        rw [← hn, List.length_cons, List.length_append]
        omega
      · obtain ⟨part, rest, rfl, hsize⟩ :=
          exists_append_of_pos (Nat.pos_of_ne_zero h) (ignored_le c cs)
        refine skip c part rest hsize (ih rest.length ?_ rest rfl)
        rw [← hn, List.length_cons, List.length_append]
        omega

section
variable {c : Char} {part rest : List Char}

theorem scanAt_skip_part (h : ignored c (part ++ rest) = part.length + 1) (p : Position) :
    scanAt p (c :: (part ++ rest)) = scanAt (p.after (c :: part)) rest := by
  rw [scanAt_skip (by omega), h, List.take_succ_cons, List.drop_succ_cons, List.take_left,
    List.drop_left]

theorem scanAt_token_part {t : Token} (h : ignored c (part ++ rest) = 0)
    (hfirst : Token.first c (part ++ rest) = (t, part.length + 1)) (p : Position) :
    scanAt p (c :: (part ++ rest)) =
      ⟨t, ⟨p.offset, (p.after (c :: part)).offset⟩, p.location⟩ ::
        scanAt (p.after (c :: part)) rest := by
  rw [scanAt_token h, hfirst, List.take_succ_cons, List.drop_succ_cons, List.take_left,
    List.drop_left]

end

theorem exists_of_mem_scanAt {p : Position} {cs : List Char} {l : Lexeme} (hl : l ∈ scanAt p cs) :
    ∃ before c part rest t, cs = before ++ c :: (part ++ rest) ∧
      Token.first c (part ++ rest) = (t, part.length + 1) ∧
      l = ⟨t, ⟨(p.after before).offset, ((p.after before).after (c :: part)).offset⟩,
        (p.after before).location⟩ := by
  induction cs using scan_induction generalizing p with
  | nil => simp [scanAt_nil] at hl
  | skip c part rest h ih =>
    rw [scanAt_skip_part h] at hl
    obtain ⟨before, d, part', rest', t, rfl, hfirst, rfl⟩ := ih hl
    refine ⟨c :: (part ++ before), d, part', rest', t, by simp, hfirst, ?_⟩
    rw [← List.cons_append, Position.after_append]
  | token c part rest t h hfirst ih =>
    rw [scanAt_token_part h hfirst] at hl
    obtain rfl | hl := List.mem_cons.1 hl
    · exact ⟨[], c, part, rest, t, rfl, hfirst, rfl⟩
    · obtain ⟨before, d, part', rest', t, rfl, hfirst, rfl⟩ := ih hl
      refine ⟨c :: (part ++ before), d, part', rest', t, by simp, hfirst, ?_⟩
      rw [← List.cons_append, Position.after_append]

theorem exists_of_mem_scan {source : List Char} {l : Lexeme} (hl : l ∈ scan source) :
    ∃ before c part rest, source = before ++ c :: (part ++ rest) ∧
      l.span.text source = c :: part ∧
      Token.first c (part ++ rest) = (l.token, part.length + 1) := by
  obtain ⟨before, c, part, rest, t, rfl, hfirst, rfl⟩ := exists_of_mem_scanAt (p := .start) hl
  refine ⟨before, c, part, rest, rfl, ?_, hfirst⟩
  have hstop : before ++ c :: (part ++ rest) = (before ++ c :: part) ++ rest := by simp
  simp only [Span.text, Position.after, Position.start, Nat.zero_add]
  rw [hstop, ← List.length_append, List.take_left, List.drop_left]

def tokens (cs : List Char) : List Token := (scan cs).map token

theorem map_token_scanAt (p : Position) (cs : List Char) :
    (scanAt p cs).map token = tokens cs := by
  change _ = (scanAt .start cs).map token
  generalize Position.start = q
  induction cs using scan_induction generalizing p q with
  | nil => rfl
  | skip c part rest h ih => rw [scanAt_skip_part h, scanAt_skip_part h, ih]
  | token c part rest t h hfirst ih =>
    rw [scanAt_token_part h hfirst, scanAt_token_part h hfirst, List.map_cons, List.map_cons, ih]

section
variable {c : Char} {part before after : List Char}

theorem tokens_skip (h : ignored c (part ++ after) = part.length + 1) :
    tokens (c :: (part ++ after)) = tokens after := by
  rw [← map_token_scanAt .start, scanAt_skip_part h, map_token_scanAt]

theorem tokens_token {t : Token} (h : ignored c (part ++ after) = 0)
    (hfirst : Token.first c (part ++ after) = (t, part.length + 1)) :
    tokens (c :: (part ++ after)) = t :: tokens after := by
  rw [← map_token_scanAt .start, scanAt_token_part h hfirst, List.map_cons, map_token_scanAt]

theorem tokens_separator (hc : c ∈ separators) (cs : List Char) :
    tokens (c :: cs) = tokens cs :=
  have hskip : ignored c ([] ++ cs) = [].length + 1 := if_pos (isSeparator_iff.2 hc)
  tokens_skip hskip

end

end Lexeme

open Lexeme

theorem Gap.tokens_append {gap : List Char} (h : Gap gap) (cs : List Char) :
    tokens (gap ++ cs) = tokens cs := by
  induction h with
  | nil => rfl
  | separator hc h ih => exact (tokens_separator hc _).trans ih
  | @comment text gap c htext hc h ih =>
    have hbreak : c ∈ separators := by
      obtain rfl | rfl := hc <;> decide
    rw [List.cons_append, List.append_assoc, List.cons_append,
      tokens_skip (ignored_comment htext hc), tokens_separator hbreak, ih]

namespace Lexeme

section
variable {c : Char} {part before after zs : List Char}

theorem tokens_skip_part (h : ignored c (part ++ (before ++ after)) = part.length + 1)
    (hbefore : before ≠ []) (zs : List Char) :
    tokens (c :: (part ++ (before ++ zs))) = tokens (before ++ zs) := by
  obtain ⟨d, before, rfl⟩ := List.exists_cons_of_ne_nil hbefore
  exact tokens_skip (ignored_part h _)

variable (before) in
theorem tokens_token_part {t : Token} (h : ignored c (part ++ (before ++ after)) = 0)
    (hfirst : Token.first c (part ++ (before ++ after)) = (t, part.length + 1))
    (ht : t ≠ .invalid) (hz : Parted zs) :
    tokens (c :: (part ++ (before ++ zs))) = t :: tokens (before ++ zs) := by
  refine tokens_token (ignored_eq_zero_iff.2 (ignored_eq_zero_iff.1 h)) ?_
  rw [← List.append_assoc] at hfirst ⊢
  apply Token.first_part hz hfirst ht
  rw [List.length_append]
  omega

end

/-- Some of the first tokens of a text are those of a part of the text, and they stay the same where
what stands behind this part is exchanged for a text that is parted from it. -/
theorem exists_tokens_exchange {p : Position} {cs : List Char} {taken rest : List Lexeme}
    (hscan : scanAt p cs = taken ++ rest) (hvalid : ∀ l ∈ taken, l.token ≠ .invalid)
    (hne : taken ≠ []) :
    ∃ before after, cs = before ++ after ∧ before ≠ [] ∧ tokens after = rest.map token ∧
      (∀ l ∈ taken.getLast?, l.span.stop = p.offset + before.length) ∧
      ∀ zs, Parted zs → tokens (before ++ zs) = taken.map token ++ tokens zs := by
  induction cs using scan_induction generalizing p taken with
  | nil => exact absurd (List.append_eq_nil_iff.1 hscan.symm).1 hne
  | skip c part tail h ih =>
    rw [scanAt_skip_part h] at hscan
    obtain ⟨before, after, rfl, hbefore, hafter, hstop, hexchange⟩ := ih hscan hvalid hne
    refine ⟨c :: (part ++ before), after, by simp, List.cons_ne_nil _ _, hafter, fun l hl => ?_,
      fun zs hz => ?_⟩
    · simp only [hstop l hl, Position.after, List.length_cons, List.length_append]
      omega
    · rw [List.cons_append, List.append_assoc, tokens_skip_part h hbefore, hexchange zs hz]
  | token c part tail t h hfirst ih =>
    obtain ⟨l, taken, rfl⟩ := List.exists_cons_of_ne_nil hne
    rw [scanAt_token_part h hfirst, List.cons_append] at hscan
    obtain ⟨rfl, htail⟩ := List.cons.inj hscan
    obtain ⟨ht, htaken⟩ := List.forall_mem_cons.1 hvalid
    by_cases hlast : taken = []
    · subst hlast
      refine ⟨c :: part, tail, by simp, List.cons_ne_nil _ _, ?_, ?_, fun zs hz => ?_⟩
      · rw [← map_token_scanAt, htail, List.nil_append]
      · rintro _ ⟨⟩
        rfl
      · exact tokens_token_part [] h hfirst ht hz
    · obtain ⟨before, after, rfl, -, hafter, hstop, hexchange⟩ := ih htail htaken hlast
      refine ⟨c :: (part ++ before), after, by simp, List.cons_ne_nil _ _, hafter, fun l hl => ?_,
        fun zs hz => ?_⟩
      · rw [List.getLast?_cons_of_ne_nil hlast] at hl
        simp only [hstop l hl, Position.after, List.length_cons, List.length_append]
        omega
      · rw [List.cons_append, List.append_assoc, tokens_token_part before h hfirst ht hz,
          hexchange zs hz]
        rfl

theorem exists_tokens_insert {p : Position} {cs : List Char}
    (hvalid : ∀ l ∈ scanAt p cs, l.token ≠ .invalid) {l : Lexeme} (hl : l ∈ scanAt p cs) :
    ∃ before after, cs = before ++ after ∧ before ≠ [] ∧
      l.span.stop = p.offset + before.length ∧
      ∀ gap, Gap gap → tokens (before ++ (gap ++ after)) = tokens cs := by
  obtain ⟨front, rest, hscan⟩ := List.append_of_mem hl
  have htaken : scanAt p cs = (front ++ [l]) ++ rest := by simpa using hscan
  have hfront : ∀ k ∈ front ++ [l], k.token ≠ .invalid :=
    fun k hk => hvalid k (htaken ▸ List.mem_append_left rest hk)
  obtain ⟨before, after, rfl, hbefore, hafter, hstop, hexchange⟩ :=
    exists_tokens_exchange htaken hfront (by simp)
  refine ⟨before, after, rfl, hbefore, hstop l (by simp), fun gap hgap => ?_⟩
  by_cases hnil : gap = []
  · rw [hnil, List.nil_append]
  · rw [hexchange _ (hgap.parted hnil after), hgap.tokens_append, hafter, ← List.map_append,
      ← htaken, map_token_scanAt]

def Bound (source : List Char) (k : Nat) : Prop := k = 0 ∨ ∃ l ∈ scan source, l.span.stop = k

theorem tokens_insert {source gap : List Char} (hvalid : ∀ l ∈ scan source, l.token ≠ .invalid)
    (hgap : Gap gap) {k : Nat} (hk : Bound source k) :
    tokens (source.take k ++ (gap ++ source.drop k)) = tokens source := by
  obtain rfl | ⟨l, hl, rfl⟩ := hk
  · exact hgap.tokens_append source
  · obtain ⟨before, after, rfl, -, hstop, hinsert⟩ := exists_tokens_insert hvalid hl
    rw [hstop, Position.start, Nat.zero_add, List.take_left, List.drop_left, hinsert gap hgap]

end Lexeme
end GraphQLCheck
