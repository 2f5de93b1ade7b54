import GraphQLCheck.Proofs.Token.Rescan

/-!
How far a token reaches. A token is read off the characters that it takes and off those behind
them that could go on with it, which separators and comments never do. So where the text behind
some of its characters is exchanged for one that is parted from them, a token that lies in these
characters stays as it is (`Token.first_part`).
-/
namespace GraphQLCheck

/-- What is read lies in the first characters of the text, at least `least` of them, and is read in
every text that begins with them. -/
def Closes (read : List Char → Option (List Char × Nat)) (least : Nat) (cs : List Char)
    (r : List Char × Nat) : Prop :=
  ∃ part rest, cs = part ++ rest ∧ part.length = r.2 ∧ least ≤ r.2 ∧
    ∀ zs, read (part ++ zs) = some r

theorem Closes.step {read : List Char → Option (List Char × Nat)} {least : Nat} {cs : List Char}
    {r s : List Char × Nat} (h : Closes read least cs r) (front : List Char)
    (hsize : s.2 = r.2 + front.length)
    (hread : ∀ part after, cs = part ++ after → least ≤ part.length → ∀ zs,
      read (part ++ zs) = some r → read (front ++ (part ++ zs)) = some s) :
    Closes read least (front ++ cs) s := by
  obtain ⟨part, rest, rfl, hlength, hleast, hpart⟩ := h
  refine ⟨front ++ part, rest, (List.append_assoc _ _ _).symm, ?_, by omega, fun zs => ?_⟩
  · rw [List.length_append]
    omega
  · rw [List.append_assoc]
    exact hread part rest rfl (by omega) zs (hpart zs)

namespace BlockText

theorem read_quotes {rest : List Char} (h : ∀ tail, rest ≠ '"' :: tail) :
    read ('"' :: '"' :: rest) = (read rest).map fun y => ('"' :: '"' :: y.1, y.2 + 2) := by
  rw [read]
  · cases read rest <;> rfl
  · exact h

theorem read_escaped (rest : List Char) :
    read ('\\' :: '"' :: '"' :: '"' :: rest) =
      (read rest).map fun y => ('"' :: '"' :: '"' :: y.1, y.2 + 4) := by
  rw [read]
  cases read rest <;> rfl

theorem read_break (rest : List Char) :
    read ('\r' :: '\n' :: rest) = (read rest).map fun y => ('\n' :: y.1, y.2 + 2) := by
  rw [read]
  cases read rest <;> rfl

theorem read_plain {c : Char} {rest : List Char} (hquote : c ≠ '"')
    (hescaped : ∀ tail, c = '\\' → rest ≠ '"' :: '"' :: '"' :: tail)
    (hbreak : ∀ tail, c = '\r' → rest ≠ '\n' :: tail) :
    read (c :: rest) =
      (read rest).map fun y => ((if c = '\r' then '\n' else c) :: y.1, y.2 + 1) := by
  rw [read]
  · cases read rest <;> rfl
  · exact fun _ h => absurd h hquote
  · exact fun _ h => absurd h hquote
  · exact hquote
  · exact hescaped
  · exact hbreak

theorem closes {cs : List Char} {r : List Char × Nat} (h : read cs = some r) :
    Closes read 3 cs r := by
  fun_induction read cs generalizing r with
  | case1 => simp at h
  | case2 tail =>
    obtain rfl := Option.some.inj h
    exact ⟨['"', '"', '"'], tail, rfl, rfl, Nat.le_refl 3, fun _ => rfl⟩
  | case3 rest hrest ih =>
    obtain ⟨r, hread, heq⟩ := Option.bind_eq_some_iff.1 h
    obtain rfl := Option.some.inj heq
    refine (ih hread).step ['"', '"'] rfl fun part after hpart hlength zs hr => ?_
    obtain ⟨x, p, rfl⟩ := List.exists_cons_of_length_pos (Nat.lt_of_lt_of_le (by decide) hlength)
    refine (read_quotes ?_).trans (congrArg _ hr)
    rintro tail ⟨⟩
    exact hrest _ hpart
  | case4 => simp at h
  | case5 rest ih =>
    obtain ⟨r, hread, heq⟩ := Option.bind_eq_some_iff.1 h
    obtain rfl := Option.some.inj heq
    refine (ih hread).step ['\\', '"', '"', '"'] rfl fun part _ _ _ zs hr => ?_
    exact (read_escaped (part ++ zs)).trans (congrArg _ hr)
  | case6 rest ih =>
    obtain ⟨r, hread, heq⟩ := Option.bind_eq_some_iff.1 h
    obtain rfl := Option.some.inj heq
    refine (ih hread).step ['\r', '\n'] rfl fun part _ _ _ zs hr => ?_
    exact (read_break (part ++ zs)).trans (congrArg _ hr)
  | case7 c rest _ _ hquote hescaped hbreak ih =>
    obtain ⟨r, hread, heq⟩ := Option.bind_eq_some_iff.1 h
    obtain rfl := Option.some.inj heq
    refine (ih hread).step [c] rfl fun part after hpart hlength zs hr => ?_
    -- The three characters that decide how `c` is read are in the part.
    obtain ⟨x, y, z, p, rfl⟩ : ∃ x y z p, part = x :: y :: z :: p := by
      match part, hlength with
      | x :: y :: z :: p, _ => exact ⟨x, y, z, p, rfl⟩
    refine (read_plain hquote ?_ ?_).trans (congrArg _ hr)
    · rintro tail hc ⟨⟩
      exact hescaped _ hc hpart
    · rintro tail hc ⟨⟩
      exact hbreak _ hc hpart

end BlockText

namespace QuotedText

theorem closes {cs : List Char} {r : List Char × Nat} (h : read cs = some r) :
    Closes read 1 cs r := by
  obtain ⟨spelled, rest, hitems, rfl, hsize⟩ := items_of_read h
  refine ⟨spelled ++ ['"'], rest, by simp, by simp [hsize], by omega, fun zs => ?_⟩
  rw [List.append_assoc]
  exact (read_closed hitems zs).trans (hsize ▸ rfl)

theorem unreadable_le (cs : List Char) : unreadable cs ≤ cs.length := by
  unfold unreadable
  dsimp only
  split
  · exact (List.takeWhile_sublist _).length_le
  · exact Nat.zero_le _

end QuotedText

def separators : List Char := [' ', ',', '\t', '\n', '\r', '\x0c', '\uFEFF']

theorem isSeparator_iff {c : Char} : isSeparator c = true ↔ c ∈ separators := by
  simp [isSeparator, separators, or_assoc]

/-- The text begins with a separator or a comment. -/
def Parted (r : List Char) : Prop := ∃ c cs, r = c :: cs ∧ c ∈ '#' :: separators

theorem Parted.endsRun {p : Char → Bool} {r : List Char} (hr : Parted r)
    (hp : ('#' :: separators).all fun c => !p c) : EndsRun p r := by
  obtain ⟨c, cs, rfl, hc⟩ := hr
  rintro d ⟨⟩
  have hnot := List.all_eq_true.1 hp c hc
  rwa [Bool.not_eq_true'] at hnot

theorem EndsRun.takeWhile_eq_nil {p : Char → Bool} {r : List Char} (hr : EndsRun p r) :
    r.takeWhile p = [] := by
  rw [← List.nil_append r]
  exact takeWhile_run (by simp) hr

theorem exists_append_of_length_le {part rest cs ys : List Char} (h : cs ++ ys = part ++ rest)
    (hlength : part.length ≤ cs.length) : ∃ r, cs = part ++ r := by
  have hprefix : part <+: cs ++ ys := ⟨rest, h.symm⟩
  obtain ⟨r, hr⟩ := List.prefix_of_prefix_length_le hprefix (List.prefix_append cs ys) hlength
  exact ⟨r, hr.symm⟩

theorem length_takeWhile_le (p : Char → Bool) (cs : List Char) :
    (cs.takeWhile p).length ≤ cs.length := (List.takeWhile_sublist p).length_le

theorem length_name?_le {cs n : List Char} (h : name? cs = some n) : n.length ≤ cs.length := by
  cases cs with
  | nil => simp [name?] at h
  | cons c cs =>
    rw [name?] at h
    split at h
    · obtain rfl := Option.some.inj h
      exact Nat.succ_le_succ (length_takeWhile_le _ _)
    · simp at h

theorem name?_cons_eq_none {c : Char} {cs : List Char} :
    name? (c :: cs) = none ↔ isNameStart c = false := by
  simp [name?]

section
variable {cs ys zs : List Char}

theorem takeWhile_part {p : Char → Bool} (hz : EndsRun p zs)
    (hlength : ((cs ++ ys).takeWhile p).length ≤ cs.length) :
    (cs ++ zs).takeWhile p = (cs ++ ys).takeWhile p := by
  induction cs with
  | nil =>
    have hys : ys.takeWhile p = [] := List.length_eq_zero_iff.1 (Nat.le_zero.1 hlength)
    exact hz.takeWhile_eq_nil.trans hys.symm
  | cons c cs ih =>
    by_cases hc : p c
    · simp only [List.cons_append, List.takeWhile_cons, hc, if_true, List.length_cons] at hlength ⊢
      rw [ih (by omega)]
    · simp only [List.cons_append, List.takeWhile_cons, hc, Bool.false_eq_true, if_false]

theorem name?_part {n : List Char} (hz : Parted zs) (h : name? (cs ++ ys) = some n)
    (hn : n.length ≤ cs.length) : name? (cs ++ zs) = some n := by
  cases cs with
  | nil => exact absurd hn (Nat.not_le.2 (length_name?_pos h))
  | cons c cs =>
    rw [List.cons_append, name?] at h ⊢
    by_cases hc : isNameStart c = true
    · rw [if_pos hc] at h ⊢
      obtain rfl := Option.some.inj h
      rw [takeWhile_part (hz.endsRun (by decide)) (Nat.le_of_succ_le_succ hn)]
    · rw [if_neg hc] at h
      simp at h

namespace Numeral

theorem length_natural_le {cs n : List Char} (h : natural cs = some n) :
    n.length ≤ cs.length := by
  cases cs with
  | nil => simp [natural] at h
  | cons c cs =>
    rw [natural] at h
    split at h
    · obtain rfl := Option.some.inj h
      exact Nat.succ_le_succ (Nat.zero_le _)
    · split at h
      · obtain rfl := Option.some.inj h
        exact Nat.succ_le_succ (length_takeWhile_le _ _)
      · simp at h

theorem length_whole_le {cs w : List Char} (h : whole cs = some w) : w.length ≤ cs.length := by
  unfold whole at h
  split at h
  · obtain ⟨n, hn, rfl⟩ := Option.map_eq_some_iff.1 h
    exact Nat.succ_le_succ (length_natural_le hn)
  · exact length_natural_le h

theorem length_fraction_le (cs : List Char) : (fraction cs).length ≤ cs.length := by
  unfold fraction
  split
  · dsimp only
    split
    · exact Nat.zero_le _
    · exact Nat.succ_le_succ (length_takeWhile_le _ _)
  · exact Nat.zero_le _

theorem natural_part {n : List Char} (hz : Parted zs) (h : natural (cs ++ ys) = some n)
    (hn : n.length ≤ cs.length) : natural (cs ++ zs) = some n := by
  cases cs with
  | nil => exact absurd hn (Nat.not_le.2 (length_natural_pos h))
  | cons c cs =>
    rw [List.cons_append, natural] at h ⊢
    by_cases hzero : c = '0'
    · rw [if_pos hzero] at h ⊢
      exact h
    · rw [if_neg hzero] at h ⊢
      by_cases hc : c.isDigit = true
      · rw [if_pos hc] at h ⊢
        obtain rfl := Option.some.inj h
        rw [takeWhile_part (hz.endsRun (by decide)) (Nat.le_of_succ_le_succ hn)]
      · rw [if_neg hc] at h
        simp at h

theorem whole_part {w : List Char} (hz : Parted zs) (h : whole (cs ++ ys) = some w)
    (hw : w.length ≤ cs.length) : whole (cs ++ zs) = some w := by
  cases cs with
  | nil => exact absurd hw (Nat.not_le.2 (length_whole_pos h))
  | cons c cs =>
    by_cases hc : c = '-'
    · subst hc
      obtain ⟨n, hn, rfl⟩ := Option.map_eq_some_iff.1 h
      have hpart := natural_part hz hn (Nat.le_of_succ_le_succ hw)
      exact Option.map_eq_some_iff.2 ⟨n, hpart, rfl⟩
    · have hwhole : ∀ ds, whole (c :: ds) = natural (c :: ds) := by
        intro ds
        rw [whole]
        rintro _ ⟨rfl, -⟩
        exact hc rfl
      rw [List.cons_append, hwhole, ← List.cons_append] at h ⊢
      exact natural_part hz h hw

theorem fraction_part (hz : Parted zs) (h : (fraction (cs ++ ys)).length ≤ cs.length) :
    fraction (cs ++ zs) = fraction (cs ++ ys) := by
  cases cs with
  | nil =>
    have hys : fraction ys = [] := List.length_eq_zero_iff.1 (Nat.le_zero.1 h)
    have hzs : fraction zs = [] := fraction_append (.inl rfl) (hz.endsRun (by decide))
    exact hzs.trans hys.symm
  | cons c cs =>
    by_cases hc : c = '.'
    · subst hc
      have hdigits : ((cs ++ ys).takeWhile Char.isDigit).length ≤ cs.length := by
        simp only [List.cons_append, fraction, List.isEmpty_iff] at h
        split at h
        · rename_i hempty
          rw [hempty]
          exact Nat.zero_le _
        · exact Nat.le_of_succ_le_succ h
      simp only [List.cons_append, fraction, takeWhile_part (hz.endsRun (by decide)) hdigits]
    · have hnone : ∀ ds, fraction (c :: ds) = [] := by
        intro ds
        rw [fraction]
        rintro _ ⟨rfl, -⟩
        exact hc rfl
      exact (hnone _).trans (hnone _).symm

theorem sign_cons (c : Char) (cs ds : List Char) : sign (c :: cs) = sign (c :: ds) := by
  by_cases hplus : c = '+'
  · subst hplus
    rfl
  · by_cases hminus : c = '-'
    · subst hminus
      rfl
    · simp [sign, hplus, hminus]

def signed (cs : List Char) : List Char := (cs.drop (sign cs).length).takeWhile Char.isDigit

theorem exponent_cons (c : Char) (cs : List Char) :
    exponent (c :: cs) =
      if (c = 'e' ∨ c = 'E') ∧ !(signed cs).isEmpty then c :: (sign cs ++ signed cs) else [] := rfl

theorem length_sign_le (cs : List Char) : (sign cs).length ≤ 1 := by
  obtain h | h | h := sign_cases cs <;> simp [h]

theorem length_exponent_le (cs : List Char) : (exponent cs).length ≤ cs.length := by
  cases cs with
  | nil => exact Nat.le_refl _
  | cons c cs =>
    have hsign : (sign cs).length ≤ cs.length := by
      cases cs with
      | nil => exact Nat.le_refl _
      | cons d ds => exact Nat.le_trans (length_sign_le _) (Nat.le_add_left 1 _)
    have hsigned := length_takeWhile_le Char.isDigit (cs.drop (sign cs).length)
    rw [List.length_drop] at hsigned
    rw [exponent_cons, signed]
    split
    · rw [List.length_cons, List.length_cons, List.length_append]
      omega
    · exact Nat.zero_le _

theorem signed_parted (hz : Parted zs) : signed zs = [] := by
  obtain ⟨d, ds, rfl, hd⟩ := id hz
  have hsign : sign (d :: ds) = [] := by
    rw [sign]
    · rintro _ ⟨rfl, -⟩
      exact absurd hd (by decide)
    · rintro _ ⟨rfl, -⟩
      exact absurd hd (by decide)
  rw [signed, hsign]
  exact (hz.endsRun (by decide)).takeWhile_eq_nil

theorem signed_part (hz : Parted zs) (h : signed (cs ++ ys) = [] ∨
      (sign (cs ++ ys)).length + (signed (cs ++ ys)).length ≤ cs.length) :
    signed (cs ++ zs) = signed (cs ++ ys) := by
  cases cs with
  | nil =>
    have hys : signed ys = [] := by
      obtain h | h := h
      · exact h
      · rw [List.length_nil] at h
        exact List.length_eq_zero_iff.1 (Nat.le_zero.1 (Nat.le_trans (Nat.le_add_left _ _) h))
    exact (signed_parted hz).trans hys.symm
  | cons d cs =>
    have hsign : sign (d :: cs ++ zs) = sign (d :: cs ++ ys) := sign_cons d _ _
    have hone := length_sign_le (d :: cs ++ ys)
    have hlength : (sign (d :: cs ++ ys)).length ≤ (d :: cs).length := by
      rw [List.length_cons]
      omega
    have hrun : (signed (d :: cs ++ ys)).length ≤
        ((d :: cs).drop (sign (d :: cs ++ ys)).length).length := by
      rw [List.length_drop]
      obtain h | h := h
      · rw [h]
        exact Nat.zero_le _
      · omega
    rw [signed, List.drop_append_of_le_length hlength] at hrun
    rw [signed, signed, hsign, List.drop_append_of_le_length hlength,
      List.drop_append_of_le_length hlength]
    exact takeWhile_part (hz.endsRun (by decide)) hrun

theorem exponent_part (hz : Parted zs) (h : (exponent (cs ++ ys)).length ≤ cs.length) :
    exponent (cs ++ zs) = exponent (cs ++ ys) := by
  cases cs with
  | nil =>
    have hys : exponent ys = [] := List.length_eq_zero_iff.1 (Nat.le_zero.1 h)
    have hzs : exponent zs = [] := exponent_append (.inl rfl) (hz.endsRun (by decide))
    exact hzs.trans hys.symm
  | cons c cs =>
    rw [List.cons_append, List.cons_append, exponent_cons, exponent_cons]
    rw [List.cons_append, exponent_cons] at h
    by_cases he : c = 'e' ∨ c = 'E'
    · by_cases hempty : signed (cs ++ ys) = []
      · rw [signed_part hz (.inl hempty), hempty]
        simp
      · have hcondition : (c = 'e' ∨ c = 'E') ∧ !(signed (cs ++ ys)).isEmpty :=
          ⟨he, by simpa using hempty⟩
        rw [if_pos hcondition, List.length_cons, List.length_append] at h
        have hlength := Nat.le_of_succ_le_succ h
        cases cs with
        | nil =>
          have hpos := List.length_pos_iff.2 hempty
          rw [List.length_nil] at hlength
          omega
        | cons d cs =>
          have hsign : sign (d :: cs ++ zs) = sign (d :: cs ++ ys) := sign_cons d _ _
          rw [signed_part hz (.inr hlength), hsign]
    · rw [if_neg (fun hn => he hn.1), if_neg (fun hn => he hn.1)]

end Numeral

namespace Token

theorem number?_part {t : Token} {n : Nat} (hz : Parted zs) (h : number? (cs ++ ys) = some (t, n))
    (hn : n ≤ cs.length) : number? (cs ++ zs) = some (t, n) := by
  obtain ⟨w, hw, h⟩ := Option.bind_eq_some_iff.1 h
  obtain ⟨rfl, rfl⟩ := Prod.mk.inj (Option.some.inj h)
  rw [List.length_append, List.length_append] at hn
  have hwhole : w.length ≤ cs.length := by omega
  have hfraction : Numeral.fraction ((cs ++ zs).drop w.length) =
      Numeral.fraction ((cs ++ ys).drop w.length) := by
    rw [List.drop_append_of_le_length hwhole] at hn ⊢
    rw [List.drop_append_of_le_length hwhole]
    apply Numeral.fraction_part hz
    rw [List.length_drop]
    omega
  have hexponent : ∀ k, k ≤ cs.length →
      k + (Numeral.exponent ((cs ++ ys).drop k)).length ≤ cs.length →
      Numeral.exponent ((cs ++ zs).drop k) = Numeral.exponent ((cs ++ ys).drop k) := by
    intro k hk hlength
    rw [List.drop_append_of_le_length hk] at hlength ⊢
    rw [List.drop_append_of_le_length hk]
    apply Numeral.exponent_part hz
    rw [List.length_drop]
    omega
  simp only [number?, Numeral.whole_part hz hw hwhole, Option.bind_eq_bind, Option.bind_some,
    hfraction, hexponent _ (by omega) hn]
  rfl

theorem afterQuote_part {t : Token} {n : Nat} (hz : Parted zs) (h : afterQuote (cs ++ ys) = (t, n))
    (ht : t ≠ .invalid) (hn : n ≤ cs.length + 1) : afterQuote (cs ++ zs) = (t, n) := by
  by_cases hblock : ∃ tail, cs ++ ys = '"' :: '"' :: tail
  · obtain ⟨tail, htail⟩ := hblock
    rw [htail, afterQuote] at h
    cases hread : BlockText.read tail with
    | none =>
      rw [hread] at h
      exact absurd (Prod.mk.inj h).1.symm ht
    | some r =>
      rw [hread] at h
      obtain ⟨rfl, rfl⟩ := Prod.mk.inj h
      obtain ⟨part, rest, rfl, hlength, -, hpart⟩ := BlockText.closes hread
      have hopen : cs ++ ys = ('"' :: '"' :: part) ++ rest := htail
      obtain ⟨r, rfl⟩ := exists_append_of_length_le hopen (by
        rw [List.length_cons, List.length_cons]
        omega)
      rw [List.append_assoc, List.cons_append, List.cons_append, afterQuote, hpart]
  · have hquoted : ∀ tail, cs ++ ys ≠ '"' :: '"' :: tail := fun tail h => hblock ⟨tail, h⟩
    rw [afterQuote_quoted hquoted] at h
    cases hread : QuotedText.read (cs ++ ys) with
    | none =>
      rw [hread] at h
      exact absurd (Prod.mk.inj h).1.symm ht
    | some r =>
      rw [hread] at h
      obtain ⟨rfl, rfl⟩ := Prod.mk.inj h
      obtain ⟨part, rest, heq, hlength, hpos, hpart⟩ := QuotedText.closes hread
      have hlone : ∀ tail, cs ++ zs ≠ '"' :: '"' :: tail := by
        intro tail htail
        match cs with
        | [] =>
          rw [List.length_nil] at hn
          omega
        | [_] =>
          obtain ⟨d, ds, rfl, hd⟩ := hz
          obtain rfl := (List.cons.inj (List.cons.inj htail).2).1
          exact absurd hd (by decide)
        | c :: d :: ds =>
          cases htail
          exact hblock ⟨_, rfl⟩
      obtain ⟨r, rfl⟩ := exists_append_of_length_le heq (by omega)
      rw [afterQuote_quoted hlone, List.append_assoc, hpart]

theorem ellipsis_part {t : Token} {n : Nat} (h : first '.' (cs ++ ys) = (t, n))
    (ht : t ≠ .invalid) (hn : n ≤ cs.length + 1) : first '.' (cs ++ zs) = (t, n) := by
  rw [first] at h ⊢
  by_cases hpoints : (cs ++ ys).take 2 = ['.', '.']
  · rw [if_pos hpoints] at h
    obtain ⟨rfl, rfl⟩ := Prod.mk.inj h
    have htwo : 2 ≤ cs.length := by omega
    rw [List.take_append_of_le_length htwo] at hpoints ⊢
    exact if_pos hpoints
  · rw [if_neg hpoints] at h
    exact absurd (Prod.mk.inj h).1.symm ht

theorem sigil_part {token : String → Token} {t : Token} {n : Nat} (hz : Parted zs)
    (h : sigil token (cs ++ ys) = (t, n)) (ht : t ≠ .invalid) (hn : n ≤ cs.length + 1) :
    sigil token (cs ++ zs) = (t, n) := by
  rw [sigil] at h
  cases hname : name? (cs ++ ys) with
  | none =>
    rw [hname] at h
    exact absurd (Prod.mk.inj h).1.symm ht
  | some m =>
    rw [hname] at h
    obtain ⟨rfl, rfl⟩ := Prod.mk.inj h
    rw [sigil, name?_part hz hname (Nat.le_of_succ_le_succ hn)]

end Token
end

namespace Token

theorem first_lone {c : Char} (hc : c ∈ special) (hlone : c ∉ ['.', '$', '@', '"'])
    (cs ds : List Char) : first c cs = first c ds := by
  simp only [special, List.mem_cons, List.not_mem_nil, or_false] at hc
  iterate 22
    obtain rfl | hc := hc
    · first
      | rfl
      | exact absurd (by decide) hlone
  subst hc
  rfl

theorem first_part {c : Char} {cs ys zs : List Char} {t : Token} {n : Nat} (hz : Parted zs)
    (h : first c (cs ++ ys) = (t, n)) (ht : t ≠ .invalid) (hn : n ≤ cs.length + 1) :
    first c (cs ++ zs) = (t, n) := by
  by_cases hspecial : c ∈ special
  · by_cases hlone : c ∈ ['.', '$', '@', '"']
    · simp only [List.mem_cons, List.not_mem_nil, or_false] at hlone
      obtain rfl | rfl | rfl | rfl := hlone
      · exact ellipsis_part h ht hn
      · exact sigil_part hz h ht hn
      · exact sigil_part hz h ht hn
      · exact afterQuote_part hz h ht hn
    · exact (first_lone hspecial hlone _ _).trans h
  · rw [first_ordinary hspecial, ← List.cons_append] at h ⊢
    cases hname : name? (c :: cs ++ ys) with
    | some m =>
      rw [hname] at h
      obtain ⟨rfl, rfl⟩ := Prod.mk.inj h
      rw [name?_part hz hname hn]
    | none =>
      have hnone : name? (c :: cs ++ zs) = none := name?_cons_eq_none.2 (name?_cons_eq_none.1 hname)
      cases hnumber : number? (c :: cs ++ ys) with
      | none =>
        rw [hname, hnumber] at h
        exact absurd (Prod.mk.inj h).1.symm ht
      | some r =>
        rw [hname, hnumber] at h
        obtain rfl : r = (t, n) := h
        rw [hnone, number?_part hz hnumber hn]
        rfl

theorem number?_snd_le {cs : List Char} {t : Token} {n : Nat} (h : number? cs = some (t, n)) :
    n ≤ cs.length := by
  obtain ⟨w, hw, h⟩ := Option.bind_eq_some_iff.1 h
  obtain ⟨-, rfl⟩ := Prod.mk.inj (Option.some.inj h)
  have hwhole := Numeral.length_whole_le hw
  have hfraction := Numeral.length_fraction_le (cs.drop w.length)
  have hexponent := Numeral.length_exponent_le
    (cs.drop (w.length + (Numeral.fraction (cs.drop w.length)).length))
  simp only [List.length_append, List.length_drop] at hfraction hexponent ⊢
  omega

theorem afterQuote_snd_le (cs : List Char) : (afterQuote cs).2 ≤ cs.length + 1 := by
  by_cases hblock : ∃ tail, cs = '"' :: '"' :: tail
  · obtain ⟨tail, rfl⟩ := hblock
    rw [afterQuote]
    split
    · rename_i h
      obtain ⟨part, rest, rfl, rfl, -⟩ := BlockText.closes h
      simp only [List.length_cons, List.length_append]
      omega
    · simp
  · rw [afterQuote_quoted fun tail h => hblock ⟨tail, h⟩]
    split
    · rename_i h
      obtain ⟨part, rest, rfl, rfl, -⟩ := QuotedText.closes h
      simp
    · exact Nat.succ_le_succ (QuotedText.unreadable_le cs)

theorem sigil_snd_le (token : String → Token) (cs : List Char) :
    (sigil token cs).2 ≤ cs.length + 1 := by
  unfold sigil
  split
  · exact Nat.succ_le_succ (length_name?_le ‹_›)
  · exact Nat.le_add_left 1 _

theorem first_snd_le (c : Char) (cs : List Char) : (first c cs).2 ≤ cs.length + 1 := by
  unfold first
  split
  all_goals first
    | exact Nat.le_add_left 1 _
    | exact sigil_snd_le _ _
    | exact afterQuote_snd_le _
    | skip
  · split
    · rename_i h
      have htwo := congrArg List.length h
      simp only [List.length_take, List.length_cons, List.length_nil] at htwo ⊢
      omega
    · exact Nat.le_add_left 1 _
  · split
    · exact length_name?_le ‹_›
    · cases hn : number? (_ :: cs) with
      | none => exact Nat.le_add_left 1 _
      | some r => exact number?_snd_le hn

end Token

end GraphQLCheck
