import GraphQLCheck.Proofs.Token.Scanning

/-!
How names and numbers are spelled. `IsName` and the predicates on the parts of a numeral are their
grammar: what scanning takes for a name or a number is spelled so (`Token.Spelled`), and what is
spelled so is taken as a whole where it cannot go on.
-/
namespace GraphQLCheck

/-- A text at whose beginning a run of characters ends. -/
def EndsRun (p : Char → Bool) (r : List Char) : Prop := ∀ c ∈ r.head?, p c = false

theorem EndsRun.mono {p q : Char → Bool} {r : List Char} (hr : EndsRun p r)
    (h : ∀ c, p c = false → q c = false) : EndsRun q r :=
  fun c hc => h c (hr c hc)

theorem takeWhile_run {p : Char → Bool} {cs r : List Char} (hcs : ∀ c ∈ cs, p c = true)
    (hr : EndsRun p r) : (cs ++ r).takeWhile p = cs := by
  rw [List.takeWhile_append_of_pos hcs]
  cases r with
  | nil => simp
  | cons c r => simp [hr c rfl]

theorem of_mem_takeWhile {p : Char → Bool} {cs : List Char} :
    ∀ c ∈ cs.takeWhile p, p c = true :=
  List.all_eq_true.1 List.all_takeWhile

/-- Letters and underscores, and digits behind the first character. -/
def IsName : List Char → Prop
  | [] => False
  | c :: cs => isNameStart c = true ∧ ∀ d ∈ cs, isNameChar d = true

theorem IsName.isNameChar {n : List Char} (hn : IsName n) : ∀ c ∈ n, isNameChar c = true := by
  cases n with
  | nil => exact hn.elim
  | cons c cs =>
    obtain ⟨hc, hcs⟩ := hn
    refine List.forall_mem_cons.2 ⟨?_, hcs⟩
    simp only [isNameStart, GraphQLCheck.isNameChar, Char.isAlphanum, Bool.or_eq_true] at hc ⊢
    exact hc.imp_right .inl

theorem isName_of_name? {cs n : List Char} (h : name? cs = some n) : IsName n := by
  cases cs with
  | nil => simp [name?] at h
  | cons c cs =>
    by_cases hc : isNameStart c = true
    · rw [name?, if_pos hc] at h
      obtain rfl := Option.some.inj h
      exact ⟨hc, of_mem_takeWhile⟩
    · rw [name?, if_neg hc] at h
      simp at h

theorem name?_append {n r : List Char} (hn : IsName n) (hr : EndsRun isNameChar r) :
    name? (n ++ r) = some n := by
  cases n with
  | nil => exact hn.elim
  | cons c cs => rw [List.cons_append, name?, if_pos hn.1, takeWhile_run hn.2 hr]

namespace Numeral

def IsNatural : List Char → Prop
  | [] => False
  | c :: cs => c = '0' ∧ cs = [] ∨ c ≠ '0' ∧ c.isDigit = true ∧ ∀ d ∈ cs, d.isDigit = true

def IsWhole (cs : List Char) : Prop := IsNatural cs ∨ ∃ n, cs = '-' :: n ∧ IsNatural n

def IsDigits (cs : List Char) : Prop := cs ≠ [] ∧ ∀ c ∈ cs, c.isDigit = true

def IsFraction (cs : List Char) : Prop := cs = [] ∨ ∃ ds, cs = '.' :: ds ∧ IsDigits ds

def IsExponent (cs : List Char) : Prop :=
  cs = [] ∨ ∃ c sign ds, cs = c :: (sign ++ ds) ∧ (c = 'e' ∨ c = 'E') ∧
    (sign = [] ∨ sign = ['+'] ∨ sign = ['-']) ∧ IsDigits ds

/-- What may stand behind a numeral: nothing that could go on with it. -/
def Stops (r : List Char) : Prop :=
  EndsRun (fun c => c.isDigit || c = '.' || c = 'e' || c = 'E') r

theorem isNatural_of_natural {cs n : List Char} (h : natural cs = some n) : IsNatural n := by
  cases cs with
  | nil => simp [natural] at h
  | cons c cs =>
    rw [natural] at h
    split at h
    · obtain rfl := Option.some.inj h
      exact .inl ⟨rfl, rfl⟩
    · split at h
      · obtain rfl := Option.some.inj h
        exact .inr ⟨‹_›, ‹_›, of_mem_takeWhile⟩
      · simp at h

theorem natural_append {n r : List Char} (hn : IsNatural n) (hr : EndsRun Char.isDigit r) :
    natural (n ++ r) = some n := by
  cases n with
  | nil => exact hn.elim
  | cons c cs =>
    obtain ⟨rfl, rfl⟩ | ⟨hc, hdigit, hcs⟩ := hn
    · rfl
    · rw [List.cons_append, natural, if_neg hc, if_pos hdigit, takeWhile_run hcs hr]

theorem isWhole_of_whole {cs n : List Char} (h : whole cs = some n) : IsWhole n := by
  unfold whole at h
  split at h
  · obtain ⟨m, hm, rfl⟩ := Option.map_eq_some_iff.1 h
    exact .inr ⟨m, rfl, isNatural_of_natural hm⟩
  · exact .inl (isNatural_of_natural h)

theorem IsNatural.head {n : List Char} (hn : IsNatural n) :
    ∃ c cs, n = c :: cs ∧ c.isDigit = true := by
  cases n with
  | nil => exact hn.elim
  | cons c cs =>
    obtain ⟨rfl, rfl⟩ | ⟨-, hdigit, -⟩ := hn
    · exact ⟨'0', [], rfl, rfl⟩
    · exact ⟨c, cs, rfl, hdigit⟩

theorem whole_append {n r : List Char} (hn : IsWhole n) (hr : EndsRun Char.isDigit r) :
    whole (n ++ r) = some n := by
  obtain hn | ⟨m, rfl, hm⟩ := hn
  · obtain ⟨c, cs, rfl, hdigit⟩ := hn.head
    rw [← natural_append hn hr, List.cons_append, whole]
    rintro ds ⟨rfl, -⟩
    exact absurd hdigit (by decide)
  · rw [List.cons_append, whole, natural_append hm hr]
    rfl

theorem isFraction_fraction (cs : List Char) : IsFraction (fraction cs) := by
  unfold fraction
  split
  · rename_i ds
    dsimp only
    split
    · exact .inl rfl
    · rename_i hne
      exact .inr ⟨_, rfl, by simpa using hne, of_mem_takeWhile⟩
  · exact .inl rfl

theorem fraction_append {f r : List Char} (hf : IsFraction f)
    (hr : EndsRun (fun c => c.isDigit || c = '.') r) : fraction (f ++ r) = f := by
  obtain rfl | ⟨ds, rfl, hne, hds⟩ := hf
  · rw [List.nil_append]
    unfold fraction
    split
    · exact absurd (hr '.' rfl) (by decide)
    · rfl
  · have hrun : EndsRun Char.isDigit r := hr.mono fun c h => (Bool.or_eq_false_iff.1 h).1
    have hempty : ds.isEmpty = false := by simpa using hne
    simp only [List.cons_append, fraction, takeWhile_run hds hrun, hempty, Bool.false_eq_true,
      if_false]

theorem sign_cases (cs : List Char) : sign cs = [] ∨ sign cs = ['+'] ∨ sign cs = ['-'] := by
  unfold sign
  split <;> simp

theorem isExponent_exponent (cs : List Char) : IsExponent (exponent cs) := by
  cases cs with
  | nil => exact .inl rfl
  | cons c cs =>
    rw [exponent]
    split
    · rename_i h
      exact .inr ⟨c, sign cs, _, rfl, h.1, sign_cases cs, by simpa using h.2, of_mem_takeWhile⟩
    · exact .inl rfl

theorem sign_append {s ds r : List Char} (hs : s = [] ∨ s = ['+'] ∨ s = ['-'])
    (hds : IsDigits ds) : sign (s ++ ds ++ r) = s := by
  obtain ⟨hne, hdigits⟩ := hds
  obtain ⟨d, ds, rfl⟩ := List.exists_cons_of_ne_nil hne
  have hd := hdigits d List.mem_cons_self
  obtain rfl | rfl | rfl := hs
  · rw [List.nil_append, List.cons_append]
    unfold sign
    split
    · rename_i heq
      rw [(List.cons.inj heq).1] at hd
      exact absurd hd (by decide)
    · rename_i heq
      rw [(List.cons.inj heq).1] at hd
      exact absurd hd (by decide)
    · rfl
  · rfl
  · rfl

theorem exponent_append {e r : List Char} (he : IsExponent e) (hr : Stops r) :
    exponent (e ++ r) = e := by
  have hrun : EndsRun Char.isDigit r := hr.mono fun c h => by
    simp only [Bool.or_eq_false_iff] at h
    exact h.1.1.1
  obtain rfl | ⟨c, s, ds, rfl, hc, hs, hds⟩ := he
  · cases r with
    | nil => rfl
    | cons c r =>
      have h := hr c rfl
      simp only [Bool.or_eq_false_iff, decide_eq_false_iff_not] at h
      rw [List.nil_append, exponent]
      exact if_neg fun hc => hc.1.elim h.1.2 h.2
  · have hempty : ds.isEmpty = false := by simpa using hds.1
    rw [List.cons_append, exponent, sign_append hs hds, List.append_assoc, List.drop_left,
      takeWhile_run hds.2 hrun]
    simp [hc, hempty]

theorem endsRun_fraction {p : Char → Bool} {f r : List Char} (hf : IsFraction f)
    (hp : p '.' = false) (hr : EndsRun p r) : EndsRun p (f ++ r) := by
  obtain rfl | ⟨ds, rfl, -⟩ := hf
  · exact hr
  · rintro _ ⟨rfl⟩
    exact hp

theorem endsRun_exponent {p : Char → Bool} {e r : List Char} (he : IsExponent e)
    (hp : p 'e' = false ∧ p 'E' = false) (hr : EndsRun p r) : EndsRun p (e ++ r) := by
  obtain rfl | ⟨c, s, ds, rfl, rfl | rfl, -⟩ := he
  · exact hr
  · rintro _ ⟨rfl⟩
    exact hp.1
  · rintro _ ⟨rfl⟩
    exact hp.2

def token (w f e : List Char) : Token :=
  (if f.isEmpty && e.isEmpty then Token.integer else Token.float) (String.ofList (w ++ f ++ e))

theorem token_eq_integer {w f e : List Char} {d : String} (h : token w f e = .integer d) :
    d.toList = w ++ f ++ e := by
  unfold token at h
  split at h
  · rw [← Token.integer.inj h, String.toList_ofList]
  · simp at h

theorem token_eq_float {w f e : List Char} {d : String} (h : token w f e = .float d) :
    d.toList = w ++ f ++ e := by
  unfold token at h
  split at h
  · simp at h
  · rw [← Token.float.inj h, String.toList_ofList]

theorem number?_append {w f e r : List Char} (hw : IsWhole w) (hf : IsFraction f)
    (he : IsExponent e) (hr : Stops r) :
    Token.number? (w ++ f ++ e ++ r) = some (token w f e, (w ++ f ++ e).length) := by
  have hpoint : EndsRun (fun c => c.isDigit || c = '.') (e ++ r) := by
    refine endsRun_exponent he (by decide) (hr.mono fun c h => ?_)
    simp only [Bool.or_eq_false_iff] at h ⊢
    exact h.1.1
  have hdigit : EndsRun Char.isDigit (f ++ (e ++ r)) :=
    endsRun_fraction hf (by decide) (hpoint.mono fun c h => (Bool.or_eq_false_iff.1 h).1)
  have hdrop : (w ++ (f ++ (e ++ r))).drop (w.length + f.length) = e ++ r := by
    rw [← List.append_assoc, ← List.length_append, List.drop_left]
  rw [List.append_assoc, List.append_assoc, Token.number?, whole_append hw hdigit]
  simp only [Option.bind_eq_bind, Option.bind_some, List.drop_left, fraction_append hf hpoint,
    hdrop, exponent_append he hr]
  rfl

theorem token_of_number? {cs : List Char} {t : Token} {n : Nat}
    (h : Token.number? cs = some (t, n)) :
    ∃ w f e, IsWhole w ∧ IsFraction f ∧ IsExponent e ∧ t = token w f e := by
  simp only [Token.number?, Option.bind_eq_bind, Option.bind_eq_some_iff, Option.pure_def,
    Option.some.injEq, Prod.mk.injEq] at h
  obtain ⟨w, hw, rfl, -⟩ := h
  exact ⟨w, _, _, isWhole_of_whole hw, isFraction_fraction _, isExponent_exponent _, rfl⟩

end Numeral

/-- Names are names, numbers are numerals, and nothing is spelled as the end of the source. -/
def Token.Spelled : Token → Prop
  | .name n | .variableName n | .directiveName n => IsName n.toList
  | .integer d => ∃ w f e, Numeral.IsWhole w ∧ Numeral.IsFraction f ∧ Numeral.IsExponent e ∧
      .integer d = Numeral.token w f e
  | .float d => ∃ w f e, Numeral.IsWhole w ∧ Numeral.IsFraction f ∧ Numeral.IsExponent e ∧
      .float d = Numeral.token w f e
  | .finish => False
  | _ => True

namespace Token

theorem spelled_sigil (token : String → Token)
    (h : ∀ n : List Char, IsName n → (token (String.ofList n)).Spelled) (cs : List Char) :
    (sigil token cs).1.Spelled := by
  unfold sigil
  split
  · exact h _ (isName_of_name? ‹_›)
  · trivial

theorem spelled_afterQuote (cs : List Char) : (afterQuote cs).1.Spelled := by
  unfold afterQuote
  split <;> split <;> trivial

theorem spelled_number {t : Token} {n : Nat} {cs : List Char} (h : number? cs = some (t, n)) :
    t.Spelled := by
  have hparts := Numeral.token_of_number? h
  cases t with
  | integer d => exact hparts
  | float d => exact hparts
  | _ =>
    obtain ⟨w, f, e, -, -, -, ht⟩ := hparts
    unfold Numeral.token at ht
    split at ht <;> simp at ht

theorem spelled_first (c : Char) (cs : List Char) : (first c cs).1.Spelled := by
  have hname : ∀ n : List Char, IsName n → IsName (String.ofList n).toList := fun n h => by
    rwa [String.toList_ofList]
  have hvariable : (sigil variableName cs).1.Spelled := spelled_sigil variableName hname cs
  have hdirective : (sigil directiveName cs).1.Spelled := spelled_sigil directiveName hname cs
  unfold first
  split
  all_goals first
    | exact hvariable
    | exact hdirective
    | exact spelled_afterQuote _
    | trivial
    | skip
  · split <;> trivial
  · split
    · exact hname _ (isName_of_name? ‹_›)
    · cases hn : number? (_ :: cs) with
      | none => trivial
      | some r => exact spelled_number hn

end Token

theorem Lexeme.spelled_of_mem_scan {source : List Char} {l : Lexeme} (h : l ∈ scan source) :
    l.token.Spelled :=
  forall_mem_scanFrom (P := fun l => l.token.Spelled)
    (fun c cs _ _ => Token.spelled_first c cs) _ _ _ l h

theorem Lexeme.ne_finish_of_mem_scan {source : List Char} {l : Lexeme} (h : l ∈ scan source) :
    l.token ≠ .finish := by
  intro hfinish
  have hspelled := spelled_of_mem_scan h
  rw [hfinish] at hspelled
  exact hspelled

end GraphQLCheck
