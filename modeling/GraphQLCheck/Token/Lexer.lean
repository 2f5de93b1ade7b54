import GraphQLCheck.Token.Basic
import GraphQLCheck.Token.BlockText
import GraphQLCheck.Token.QuotedText

/-!
Reading tokens. `Token.first` gives the token that a text begins with, always the longest one,
and takes at least one character (`Token.first_snd_pos`); `Lexeme.scan` gives all tokens of a
source with their places. Spaces, tabs, commas, line ends, form feeds, byte order marks and
comments separate tokens and are passed over.
-/
namespace GraphQLCheck

def isNameStart (c : Char) : Bool := c = '_' || c.isAlpha

def isNameChar (c : Char) : Bool := c = '_' || c.isAlphanum

def name? : List Char → Option (List Char)
  | [] => none
  | c :: cs => if isNameStart c then some (c :: cs.takeWhile isNameChar) else none

theorem length_name?_pos {cs n : List Char} (h : name? cs = some n) : 0 < n.length := by
  cases cs with
  | nil => simp [name?] at h
  | cons c cs =>
    grind [name?]

namespace Numeral

/-- Digits without a sign; a zero stands alone. -/
def natural : List Char → Option (List Char)
  | [] => none
  | c :: cs =>
    if c = '0' then some ['0']
    else if c.isDigit then some (c :: cs.takeWhile Char.isDigit)
    else none

def whole : List Char → Option (List Char)
  | '-' :: cs => (natural cs).map ('-' :: ·)
  | cs => natural cs

def fraction : List Char → List Char
  | '.' :: cs =>
    let digits := cs.takeWhile Char.isDigit
    if digits.isEmpty then [] else '.' :: digits
  | _ => []

def sign : List Char → List Char
  | '+' :: _ => ['+']
  | '-' :: _ => ['-']
  | _ => []

def exponent : List Char → List Char
  | [] => []
  | c :: cs =>
    let digits := (cs.drop (sign cs).length).takeWhile Char.isDigit
    if (c = 'e' ∨ c = 'E') ∧ !digits.isEmpty then c :: (sign cs ++ digits) else []

theorem length_natural_pos {cs n : List Char} (h : natural cs = some n) : 0 < n.length := by
  cases cs with
  | nil => simp [natural] at h
  | cons c cs =>
    grind [natural]

theorem length_whole_pos {cs n : List Char} (h : whole cs = some n) : 0 < n.length := by
  unfold whole at h
  split at h
  · obtain ⟨m, _, rfl⟩ := Option.map_eq_some_iff.1 h
    simp
  · exact length_natural_pos h

end Numeral

namespace Token

/-- A number with a fraction or an exponent is a float. A part that is not complete is no part
of the number. -/
def number? (cs : List Char) : Option (Token × Nat) := do
  let whole ← Numeral.whole cs
  let fraction := Numeral.fraction (cs.drop whole.length)
  let exponent := Numeral.exponent (cs.drop (whole.length + fraction.length))
  let digits := whole ++ fraction ++ exponent
  let token := if fraction.isEmpty && exponent.isEmpty then integer else float
  pure (token (String.ofList digits), digits.length)

def afterQuote : List Char → Token × Nat
  | '"' :: '"' :: cs =>
    match BlockText.read cs with
    | some (text, size) => (string (String.ofList (BlockText.dedent text)), size + 3)
    | none => (invalid, 3)
  | cs =>
    match QuotedText.take cs with
    | (some text, size) => (string (String.ofList text), size + 1)
    | (none, size) => (invalid, size + 1)

def sigil (token : String → Token) (cs : List Char) : Token × Nat :=
  match name? cs with
  | some n => (token (String.ofList n), n.length + 1)
  | none => (invalid, 1)

/-- The token at the head of a text that begins with `c`, and how many characters it takes. -/
def first (c : Char) (cs : List Char) : Token × Nat :=
  match c with
  | '[' => (bracketOpen, 1)
  | ']' => (bracketClose, 1)
  | '\x7b' => (braceOpen, 1)
  | '\x7d' => (braceClose, 1)
  | '(' => (parenOpen, 1)
  | ')' => (parenClose, 1)
  | ':' => (colon, 1)
  | '=' => (equal, 1)
  | '!' => (exclam, 1)
  | '&' => (ampersand, 1)
  | '|' => (pipe, 1)
  | '.' => if cs.take 2 = ['.', '.'] then (ellipsis, 3) else (invalid, 1)
  | '$' => sigil variableName cs
  | '@' => sigil directiveName cs
  | '"' => afterQuote cs
  | c =>
    match name? (c :: cs) with
    | some n => (name (String.ofList n), n.length)
    | none => (number? (c :: cs)).getD (invalid, 1)

theorem number?_snd_pos {cs : List Char} {r : Token × Nat} (h : number? cs = some r) :
    0 < r.2 := by
  simp only [number?, Option.bind_eq_bind, Option.bind_eq_some_iff] at h
  obtain ⟨whole, hw, h⟩ := h
  have hp := Numeral.length_whole_pos hw
  simp only [Option.pure_def, Option.some.injEq] at h
  rw [← h]
  simp only [List.length_append]
  omega

theorem afterQuote_snd_pos (cs : List Char) : 0 < (afterQuote cs).2 := by
  unfold afterQuote
  split <;> split <;> simp

theorem sigil_snd_pos (token : String → Token) (cs : List Char) : 0 < (sigil token cs).2 := by
  unfold sigil
  split <;> simp

theorem first_snd_pos (c : Char) (cs : List Char) : 0 < (first c cs).2 := by
  unfold first
  split
  all_goals first
    | exact Nat.one_pos
    | exact sigil_snd_pos _ _
    | exact afterQuote_snd_pos _
    | skip
  · split <;> simp
  · split
    · rename_i n hn
      exact length_name?_pos hn
    · cases hn : number? (_ :: cs) with
      | none => simp
      | some r => exact number?_snd_pos hn

end Token

def isSeparator (c : Char) : Bool :=
  c = ' ' || c = ',' || c = '\t' || c = '\n' || c = '\r' || c = '\x0c' || c = '\uFEFF'

/-- How many characters to pass over at the head of a text that begins with `c`. -/
def ignored (c : Char) (cs : List Char) : Nat :=
  if isSeparator c then 1
  else if c = '#' then 1 + (cs.takeWhile fun d => d ≠ '\n' ∧ d ≠ '\r').length
  else 0

namespace Lexeme

/-- Every step takes at least one character, so a bound of the text's length is enough. -/
def scanFrom : Nat → Position → List Char → List Lexeme
  | 0, _, _ => []
  | _ + 1, _, [] => []
  | n + 1, p, c :: cs =>
    let skip := ignored c cs
    if skip = 0 then
      let (token, size) := Token.first c cs
      let next := p.after ((c :: cs).take size)
      ⟨token, ⟨p.offset, next.offset⟩, p.location⟩ :: scanFrom n next ((c :: cs).drop size)
    else scanFrom n (p.after ((c :: cs).take skip)) ((c :: cs).drop skip)

def scan (source : List Char) : List Lexeme := scanFrom source.length .start source

end Lexeme
end GraphQLCheck
