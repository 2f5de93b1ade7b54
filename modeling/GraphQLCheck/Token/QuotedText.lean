/-!
Strings between single double quotes, which have to be closed on the same line. Up to the first
backslash a string is its text as it stands, and from there on it is decoded part by part
(`QuotedText.take`).
-/
namespace GraphQLCheck.QuotedText

def hexValue (c : Char) : Option Nat :=
  if c.isDigit then some (c.toNat - '0'.toNat)
  else if 'a' ≤ c ∧ c ≤ 'f' then some (c.toNat - 'a'.toNat + 10)
  else if 'A' ≤ c ∧ c ≤ 'F' then some (c.toNat - 'A'.toNat + 10)
  else none

def codePoint (a b c d : Char) : Option Char := do
  let n := (((← hexValue a) * 16 + (← hexValue b)) * 16 + (← hexValue c)) * 16 + (← hexValue d)
  if n < 0xD800 ∨ 0xE000 ≤ n then some (Char.ofNat n) else none

def shortEscape : Char → Option Char
  | '"' => some '"'
  | '\\' => some '\\'
  | '/' => some '/'
  | 'b' => some '\x08'
  | 'f' => some '\x0c'
  | 'n' => some '\n'
  | 'r' => some '\r'
  | 't' => some '\t'
  | _ => none

def isPlain (c : Char) : Bool := c ≠ '"' && c ≠ '\\' && c ≠ '\n' && c ≠ '\r'

/-- The part at the head of a text, which is an escape or a run of plain characters: what it
stands for and how many characters it takes. -/
def part? : List Char → Option (List Char × Nat)
  | '\\' :: 'u' :: a :: b :: c :: d :: _ => (codePoint a b c d).map fun x => ([x], 6)
  | '\\' :: e :: _ => (shortEscape e).map fun x => ([x], 2)
  | cs =>
    let run := cs.takeWhile isPlain
    if run.isEmpty then none else some (run, run.length)

def decodeWithin : Nat → List Char → List Char → Option (List Char × Nat)
  | 0, _, _ => none
  | _ + 1, before, '"' :: _ => some (before, 1)
  | n + 1, before, cs => do
    let (part, size) ← part? cs
    let (text, count) ← decodeWithin n (before ++ part) (cs.drop size)
    pure (text, count + size)

def decode (before cs : List Char) : Option (List Char × Nat) :=
  decodeWithin cs.length before cs

/-- The text of the string and how many characters were taken, the closing quote included. Where
there is none, what was set aside in front of the first backslash stays taken. -/
def take (cs : List Char) : Option (List Char) × Nat :=
  let plain := cs.takeWhile isPlain
  match cs.dropWhile isPlain with
  | '"' :: _ => (some plain, plain.length + 1)
  | '\\' :: rest =>
    match decode plain ('\\' :: rest) with
    | some (text, size) => (some text, plain.length + size)
    | none => (none, plain.length)
  | _ => (none, 0)

end GraphQLCheck.QuotedText
