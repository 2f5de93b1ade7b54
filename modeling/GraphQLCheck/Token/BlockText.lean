import GraphQLCheck.Source.Lines
import GraphQLCheck.Text.Blank

/-!
Strings between triple quotes. Their text is taken line by line: the indentation that all lines
but the first share is removed, and so are blank lines at both ends.
-/
namespace GraphQLCheck.BlockText

/-- The text up to the closing quotes and how many characters were read, these included. Two
quotes may stand in the text, but not one alone. An escaped triple quote stands for three quotes,
and every line end is read as a line feed. -/
def read : List Char → Option (List Char × Nat)
  | [] => none
  | '"' :: '"' :: '"' :: _ => some ([], 3)
  | '"' :: '"' :: rest => do
    let (text, size) ← read rest
    pure ('"' :: '"' :: text, size + 2)
  | '"' :: _ => none
  | '\\' :: '"' :: '"' :: '"' :: rest => do
    let (text, size) ← read rest
    pure ('"' :: '"' :: '"' :: text, size + 4)
  | '\r' :: '\n' :: rest => do
    let (text, size) ← read rest
    pure ('\n' :: text, size + 2)
  | c :: rest => do
    let (text, size) ← read rest
    pure ((if c = '\r' then '\n' else c) :: text, size + 1)

def isIndent (c : Char) : Bool := c = ' ' || c = '\t'

def indent? (line : List Char) : Option Nat :=
  let indent := (line.takeWhile isIndent).length
  if indent < line.length then some indent else none

def commonIndent (ls : List (List Char)) : Nat :=
  ((ls.drop 1).filterMap indent?).min?.getD 0

def unindent (n : Nat) (line : List Char) : List Char :=
  if line.length < n then line else line.drop n

def trimBlankLines (ls : List (List Char)) : List (List Char) :=
  ((ls.dropWhile Text.isBlankLine).reverse.dropWhile Text.isBlankLine).reverse

def dedent (text : List Char) : List Char :=
  let ls := textLines text
  let common := commonIndent ls
  joinLines (trimBlankLines (ls.take 1 ++ (ls.drop 1).map (unindent common)))

end GraphQLCheck.BlockText
