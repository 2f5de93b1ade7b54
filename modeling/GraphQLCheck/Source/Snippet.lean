import GraphQLCheck.Source.Lines
import GraphQLCheck.Source.Location

/-!
Excerpts of a source text around a span of it. An excerpt shows the lines of the span and the
line before it, each under its number; below a span that stays on one line stand carets.
-/
namespace GraphQLCheck

structure Span where
  start : Nat
  stop : Nat
deriving DecidableEq

def Span.text (s : Span) (source : List Char) : List Char :=
  (source.take s.stop).drop s.start

namespace Snippet

/-- At most the last two lines of the text before the span. -/
def lead (source : List Char) (s : Span) : List (List Char) :=
  let earlier := textLines (source.take s.start)
  earlier.drop (earlier.length - 2)

def firstLine (source : List Char) (s : Span) : Nat :=
  (textLines (source.take s.start)).length + 1 - (lead source s).length

/-- All that is shown: whole lines, from the line before the span to the end of its last line. -/
def window (source : List Char) (s : Span) : List Char :=
  joinLines (lead source s) ++ s.text source
    ++ (source.drop s.stop).takeWhile (· ≠ '\n')

def dropReturn (line : List Char) : List Char :=
  if line.getLast? = some '\r' then line.dropLast else line

/-- The lines to print: an empty last line is left out, and so are carriage returns in front of
line feeds. -/
def shownLines (text : List Char) : List (List Char) :=
  let ls := textLines text
  let last := ls.getLastD []
  ls.dropLast.map dropReturn ++ if last.isEmpty then [] else [last]

def spaces (n : Nat) : String := String.ofList (List.replicate n ' ')

def numbered (width number : Nat) (line : List Char) : String :=
  let digits := toString number
  spaces (width - digits.length + 1) ++ digits ++ " | " ++ String.ofList line

def caretLine (width : Nat) (source : List Char) (s : Span) : String :=
  let indent := ((source.take s.start).reverse.takeWhile (· ≠ '\n')).length
  spaces (width + 1) ++ " | " ++ spaces indent
    ++ String.ofList (List.replicate (max 1 (s.text source).length) '^')

def render (source : List Char) (s : Span) : String :=
  let first := firstLine source s
  let ls := shownLines (window source s)
  let width := (toString (first + max 1 ls.length - 1)).length
  let body := "\n".intercalate (ls.mapIdx fun i line => numbered width (first + i) line)
  if '\n' ∈ s.text source then body else body ++ "\n" ++ caretLine width source s

end Snippet
end GraphQLCheck
