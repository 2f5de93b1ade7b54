/-!
Places in a source text. A location counts lines and columns from one; only a line feed ends a
line, and a column counts characters. `Location.after` moves a location over text that was read,
`Location.atOffset` computes the location of an offset from the text in front of it.
-/
namespace GraphQLCheck

structure Location where
  line : Nat
  column : Nat
deriving DecidableEq

namespace Location

def first : Location := ⟨1, 1⟩

def advance (l : Location) (c : Char) : Location :=
  if c = '\n' then ⟨l.line + 1, 1⟩ else ⟨l.line, l.column + 1⟩

def after (l : Location) (text : List Char) : Location := text.foldl advance l

theorem after_append (l : Location) (a b : List Char) :
    l.after (a ++ b) = (l.after a).after b :=
  List.foldl_append

def atOffset (source : List Char) (offset : Nat) : Location :=
  let before := source.take offset
  ⟨before.count '\n' + 1, (before.reverse.takeWhile (· ≠ '\n')).length + 1⟩

def render (l : Location) : String := s!"{l.line}:{l.column}"

end Location

/-- A place reached while reading: how many characters lie before it, and its location. -/
structure Position where
  offset : Nat
  location : Location
deriving DecidableEq

namespace Position

def start : Position := ⟨0, .first⟩

def after (p : Position) (text : List Char) : Position :=
  ⟨p.offset + text.length, p.location.after text⟩

theorem after_append (p : Position) (a b : List Char) :
    p.after (a ++ b) = (p.after a).after b := by
  simp [after, Location.after_append, Nat.add_assoc]

end Position
end GraphQLCheck
