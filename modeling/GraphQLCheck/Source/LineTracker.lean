import GraphQLCheck.Source.Location

/-!
Locations of offsets that count the bytes of a source in UTF-8. A `LineTracker` keeps the line that
it came to, so that it goes over a source only once. It looks at the bytes for line feeds and counts
columns in characters.
-/
namespace GraphQLCheck

namespace Utf8

def encode (text : List Char) : List UInt8 := text.flatMap String.utf8EncodeChar

def size (text : List Char) : Nat := (encode text).length

def take : Nat → List Char → List Char
  | _, [] => []
  | n, c :: cs => if n = 0 then [] else c :: take (n - c.utf8Size) cs

def drop : Nat → List Char → List Char
  | _, [] => []
  | n, c :: cs => if n = 0 then c :: cs else drop (n - c.utf8Size) cs

end Utf8

def Location.atByte (source : List Char) (offset : Nat) : Location :=
  let before := Utf8.take offset source
  atOffset before before.length

/-- The line that was come to, the offset at which it starts, and how far the source was scanned. -/
structure LineTracker where
  line : Nat
  lineStart : Nat
  scanned : Nat

namespace LineTracker

def start : LineTracker := ⟨1, 0, 0⟩

def see (t : LineTracker) (byte : UInt8) (offset : Nat) : LineTracker :=
  if byte = '\n'.toUInt8 then { t with line := t.line + 1, lineStart := offset + 1 } else t

def advance (t : LineTracker) (source : List Char) (offset : Nat) : LineTracker :=
  let bytes := ((Utf8.encode source).take offset).drop t.scanned
  { (bytes.zipIdx t.scanned).foldl (fun u x => u.see x.1 x.2) t with scanned := offset }

/-- An offset in front of what was scanned is located without the tracker. -/
def locate (t : LineTracker) (source : List Char) (offset : Nat) : Location × LineTracker :=
  if offset < t.scanned then (Location.atByte source offset, t)
  else
    let t := t.advance source offset
    let indent := Utf8.drop t.lineStart (Utf8.take offset source)
    (⟨t.line, indent.length + 1⟩, t)

end LineTracker
end GraphQLCheck
