import GraphQLCheck.Source.LineTracker
import GraphQLCheck.Source.Snippet

/-!
Excerpts around a span that counts the bytes of a source. What can go wrong with offsets is checked:
a slice has to lie within its text, between characters and with its start in front of its stop, and
no greater number is taken from a smaller one. Where a check fails there is no excerpt.
-/
namespace GraphQLCheck

namespace Utf8

/-- Whether an offset lies within a text, in front of a character or at the end. -/
def isBoundary (text : List Char) (offset : Nat) : Bool := size (take offset text) == offset

def slice? (text : List Char) (start stop : Nat) : Option (List Char) :=
  if isBoundary text start && isBoundary text stop && start ≤ stop then
    some (drop start (take stop text))
  else none

def find? (c : Char) : List Char → Option Nat
  | [] => none
  | d :: ds => if d = c then some 0 else (find? c ds).map (d.utf8Size + ·)

def findLast? (c : Char) : List Char → Option Nat
  | [] => none
  | d :: ds =>
    match findLast? c ds with
    | some n => some (d.utf8Size + n)
    | none => if d = c then some 0 else none

def lineStart (text : List Char) : Nat := ((findLast? '\n' text).map (· + 1)).getD 0

end Utf8

namespace Excerpt
open Utf8 Snippet

def subtract? (a b : Nat) : Option Nat := if b ≤ a then some (a - b) else none

def location? (source : List Char) (offset : Nat) : Option Location := do
  let before ← slice? source 0 offset
  let line ← slice? before (lineStart before) (size before)
  pure ⟨before.count '\n' + 1, line.length + 1⟩

def windowStart? (source : List Char) (offset : Nat) : Option Nat := do
  let before ← slice? source 0 offset
  match findLast? '\n' before with
  | some feed => do
    let earlier ← slice? source 0 feed
    pure (lineStart earlier)
  | none => pure 0

def windowStop? (source : List Char) (offset : Nat) : Option Nat := do
  let behind ← slice? source offset (size source)
  match find? '\n' behind with
  | some feed => pure (feed + offset)
  | none => pure (size source)

def numbered? (width number : Nat) (line : List Char) : Option String := do
  let digits := toString number
  let indent ← subtract? width digits.length
  pure (spaces (indent + 1) ++ digits ++ " | " ++ String.ofList line)

def numberedFrom? (width first : Nat) (ls : List (List Char)) : Option (List String) :=
  (ls.zipIdx first).mapM fun x => numbered? width x.2 x.1

def caretLine? (width : Nat) (source : List Char) (s : Span) : Option String := do
  let before ← slice? source 0 s.start
  let indent ← slice? source (lineStart before) s.start
  let text ← slice? source s.start s.stop
  pure (spaces (width + 1) ++ " | " ++ spaces indent.length
    ++ String.ofList (List.replicate (max 1 text.length) '^'))

/-- The number of the first line comes from that of the line of the span, less the line feeds in
between. -/
def render? (source : List Char) (s : Span) : Option String := do
  let location ← location? source s.start
  let start ← windowStart? source s.start
  let stop ← windowStop? source s.stop
  let window ← slice? source start stop
  let lead ← slice? source start s.start
  let first ← subtract? (← subtract? (location.line + 1) (lead.count '\n')) 1
  let ls := shownLines window
  let last ← subtract? (first + max 1 ls.length) 1
  let width := (toString last).length
  let rows ← numberedFrom? width first ls
  let text ← slice? source s.start s.stop
  let body := "\n".intercalate rows
  if '\n' ∈ text then pure body
  else do
    let carets ← caretLine? width source s
    pure (body ++ "\n" ++ carets)

end Excerpt
end GraphQLCheck
