import GraphQLCheck.Source.LineTracker
import GraphQLCheck.Token.Reader

/-!
Tokens on demand. A `Context` takes tokens from a source one at a time and keeps the one that was
looked at last, until it is consumed. Locations are found with a tracker when they are asked for,
from the place of the token that was taken last. A cursor gives the same answers without either.
-/
namespace GraphQLCheck

/-- What a parser asks for: to consume a token, to look at the next one, or where the next one
is. -/
inductive Request
  | next
  | peek
  | locate
deriving DecidableEq

inductive Answer
  | token (token : Token)
  | location (location : Option Location)
deriving DecidableEq

/-- `ahead` are the tokens that were not taken yet. `span` is where the token stands that was taken
last, in bytes. -/
structure Context where
  source : List Char
  peeked : Option Token
  ahead : List Lexeme
  span : Span
  tracked : Bool
  lines : LineTracker

namespace Context

def ofSource (tracked : Bool) (source : List Char) : Context :=
  ⟨source, none, Lexeme.scan source, ⟨0, 0⟩, tracked, .start⟩

def bytes (source : List Char) (s : Span) : Span :=
  ⟨Utf8.size (source.take s.start), Utf8.size (source.take s.stop)⟩

/-- Behind the last token the end of the source is taken, each time again. -/
def take (c : Context) : Token × Context :=
  match c.ahead with
  | [] => (.finish, { c with span := bytes c.source ⟨c.source.length, c.source.length⟩ })
  | l :: ls => (l.token, { c with ahead := ls, span := bytes c.source l.span })

def next (c : Context) : Token × Context :=
  match c.peeked with
  | some token => (token, { c with peeked := none })
  | none => c.take

def peek (c : Context) : Token × Context :=
  match c.peeked with
  | some token => (token, c)
  | none =>
    let (token, c) := c.take
    (token, { c with peeked := some token })

def locate (c : Context) : Option Location × Context :=
  if c.tracked then
    let c := c.peek.2
    let offset := min c.span.start (Utf8.size c.source)
    let (location, lines) := c.lines.locate c.source offset
    (some location, { c with lines })
  else (none, c)

def answer (c : Context) : Request → Answer × Context
  | .next => c.next.map .token id
  | .peek => c.peek.map .token id
  | .locate => c.locate.map .location id

def answers : List Request → Context → List Answer
  | [], _ => []
  | r :: rs, c => (c.answer r).1 :: answers rs (c.answer r).2

end Context

namespace Cursor

def answer (c : Cursor) : Request → Answer × Cursor
  | .next => (.token c.peek, c.next)
  | .peek => (.token c.peek, c)
  | .locate => (.location c.mark, c)

def answers : List Request → Cursor → List Answer
  | [], _ => []
  | r :: rs, c => (c.answer r).1 :: answers rs (c.answer r).2

end Cursor
end GraphQLCheck
