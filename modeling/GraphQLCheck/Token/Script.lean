import GraphQLCheck.Source.Excerpt
import GraphQLCheck.Token.Context

/-!
Readers as programs over requests. A `Script` sees of a source only the tokens and locations that it
asks for, and it fails only by refusing a token that it consumed or looked at. It runs on a cursor,
and on a context, which takes the tokens when they are asked for. A failure is then reported where
the token stands that was taken last.
-/
namespace GraphQLCheck

namespace Context

def left (c : Context) : Nat :=
  match c.peeked with
  | none | some .finish => c.ahead.length
  | some _ => c.ahead.length + 1

/-- The error at the token that was taken last, if its place lies within the source. -/
def error? (c : Context) (message : String) : Option Error := do
  let location ← Excerpt.location? c.source c.span.start
  let excerpt ← Excerpt.render? c.source c.span
  pure (.withContext message (some location) excerpt (some .malformed))

end Context

/-- What to go on with depends on the answer to a request. `left` asks how many tokens there are
still, which bounds loops. -/
inductive Script (ε α : Type)
  | done (value : α)
  | unfinished
  | next (refuse : Token → Option ε) (go : Token → Script ε α)
  | peek (refuse : Token → Option ε) (go : Token → Script ε α)
  | locate (go : Option Location → Script ε α)
  | left (go : Nat → Script ε α)

namespace Script

variable {ε α β : Type}

protected def bind : Script ε α → (α → Script ε β) → Script ε β
  | done a, f => f a
  | unfinished, _ => unfinished
  | next refuse go, f => next refuse fun t => (go t).bind f
  | peek refuse go, f => peek refuse fun t => (go t).bind f
  | locate go, f => locate fun l => (go l).bind f
  | left go, f => left fun n => (go n).bind f

def onCursor : Script ε α → Reader ε α
  | done a, c => .done a c
  | unfinished, _ => .unfinished
  | next refuse go, c =>
    match refuse c.peek with
    | some e => .failed e c
    | none => (go c.peek).onCursor c.next
  | peek refuse go, c =>
    match refuse c.peek with
    | some e => .failed e c
    | none => (go c.peek).onCursor c
  | locate go, c => (go c.mark).onCursor c
  | left go, c => (go c.ahead.length).onCursor c

def onContext : Script ε α → Context → Option (Except ε α) × Context
  | done a, c => (some (.ok a), c)
  | unfinished, c => (none, c)
  | next refuse go, c =>
    match refuse c.next.1 with
    | some e => (some (.error e), c.next.2)
    | none => (go c.next.1).onContext c.next.2
  | peek refuse go, c =>
    match refuse c.peek.1 with
    | some e => (some (.error e), c.peek.2)
    | none => (go c.peek.1).onContext c.peek.2
  | locate go, c => (go c.locate.1).onContext c.locate.2
  | left go, c => (go c.left).onContext c

def read? (s : Script ε α) (message : ε → String) (tracked : Bool) (source : String) :
    Option (Except Error α) :=
  match s.onContext (.ofSource tracked source.toList) with
  | (some (.ok a), _) => some (.ok a)
  | (some (.error e), c) => (c.error? (message e)).map .error
  | (none, _) => none

end Script
end GraphQLCheck
