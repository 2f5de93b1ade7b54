import GraphQLCheck.Error
import GraphQLCheck.Token.Lexer

/-!
Reading sequences of tokens. A `Cursor` stands in front of the next token; at the end of the
source it stays there and shows `Token.finish`. A `Reader` takes tokens from a cursor and ends
with a value, or with a reason and the cursor in front of the token that did not fit.
-/
namespace GraphQLCheck

/-- Places are kept in what is read only where `tracked` is set. -/
structure Cursor where
  ahead : List Lexeme
  finish : Position
  tracked : Bool

namespace Cursor

def ofSource (tracked : Bool) (source : List Char) : Cursor :=
  ⟨Lexeme.scan source, Position.start.after source, tracked⟩

def head (c : Cursor) : Lexeme :=
  match c.ahead with
  | [] => ⟨.finish, ⟨c.finish.offset, c.finish.offset⟩, c.finish.location⟩
  | l :: _ => l

def peek (c : Cursor) : Token := c.head.token

def location (c : Cursor) : Location := c.head.location

def next (c : Cursor) : Cursor := { c with ahead := c.ahead.tail }

def mark (c : Cursor) : Option Location := if c.tracked then some c.location else none

end Cursor

/-- A reader that was given too small a bound on its steps ends `unfinished`. -/
inductive Outcome (ε α : Type)
  | done (value : α) (rest : Cursor)
  | failed (reason : ε) (rest : Cursor)
  | unfinished

def Reader (ε α : Type) : Type := Cursor → Outcome ε α

namespace Reader

variable {ε α β : Type}

protected def pure (a : α) : Reader ε α := fun c => .done a c

protected def bind (r : Reader ε α) (f : α → Reader ε β) : Reader ε β := fun c =>
  match r c with
  | .done a rest => f a rest
  | .failed e rest => .failed e rest
  | .unfinished => .unfinished

instance : Monad (Reader ε) where
  pure := Reader.pure
  bind := Reader.bind

instance : LawfulMonad (Reader ε) :=
  LawfulMonad.mk' (Reader ε)
    (fun r => by
      funext c
      show Reader.bind r (fun a => Reader.pure (id a)) c = r c
      simp only [Reader.bind, Reader.pure, id]
      cases r c <;> rfl)
    (fun a f => rfl)
    (fun r f g => by
      funext c
      show Reader.bind (Reader.bind r f) g c = Reader.bind r (fun a => Reader.bind (f a) g) c
      simp only [Reader.bind]
      cases r c <;> rfl)

def fail (reason : ε) : Reader ε α := fun c => .failed reason c

def unfinished : Reader ε α := fun _ => .unfinished

def peek : Reader ε Token := fun c => .done c.peek c

def skip : Reader ε Unit := fun c => .done () c.next

def mark : Reader ε (Option Location) := fun c => .done c.mark c

def take (accept : Token → Option α) (reason : Token → ε) : Reader ε α := fun c =>
  match accept c.peek with
  | some a => .done a c.next
  | none => .failed (reason c.peek) c

def takeName (reason : ε) : Reader ε String :=
  take (fun | .name n => some n | _ => none) fun _ => reason

def expect (token : Token) (reason : ε) : Reader ε Unit :=
  take (fun t => if t = token then some () else none) fun _ => reason

def optional (token : Token) : Reader ε Bool := fun c =>
  if c.peek = token then .done true c.next else .done false c

def itemsWithin (go : Token → Bool) (item : Reader ε α) : Nat → Reader ε (List α)
  | 0 => unfinished
  | n + 1 => do
    if go (← peek) then
      let a ← item
      let as ← itemsWithin go item n
      pure (a :: as)
    else pure []

/-- Items for as long as the token in front of the next one admits it. Each item takes a token,
so the number of tokens bounds their number. -/
def itemsWhile (go : Token → Bool) (item : Reader ε α) : Reader ε (List α) := fun c =>
  itemsWithin go item (c.ahead.length + 1) c

def itemsUntil (close : Token) (item : Reader ε α) : Reader ε (List α) := do
  let items ← itemsWhile (· ≠ close) item
  skip
  pure items

def itemsUntil₁ (close : Token) (item : Reader ε α) : Reader ε (List α) := do
  let first ← item
  let others ← itemsUntil close item
  pure (first :: others)

def mapReason {ε' : Type} (f : ε → ε') (r : Reader ε α) : Reader ε' α := fun c =>
  match r c with
  | .done a rest => .done a rest
  | .failed e rest => .failed (f e) rest
  | .unfinished => .unfinished

def run (r : Reader ε α) (toError : List Char → ε → Lexeme → Error) (tracked : Bool)
    (source : String) : Except Error α :=
  let text := source.toList
  match r (.ofSource tracked text) with
  | .done a _ => .ok a
  | .failed e rest => .error (toError text e rest.head)
  | .unfinished => .error (.plain "The source was not read to its end" (some .malformed))

end Reader

def Lexeme.error (source : List Char) (message : String) (l : Lexeme) : Error :=
  .withContext message (some l.location) (Snippet.render source l.span) (some .malformed)

end GraphQLCheck
