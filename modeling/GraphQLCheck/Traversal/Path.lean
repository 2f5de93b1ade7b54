import GraphQLCheck.Error
import GraphQLCheck.Text.Split

/-!
Paths lead from the node that a traversal started at to a node below it. A segment names a part
of a node or gives the position in a list. As text the segments stand between dots; a text of
digits is a position, which is at most the largest number of 64 bits.
-/
namespace GraphQLCheck

inductive Segment
  | index (position : Nat)
  | arguments
  | defaultValue
  | directives
  | fields
  | name
  | selectionSet
  | type
  | value
  | values
  | variable
  | variableDefinitions
deriving DecidableEq

namespace Segment

def render : Segment → String
  | .index n => toString n
  | .arguments => "arguments"
  | .defaultValue => "defaultValue"
  | .directives => "directives"
  | .fields => "fields"
  | .name => "name"
  | .selectionSet => "selectionSet"
  | .type => "type"
  | .value => "value"
  | .values => "values"
  | .variable => "variable"
  | .variableDefinitions => "variableDefinitions"

def keywords : List Segment :=
  [.arguments, .defaultValue, .directives, .fields, .name, .selectionSet, .type, .value, .values,
    .variable, .variableDefinitions]

def maxIndex : Nat := UInt64.size - 1

/-- A position may be written with a plus sign and with zeros in front. -/
def index? (text : List Char) : Option Nat :=
  let digits := match text with
    | '+' :: ds => ds
    | ds => ds
  let n := digits.foldl (fun n d => n * 10 + (d.toNat - '0'.toNat)) 0
  if !digits.isEmpty && digits.all Char.isDigit && n ≤ maxIndex then some n else none

def read (text : List Char) : Except Error Segment :=
  match index? text with
  | some n => .ok (.index n)
  | none =>
    match keywords.find? (·.render.toList == text) with
    | some s => .ok s
    | none =>
      .error (.plain ("Invalid path segment " ++ String.ofList text) (some .usage))

end Segment

structure Path where
  segments : List Segment
deriving DecidableEq

namespace Path

def root : Path := ⟨[]⟩

def push (p : Path) (s : Segment) : Path := ⟨p.segments ++ [s]⟩

def pop (p : Path) : Path := ⟨p.segments.dropLast⟩

def last? (p : Path) : Option Segment := p.segments.getLast?

@[simp]
theorem pop_push (p : Path) (s : Segment) : (p.push s).pop = p := by
  simp [push, pop]

@[simp]
theorem last?_push (p : Path) (s : Segment) : (p.push s).last? = some s := by
  simp [push, last?]

def render (p : Path) : String := ".".intercalate (p.segments.map Segment.render)

def read (text : String) : Except Error Path := do
  let segments ← (Text.split '.' text.toList).mapM Segment.read
  pure ⟨segments⟩

end Path
end GraphQLCheck
