import GraphQLCheck.Document.Basic
import GraphQLCheck.Document.Kind
import GraphQLCheck.Token.Reader

/-!
Reading documents and their parts. Every reader decides by the next token; where that token does
not fit, it fails with the kind of node it was reading. Readers that call themselves take a bound
on the depth of nesting; each level takes a token, so the number of tokens is bound enough.
-/
namespace GraphQLCheck
open Reader

abbrev NodeReader (α : Type) : Type := Reader NodeKind α

def bounded {α : Type} (r : Nat → NodeReader α) : NodeReader α := fun c =>
  r (c.ahead.length + 1) c

def readName : NodeReader Name := do
  let loc ← mark
  let text ← takeName .namedType
  pure ⟨text, loc⟩

def readVariable : NodeReader Variable := do
  let loc ← mark
  let name ← take (fun | .variableName n => some n | _ => none) fun _ => .variable
  pure ⟨name, loc⟩

namespace Value

def readBoolean : NodeReader Value := do
  let loc ← mark
  let b ← take (fun t =>
    if t = .name "true" then some true else if t = .name "false" then some false else none)
    fun _ => .boolean
  pure (.boolean b loc)

def readEnum : NodeReader Value := do
  let loc ← mark
  let name ← take (fun
    | .name n => if n = "true" ∨ n = "false" ∨ n = "null" then none else some n
    | _ => none) fun _ => .enum
  pure (.enum name loc)

def readFloat : NodeReader Value := do
  let loc ← mark
  let digits ← take (fun | .float d => some d | _ => none) fun _ => .float
  pure (.float digits loc)

def readInt : NodeReader Value := do
  let loc ← mark
  let digits ← take (fun | .integer d => some d | _ => none) fun _ => .int
  pure (.int digits loc)

def readString : NodeReader Value := do
  let loc ← mark
  let text ← take (fun | .string s => some s | _ => none) fun _ => .string
  pure (.string text loc)

def readEntry (kind : NodeKind) (value : NodeReader Value) :
    NodeReader (String × Value × Option Location) := do
  let loc ← mark
  let name ← takeName kind
  expect .colon kind
  let v ← value
  pure (name, v, loc)

def readObjectField (value : NodeReader Value) : NodeReader ObjectField := do
  let (name, v, loc) ← readEntry .objectField value
  pure ⟨name, v, loc⟩

def readListOf (value : NodeReader Value) : NodeReader Value := do
  let loc ← mark
  expect .bracketOpen .list
  let values ← itemsUntil .bracketClose value
  pure (.list values loc)

def readObjectOf (value : NodeReader Value) : NodeReader Value := do
  let loc ← mark
  expect .braceOpen .object
  let fields ← itemsUntil .braceClose (readObjectField value)
  pure (.object fields loc)

/-- Values nested less than `n` deep. A constant value holds no variables. -/
def readWithin (constant : Bool) : Nat → NodeReader Value
  | 0 => unfinished
  | n + 1 => do
    let loc ← mark
    match ← peek with
    | .variableName name =>
      if constant then fail .variableDefinition
      else do
        skip
        pure (.variable ⟨name, loc⟩)
    | .name text => do
      skip
      pure (.ofName text loc)
    | .float digits => do
      skip
      pure (.float digits loc)
    | .integer digits => do
      skip
      pure (.int digits loc)
    | .string text => do
      skip
      pure (.string text loc)
    | .bracketOpen => readListOf (readWithin constant n)
    | .braceOpen => readObjectOf (readWithin constant n)
    | _ => fail .value

def read (constant : Bool) : NodeReader Value := bounded (readWithin constant)

end Value

def readArgument : NodeReader Argument := do
  let (name, v, loc) ← Value.readEntry .argument (Value.read false)
  pure ⟨name, v, loc⟩

def readArguments : NodeReader (List Argument) := do
  if ← optional .parenOpen then itemsUntil .parenClose readArgument
  else pure []

def readDirective : NodeReader Directive := do
  let loc ← mark
  let name ← take (fun | .directiveName n => some n | _ => none) fun _ => .directive
  let arguments ← readArguments
  pure ⟨name, arguments, loc⟩

def readDirectives : NodeReader (List Directive) :=
  itemsWhile (fun | .directiveName _ => true | _ => false) readDirective

def requireBrace (kind : NodeKind) : NodeReader Unit := do
  if (← peek) = .braceOpen then pure () else fail kind

namespace Selection

def readFieldName : NodeReader (Option String × String) := do
  let first ← takeName .field
  if ← optional .colon then
    let name ← takeName .field
    pure (some first, name)
  else pure (none, first)

def readFieldWith (set : NodeReader (List Selection)) : NodeReader Field := do
  let loc ← mark
  let (responseAlias, name) ← readFieldName
  let arguments ← readArguments
  let directives ← readDirectives
  let selections ← set
  pure ⟨responseAlias, name, arguments, directives, selections, loc⟩

def readSpreadFrom (loc : Option Location) : NodeReader FragmentSpread := do
  if (← peek) = .name "on" then fail .fragmentSpread
  else
    match ← peek with
    | .name _ =>
      let name ← readName
      let directives ← readDirectives
      pure ⟨name, directives, loc⟩
    | _ => fail .fragmentSpread

def readInlineFrom (set : NodeReader (List Selection)) (loc : Option Location) :
    NodeReader InlineFragment := do
  let condition ← if ← optional (.name "on") then some <$> readName else pure none
  let directives ← readDirectives
  requireBrace .inlineFragment
  let selections ← set
  pure ⟨condition, directives, selections, loc⟩

def readWith (set : NodeReader (List Selection)) : NodeReader Selection := do
  match ← peek with
  | .name _ => .field <$> readFieldWith set
  | .ellipsis =>
    let loc ← mark
    skip
    match ← peek with
    | .directiveName _ | .braceOpen => .inline <$> readInlineFrom set loc
    | .name text =>
      if text = "on" then .inline <$> readInlineFrom set loc
      else .spread <$> readSpreadFrom loc
    | _ => fail .selection
  | _ => fail .selection

/-- Selection sets nested less than `n` deep. A set in braces is not empty; where there is no
brace there is no set. -/
def readSetWithin : Nat → NodeReader (List Selection)
  | 0 => unfinished
  | n + 1 => do
    if ← optional .braceOpen then itemsUntil₁ .braceClose (readWith (readSetWithin n))
    else pure []

def readSet : NodeReader (List Selection) := bounded readSetWithin

def read : NodeReader Selection := readWith readSet

end Selection

def readField : NodeReader Field := Selection.readFieldWith Selection.readSet

def readFragmentSpread : NodeReader FragmentSpread := do
  let loc ← mark
  expect .ellipsis .fragmentSpread
  Selection.readSpreadFrom loc

def readInlineFragment : NodeReader InlineFragment := do
  let loc ← mark
  expect .ellipsis .inlineFragment
  Selection.readInlineFrom Selection.readSet loc

namespace TypeExpr

def readWithin : Nat → NodeReader TypeExpr
  | 0 => unfinished
  | n + 1 => do
    let loc ← mark
    let type ← match ← peek with
      | .bracketOpen => do
        skip
        let item ← readWithin n
        expect .bracketClose .listType
        pure (list item)
      | .name text => do
        skip
        pure (named ⟨text, loc⟩)
      | _ => fail .type
    if ← optional .exclam then pure (nonNull type) else pure type

def read : NodeReader TypeExpr := bounded readWithin

end TypeExpr

def readVariableDefinition : NodeReader VariableDefinition := do
  let loc ← mark
  let var ← readVariable
  expect .colon .variableDefinition
  let type ← TypeExpr.read
  let defaultValue ← if ← optional .equal then some <$> Value.read true else pure none
  let directives ← readDirectives
  pure ⟨var, type, defaultValue, directives, loc⟩

def readVariableDefinitions : NodeReader (List VariableDefinition) := do
  if ← optional .parenOpen then itemsUntil₁ .parenClose readVariableDefinition
  else pure []

def readFragment : NodeReader Fragment := do
  let loc ← mark
  expect (.name "fragment") .fragmentDefinition
  let name ← readName
  expect (.name "on") .fragmentDefinition
  let condition ← readName
  let directives ← readDirectives
  requireBrace .fragmentDefinition
  let selections ← Selection.readSet
  pure ⟨name, condition, directives, selections, loc⟩

def OperationKind.ofName? (name : String) : Option OperationKind :=
  if name = "query" then some .query
  else if name = "mutation" then some .mutation
  else if name = "subscription" then some .subscription
  else none

def OperationKind.ofToken? : Token → Option OperationKind
  | .name n => ofName? n
  | _ => none

def readOperationKind : NodeReader OperationKind :=
  take OperationKind.ofToken? fun _ => .operationKind

/-- An operation is a selection set alone, which is a query, or begins with its kind. -/
def readOperation : NodeReader Operation := do
  let loc ← mark
  if (← peek) = .braceOpen then
    let selections ← Selection.readSet
    pure ⟨.query, none, [], [], selections, loc⟩
  else
    let kind ← take OperationKind.ofToken? fun _ => .operationDefinition
    let name ← match ← peek with
      | .name _ => some <$> readName
      | _ => pure none
    let definitions ← readVariableDefinitions
    let directives ← readDirectives
    requireBrace .operationDefinition
    let selections ← Selection.readSet
    pure ⟨kind, name, definitions, directives, selections, loc⟩

def readDefinition : NodeReader Definition := do
  match ← peek with
  | .braceOpen => .operation <$> readOperation
  | .name text =>
    if text = "fragment" then .fragment <$> readFragment
    else if (OperationKind.ofName? text).isSome then .operation <$> readOperation
    else fail .document
  | _ => fail .document

def readDefinitions : NodeReader (List Definition) :=
  itemsWhile (· ≠ .finish) readDefinition

/-- Reads a node from the beginning of a source; what follows it is left alone. -/
def readNode {α : Type} (r : NodeReader α) (tracked : Bool) (source : String) :
    Except Error α :=
  r.run (fun text kind l => l.error text ("Invalid " ++ kind.name)) tracked source

def Document.read (tracked : Bool) (source : String) : Except Error Document := do
  let definitions ← readNode readDefinitions tracked source
  pure ⟨definitions, source.utf8ByteSize⟩

end GraphQLCheck
