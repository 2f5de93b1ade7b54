import GraphQLCheck.Proofs.Document.Unplaced
import GraphQLCheck.Proofs.Token.Untracked

/-!
Keeping places has no effect on what is read: every kind of node is read without places exactly
where it is read with them, as the same node less its places, and fails with the same error. The
proof follows the readers, each of which is made of readers that satisfy `Untracked`.
-/
namespace GraphQLCheck
open Reader

theorem Untracked.bounded {α β : Type} {f : α → β} {r : Nat → NodeReader α}
    {r' : Nat → NodeReader β} (h : ∀ n, Untracked f (r n) (r' n)) :
    Untracked f (GraphQLCheck.bounded r) (GraphQLCheck.bounded r') := by
  intro v c
  rw [GraphQLCheck.bounded, v.length]
  exact h (c.ahead.length + 1) v c

theorem untracked_readName : Untracked Name.unplaced readName readName :=
  .bind .mark fun _ => .bind (.takeName _) fun _ => .pure rfl

theorem untracked_readVariable : Untracked Variable.unplaced readVariable readVariable :=
  .bind .mark fun _ => .bind (.take _ _) fun _ => .pure rfl

namespace Value

theorem untracked_readBoolean : Untracked unplaced readBoolean readBoolean :=
  .bind .mark fun _ => .bind (.take _ _) fun _ => .pure rfl

theorem untracked_readEnum : Untracked unplaced readEnum readEnum :=
  .bind .mark fun _ => .bind (.take _ _) fun _ => .pure rfl

theorem untracked_readFloat : Untracked unplaced readFloat readFloat :=
  .bind .mark fun _ => .bind (.take _ _) fun _ => .pure rfl

theorem untracked_readInt : Untracked unplaced readInt readInt :=
  .bind .mark fun _ => .bind (.take _ _) fun _ => .pure rfl

theorem untracked_readString : Untracked unplaced readString readString :=
  .bind .mark fun _ => .bind (.take _ _) fun _ => .pure rfl

variable {value : NodeReader Value}

theorem untracked_readEntry (kind : NodeKind) (h : Untracked unplaced value value) :
    Untracked (fun (name, v, _) => (name, v.unplaced, none)) (readEntry kind value)
      (readEntry kind value) :=
  .bind .mark fun _ => .bind (.takeName _) fun _ => .bind (.expect _ _) fun _ =>
    h.bind fun _ => .pure rfl

theorem untracked_readObjectField (h : Untracked unplaced value value) :
    Untracked ObjectField.unplaced (readObjectField value) (readObjectField value) :=
  (untracked_readEntry _ h).bind fun _ => .pure rfl

theorem untracked_readListOf (h : Untracked unplaced value value) :
    Untracked unplaced (readListOf value) (readListOf value) := by
  refine .bind .mark fun loc => .bind (.expect _ _) fun _ =>
    (Untracked.itemsUntil h).bind fun vs => .pure ?_
  rw [unplaced, unplacedAll_eq]

theorem untracked_readObjectOf (h : Untracked unplaced value value) :
    Untracked unplaced (readObjectOf value) (readObjectOf value) := by
  refine .bind .mark fun loc => .bind (.expect _ _) fun _ =>
    (Untracked.itemsUntil (untracked_readObjectField h)).bind fun fs => .pure ?_
  rw [unplaced, ObjectField.unplacedAll_eq]

theorem untracked_readWithin (constant : Bool) (n : Nat) :
    Untracked unplaced (readWithin constant n) (readWithin constant n) := by
  induction n with
  | zero => exact .unfinished
  | succ n ih =>
    refine .bind .mark fun loc => .bind .peek fun t => ?_
    cases t with
    | variableName name =>
      exact .ite (fun _ => .fail) fun _ => .bind .skip fun _ => .pure rfl
    | name text => exact .bind .skip fun _ => .pure (unplaced_ofName text loc)
    | float digits => exact .bind .skip fun _ => .pure rfl
    | integer digits => exact .bind .skip fun _ => .pure rfl
    | string text => exact .bind .skip fun _ => .pure rfl
    | bracketOpen => exact untracked_readListOf ih
    | braceOpen => exact untracked_readObjectOf ih
    | _ => exact .fail

theorem untracked_read (constant : Bool) :
    Untracked unplaced (read constant) (read constant) :=
  .bounded (untracked_readWithin constant)

end Value

theorem untracked_readArgument : Untracked Argument.unplaced readArgument readArgument :=
  (Value.untracked_readEntry _ (Value.untracked_read false)).bind fun _ => .pure rfl

theorem untracked_readArguments :
    Untracked (List.map Argument.unplaced) readArguments readArguments :=
  .bind (.optional _) fun _ =>
    .ite (fun _ => .itemsUntil untracked_readArgument) fun _ => .pure rfl

theorem untracked_readDirective : Untracked Directive.unplaced readDirective readDirective :=
  .bind .mark fun _ => .bind (.take _ _) fun _ => untracked_readArguments.bind fun _ => .pure rfl

theorem untracked_readDirectives :
    Untracked (List.map Directive.unplaced) readDirectives readDirectives :=
  .itemsWhile untracked_readDirective

theorem untracked_requireBrace (kind : NodeKind) :
    Untracked id (requireBrace kind) (requireBrace kind) :=
  .bind .peek fun _ => .ite (fun _ => .pure rfl) fun _ => .fail

namespace Selection

theorem untracked_readFieldName : Untracked id readFieldName readFieldName :=
  .bind (.takeName _) fun _ => .bind (.optional _) fun _ =>
    .ite (fun _ => .bind (.takeName _) fun _ => .pure rfl) fun _ => .pure rfl

theorem untracked_readSpreadFrom (loc : Option Location) :
    Untracked FragmentSpread.unplaced (readSpreadFrom loc) (readSpreadFrom none) := by
  refine .bind .peek fun _ => .ite (fun _ => .fail) fun _ => .bind .peek fun t => ?_
  cases t with
  | name _ =>
    exact untracked_readName.bind fun _ => untracked_readDirectives.bind fun _ => .pure rfl
  | _ => exact .fail

section
variable {set : NodeReader (List Selection)}

theorem untracked_readFieldWith (h : Untracked (List.map unplaced) set set) :
    Untracked Field.unplaced (readFieldWith set) (readFieldWith set) := by
  refine .bind .mark fun loc => untracked_readFieldName.bind fun name =>
    untracked_readArguments.bind fun arguments =>
    untracked_readDirectives.bind fun directives => h.bind fun selections => .pure ?_
  rw [Field.unplaced, unplacedAll_eq]

theorem untracked_readInlineTail (h : Untracked (List.map unplaced) set set)
    (loc : Option Location) (condition : Option Name) :
    Untracked InlineFragment.unplaced (readInlineTail set loc condition)
      (readInlineTail set none (condition.map Name.unplaced)) := by
  refine untracked_readDirectives.bind fun directives =>
    (untracked_requireBrace _).bind fun _ => h.bind fun selections => .pure ?_
  rw [InlineFragment.unplaced, unplacedAll_eq]

theorem untracked_readInlineFrom (h : Untracked (List.map unplaced) set set)
    (loc : Option Location) :
    Untracked InlineFragment.unplaced (readInlineFrom set loc) (readInlineFrom set none) := by
  rw [readInlineFrom_eq, readInlineFrom_eq]
  have hname : Untracked (Option.map Name.unplaced) (some <$> readName) (some <$> readName) :=
    untracked_readName.map fun _ => rfl
  exact .bind (.optional _) fun _ =>
    .ite (fun _ => hname.bind (untracked_readInlineTail h loc))
      fun _ => untracked_readInlineTail h loc none

theorem untracked_readWith (h : Untracked (List.map unplaced) set set) :
    Untracked unplaced (readWith set) (readWith set) := by
  refine .bind .peek fun t => ?_
  cases t with
  | name _ => exact (untracked_readFieldWith h).map fun _ => rfl
  | ellipsis =>
    refine .bind .mark fun loc => .bind .skip fun _ => .bind .peek fun t => ?_
    have hinline := untracked_readInlineFrom h loc
    cases t with
    | directiveName _ => exact hinline.map fun _ => rfl
    | braceOpen => exact hinline.map fun _ => rfl
    | name text =>
      exact .ite (fun _ => hinline.map fun _ => rfl)
        fun _ => (untracked_readSpreadFrom loc).map fun _ => rfl
    | _ => exact .fail
  | _ => exact .fail

end

theorem untracked_readSetWithin (n : Nat) :
    Untracked (List.map unplaced) (readSetWithin n) (readSetWithin n) := by
  induction n with
  | zero => exact .unfinished
  | succ n ih =>
    exact .bind (.optional _) fun _ =>
      .ite (fun _ => .itemsUntil₁ (untracked_readWith ih)) fun _ => .pure rfl

theorem untracked_readSet : Untracked (List.map unplaced) readSet readSet :=
  .bounded untracked_readSetWithin

theorem untracked_read : Untracked unplaced read read := untracked_readWith untracked_readSet

end Selection

theorem untracked_readField : Untracked Field.unplaced readField readField :=
  Selection.untracked_readFieldWith Selection.untracked_readSet

theorem untracked_readFragmentSpread :
    Untracked FragmentSpread.unplaced readFragmentSpread readFragmentSpread :=
  .bind .mark fun loc => .bind (.expect _ _) fun _ => Selection.untracked_readSpreadFrom loc

theorem untracked_readInlineFragment :
    Untracked InlineFragment.unplaced readInlineFragment readInlineFragment :=
  .bind .mark fun loc => .bind (.expect _ _) fun _ =>
    Selection.untracked_readInlineFrom Selection.untracked_readSet loc

namespace TypeExpr

theorem untracked_readRequired (t : TypeExpr) :
    Untracked unplaced (readRequired t) (readRequired t.unplaced) :=
  .bind (.optional _) fun _ => .ite (fun _ => .pure rfl) fun _ => .pure rfl

theorem untracked_readWithin (n : Nat) :
    Untracked unplaced (readWithin n) (readWithin n) := by
  induction n with
  | zero => exact .unfinished
  | succ n ih =>
    rw [readWithin_succ]
    refine .bind .mark fun loc => .bind .peek fun t => ?_
    cases t with
    | bracketOpen =>
      exact .bind .skip fun _ => ih.bind fun item => .bind (.expect _ _) fun _ =>
        untracked_readRequired (list item)
    | name text => exact .bind .skip fun _ => untracked_readRequired (named ⟨text, loc⟩)
    | _ => exact .fail

theorem untracked_read : Untracked unplaced read read := .bounded untracked_readWithin

end TypeExpr

theorem untracked_readVariableTail (v : Variable) (t : TypeExpr) (loc : Option Location)
    (default : Option Value) :
    Untracked VariableDefinition.unplaced (readVariableTail v t loc default)
      (readVariableTail v.unplaced t.unplaced none (default.map Value.unplaced)) :=
  untracked_readDirectives.bind fun _ => .pure rfl

theorem untracked_readVariableDefinition :
    Untracked VariableDefinition.unplaced readVariableDefinition readVariableDefinition := by
  rw [readVariableDefinition_eq]
  have hdefault : Untracked (Option.map Value.unplaced) (some <$> Value.read true)
      (some <$> Value.read true) := (Value.untracked_read true).map fun _ => rfl
  exact .bind .mark fun loc => untracked_readVariable.bind fun v => .bind (.expect _ _) fun _ =>
    TypeExpr.untracked_read.bind fun t => .bind (.optional _) fun _ =>
    .ite (fun _ => hdefault.bind (untracked_readVariableTail v t loc))
      fun _ => untracked_readVariableTail v t loc none

theorem untracked_readVariableDefinitions :
    Untracked (List.map VariableDefinition.unplaced) readVariableDefinitions
      readVariableDefinitions :=
  .bind (.optional _) fun _ =>
    .ite (fun _ => .itemsUntil₁ untracked_readVariableDefinition) fun _ => .pure rfl

theorem untracked_readFragment : Untracked Fragment.unplaced readFragment readFragment :=
  .bind .mark fun _ => .bind (.expect _ _) fun _ => untracked_readName.bind fun _ =>
    .bind (.expect _ _) fun _ => untracked_readName.bind fun _ =>
    untracked_readDirectives.bind fun _ => (untracked_requireBrace _).bind fun _ =>
    Selection.untracked_readSet.bind fun _ => .pure rfl

theorem untracked_readOperationKind : Untracked id readOperationKind readOperationKind :=
  .take _ _

theorem untracked_readOperationName :
    Untracked (Option.map Name.unplaced) readOperationName readOperationName := by
  refine .bind .peek fun t => ?_
  cases t with
  | name _ => exact untracked_readName.map fun _ => rfl
  | _ => exact .pure rfl

theorem untracked_readOperationTail (kind : OperationKind) (loc : Option Location)
    (name : Option Name) :
    Untracked Operation.unplaced (readOperationTail kind loc name)
      (readOperationTail kind none (name.map Name.unplaced)) :=
  untracked_readVariableDefinitions.bind fun _ => untracked_readDirectives.bind fun _ =>
    (untracked_requireBrace _).bind fun _ => Selection.untracked_readSet.bind fun _ => .pure rfl

theorem untracked_readOperation : Untracked Operation.unplaced readOperation readOperation := by
  rw [readOperation_eq]
  exact .bind .mark fun loc => .bind .peek fun _ => .ite
    (fun _ => Selection.untracked_readSet.bind fun _ => .pure rfl) fun _ =>
    .bind (.take _ _) fun kind => untracked_readOperationName.bind
      (untracked_readOperationTail kind loc)

theorem untracked_readDefinition :
    Untracked Definition.unplaced readDefinition readDefinition := by
  refine .bind .peek fun t => ?_
  cases t with
  | braceOpen => exact untracked_readOperation.map fun _ => rfl
  | name text =>
    exact .ite (fun _ => untracked_readFragment.map fun _ => rfl) fun _ =>
      .ite (fun _ => untracked_readOperation.map fun _ => rfl) fun _ => .fail
  | _ => exact .fail

theorem untracked_readDefinitions :
    Untracked (List.map Definition.unplaced) readDefinitions readDefinitions :=
  .itemsWhile untracked_readDefinition

theorem Untracked.readNode {α β : Type} {f : α → β} {r : NodeReader α} {r' : NodeReader β}
    (h : Untracked f r r') (source : String) :
    GraphQLCheck.readNode r' false source = (GraphQLCheck.readNode r true source).map f :=
  h.run _ source

theorem Document.read_false (source : String) :
    Document.read false source = (Document.read true source).map unplaced := by
  rw [Document.read, Document.read, untracked_readDefinitions.readNode source]
  cases GraphQLCheck.readNode readDefinitions true source <;> rfl

/-- The kinds of nodes that are read on their own. -/
inductive NodeSort
  | name
  | variable
  | boolean
  | enum
  | float
  | int
  | string
  | list
  | object
  | value
  | objectField
  | argument
  | arguments
  | directive
  | directives
  | field
  | fragmentSpread
  | inlineFragment
  | selection
  | selectionSet
  | type
  | variableDefinition
  | variableDefinitions
  | fragment
  | operationKind
  | operation
  | document

namespace NodeSort

def Node : NodeSort → Type
  | name => Name
  | .variable => Variable
  | boolean | enum | float | int | string | list | object | value => Value
  | objectField => ObjectField
  | argument => Argument
  | arguments => List Argument
  | directive => Directive
  | directives => List Directive
  | field => Field
  | fragmentSpread => FragmentSpread
  | inlineFragment => InlineFragment
  | selection => Selection
  | selectionSet => List Selection
  | type => TypeExpr
  | variableDefinition => VariableDefinition
  | variableDefinitions => List VariableDefinition
  | fragment => Fragment
  | operationKind => OperationKind
  | operation => Operation
  | document => Document

def read : (k : NodeSort) → Bool → String → Except Error k.Node
  | name => readNode readName
  | .variable => readNode readVariable
  | boolean => readNode Value.readBoolean
  | enum => readNode Value.readEnum
  | float => readNode Value.readFloat
  | int => readNode Value.readInt
  | string => readNode Value.readString
  | list => readNode (Value.readListOf (Value.read false))
  | object => readNode (Value.readObjectOf (Value.read false))
  | value => readNode (Value.read false)
  | objectField => readNode (Value.readObjectField (Value.read false))
  | argument => readNode readArgument
  | arguments => readNode readArguments
  | directive => readNode readDirective
  | directives => readNode readDirectives
  | field => readNode readField
  | fragmentSpread => readNode readFragmentSpread
  | inlineFragment => readNode readInlineFragment
  | selection => readNode Selection.read
  | selectionSet => readNode Selection.readSet
  | type => readNode TypeExpr.read
  | variableDefinition => readNode readVariableDefinition
  | variableDefinitions => readNode readVariableDefinitions
  | fragment => readNode readFragment
  | operationKind => readNode readOperationKind
  | operation => readNode readOperation
  | document => Document.read

def unplaced : (k : NodeSort) → k.Node → k.Node
  | name => Name.unplaced
  | .variable => Variable.unplaced
  | boolean | enum | float | int | string | list | object | value => Value.unplaced
  | objectField => ObjectField.unplaced
  | argument => Argument.unplaced
  | arguments => List.map Argument.unplaced
  | directive => Directive.unplaced
  | directives => List.map Directive.unplaced
  | field => Field.unplaced
  | fragmentSpread => FragmentSpread.unplaced
  | inlineFragment => InlineFragment.unplaced
  | selection => Selection.unplaced
  | selectionSet => List.map Selection.unplaced
  | type => TypeExpr.unplaced
  | variableDefinition => VariableDefinition.unplaced
  | variableDefinitions => List.map VariableDefinition.unplaced
  | fragment => Fragment.unplaced
  | operationKind => id
  | operation => Operation.unplaced
  | document => Document.unplaced

def places : (k : NodeSort) → k.Node → List Location
  | name => Name.places
  | .variable => Variable.places
  | boolean | enum | float | int | string | list | object | value => Value.places
  | objectField => ObjectField.places
  | argument => Argument.places
  | arguments => List.flatMap Argument.places
  | directive => Directive.places
  | directives => List.flatMap Directive.places
  | field => Field.places
  | fragmentSpread => FragmentSpread.places
  | inlineFragment => InlineFragment.places
  | selection => Selection.places
  | selectionSet => List.flatMap Selection.places
  | type => TypeExpr.places
  | variableDefinition => VariableDefinition.places
  | variableDefinitions => List.flatMap VariableDefinition.places
  | fragment => Fragment.places
  | operationKind => fun _ => []
  | operation => Operation.places
  | document => Document.places

theorem places_unplaced : ∀ (k : NodeSort) (a : k.Node), k.places (k.unplaced a) = []
  | name, _ | .variable, _ | operationKind, _ => rfl
  | boolean, v | enum, v | float, v | int, v | string, v | list, v | object, v | value, v =>
    Value.places_unplaced v
  | objectField, f => f.places_unplaced
  | argument, a => Argument.places_unplaced a
  | arguments, as => flatMap_unplaced Argument.places_unplaced as
  | directive, d => Directive.places_unplaced d
  | directives, ds => flatMap_unplaced Directive.places_unplaced ds
  | field, f => Field.places_unplaced f
  | fragmentSpread, s => FragmentSpread.places_unplaced s
  | inlineFragment, i => InlineFragment.places_unplaced i
  | selection, s => Selection.places_unplaced s
  | selectionSet, ss => flatMap_unplaced Selection.places_unplaced ss
  | type, t => TypeExpr.places_unplaced t
  | variableDefinition, d => VariableDefinition.places_unplaced d
  | variableDefinitions, ds => flatMap_unplaced VariableDefinition.places_unplaced ds
  | fragment, f => Fragment.places_unplaced f
  | operation, o => Operation.places_unplaced o
  | document, d => Document.places_unplaced d

theorem read_false (source : String) :
    ∀ k : NodeSort, k.read false source = (k.read true source).map k.unplaced
  | name => untracked_readName.readNode source
  | .variable => untracked_readVariable.readNode source
  | boolean => Value.untracked_readBoolean.readNode source
  | enum => Value.untracked_readEnum.readNode source
  | float => Value.untracked_readFloat.readNode source
  | int => Value.untracked_readInt.readNode source
  | string => Value.untracked_readString.readNode source
  | list => (Value.untracked_readListOf (Value.untracked_read false)).readNode source
  | object => (Value.untracked_readObjectOf (Value.untracked_read false)).readNode source
  | value => (Value.untracked_read false).readNode source
  | objectField => (Value.untracked_readObjectField (Value.untracked_read false)).readNode source
  | argument => untracked_readArgument.readNode source
  | arguments => untracked_readArguments.readNode source
  | directive => untracked_readDirective.readNode source
  | directives => untracked_readDirectives.readNode source
  | field => untracked_readField.readNode source
  | fragmentSpread => untracked_readFragmentSpread.readNode source
  | inlineFragment => untracked_readInlineFragment.readNode source
  | selection => Selection.untracked_read.readNode source
  | selectionSet => Selection.untracked_readSet.readNode source
  | type => TypeExpr.untracked_read.readNode source
  | variableDefinition => untracked_readVariableDefinition.readNode source
  | variableDefinitions => untracked_readVariableDefinitions.readNode source
  | fragment => untracked_readFragment.readNode source
  | operationKind => untracked_readOperationKind.readNode source
  | operation => untracked_readOperation.readNode source
  | document => Document.read_false source

/-- A node is read without places exactly where it is read with them. It is then the same node
once the places are taken out, and holds none; a failure is the same error, with its message, its
place and the lines it shows. -/
theorem read_untracked (k : NodeSort) (source : String) :
    (∃ a b, k.read true source = .ok a ∧ k.read false source = .ok b ∧ b = k.unplaced a ∧
        k.places b = []) ∨
      ∃ e, k.read true source = .error e ∧ k.read false source = .error e := by
  have hread := read_false source k
  cases h : k.read true source with
  | ok a =>
    rw [h] at hread
    exact .inl ⟨a, _, rfl, hread, rfl, places_unplaced k a⟩
  | error e =>
    rw [h] at hread
    exact .inr ⟨e, rfl, hread⟩

end NodeSort
end GraphQLCheck
