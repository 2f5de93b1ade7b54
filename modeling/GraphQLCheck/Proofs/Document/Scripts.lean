import GraphQLCheck.Proofs.Schema.Termination
import GraphQLCheck.Proofs.Token.Script

/-!
The readers of documents as scripts. Each reader is the run of a script that is put together as the
reader is, so that it consumes or looks at each token that it refuses. Reading a node token by token
therefore comes to the same result, with places or without, and shows the same error
(`NodeSort.read?_eq`).
-/
namespace GraphQLCheck

namespace Scripted

def bounded {α : Type} {r : Nat → NodeReader α} (s : ∀ n, Scripted (r n)) :
    Scripted (GraphQLCheck.bounded r) := within s

def readName : Scripted GraphQLCheck.readName :=
  mark.bind fun _ => (takeName _).bind fun _ => pure _

def readVariable : Scripted GraphQLCheck.readVariable :=
  mark.bind fun _ => (take _ _).bind fun _ => pure _

section
variable {value : NodeReader Value}

def readBoolean : Scripted Value.readBoolean :=
  mark.bind fun _ => (take _ _).bind fun _ => pure _

def readEnum : Scripted Value.readEnum := mark.bind fun _ => (take _ _).bind fun _ => pure _

def readFloat : Scripted Value.readFloat := mark.bind fun _ => (take _ _).bind fun _ => pure _

def readInt : Scripted Value.readInt := mark.bind fun _ => (take _ _).bind fun _ => pure _

def readString : Scripted Value.readString := mark.bind fun _ => (take _ _).bind fun _ => pure _

def readEntry (kind : NodeKind) (s : Scripted value) : Scripted (Value.readEntry kind value) :=
  mark.bind fun _ => (takeName _).bind fun _ => (expect _ _).bind fun _ => s.bind fun _ => pure _

def readObjectField (s : Scripted value) : Scripted (Value.readObjectField value) :=
  (readEntry _ s).bind fun _ => pure _

def readListOf (s : Scripted value) : Scripted (Value.readListOf value) :=
  mark.bind fun _ => (expect _ _).bind fun _ => (itemsUntil _ s).bind fun _ => pure _

def readObjectOf (s : Scripted value) : Scripted (Value.readObjectOf value) :=
  mark.bind fun _ => (expect _ _).bind fun _ =>
    (itemsUntil _ (readObjectField s)).bind fun _ => pure _

def readValueWithin (constant : Bool) : (n : Nat) → Scripted (Value.readWithin constant n)
  | 0 => unfinished
  | n + 1 => mark.bind fun _ => look fun t => by
    cases t with
    | variableName _ => exact .ite (.refuse _ rfl) (.go (skip.bind fun _ => pure _))
    | name _ => exact .go (skip.bind fun _ => pure _)
    | float _ => exact .go (skip.bind fun _ => pure _)
    | integer _ => exact .go (skip.bind fun _ => pure _)
    | string _ => exact .go (skip.bind fun _ => pure _)
    | bracketOpen => exact .go (readListOf (readValueWithin constant n))
    | braceOpen => exact .go (readObjectOf (readValueWithin constant n))
    | _ => exact .refuse _ rfl

def readValue (constant : Bool) : Scripted (Value.read constant) :=
  bounded (readValueWithin constant)

end

def readArgument : Scripted GraphQLCheck.readArgument :=
  (readEntry _ (readValue false)).bind fun _ => pure _

def readArguments : Scripted GraphQLCheck.readArguments :=
  (optional _).bind fun _ => ite (itemsUntil _ readArgument) (pure _)

def readDirective : Scripted GraphQLCheck.readDirective :=
  mark.bind fun _ => (take _ _).bind fun _ => readArguments.bind fun _ => pure _

def readDirectives : Scripted GraphQLCheck.readDirectives := itemsWhile _ readDirective

def requireBrace (kind : NodeKind) : Scripted (GraphQLCheck.requireBrace kind) :=
  look fun _ => .ite (.go (pure _)) (.refuse _ rfl)

section
variable {set : NodeReader (List Selection)}

def readFieldName : Scripted Selection.readFieldName :=
  (takeName _).bind fun _ => (optional _).bind fun _ =>
    ite ((takeName _).bind fun _ => pure _) (pure _)

def readFieldWith (s : Scripted set) : Scripted (Selection.readFieldWith set) :=
  mark.bind fun _ => readFieldName.bind fun _ => readArguments.bind fun _ =>
    readDirectives.bind fun _ => s.bind fun _ => pure _

def readSpreadFrom (loc : Option Location) : Scripted (Selection.readSpreadFrom loc) :=
  look fun _ => .ite (.refuse _ rfl) <| .go <| look fun t => by
    cases t with
    | name _ => exact .go (readName.bind fun _ => readDirectives.bind fun _ => pure _)
    | _ => exact .refuse _ rfl

def readInlineFrom (s : Scripted set) (loc : Option Location) :
    Scripted (Selection.readInlineFrom set loc) :=
  have tail : ∀ condition, Scripted (Selection.readInlineTail set loc condition) := fun _ =>
    readDirectives.bind fun _ => (requireBrace _).bind fun _ => s.bind fun _ => pure _
  Selection.readInlineFrom_eq loc ▸
    (optional _).bind fun _ => ite ((readName.map _).bind tail) (tail none)

def readSelectionWith (s : Scripted set) : Scripted (Selection.readWith set) :=
  look fun t => by
    cases t with
    | name _ => exact .go ((readFieldWith s).map _)
    | ellipsis =>
      refine .go (mark.bind fun loc => skip.bind fun _ => look fun t => ?_)
      have inline := (readInlineFrom s loc).map Selection.inline
      cases t with
      | directiveName _ => exact .go inline
      | braceOpen => exact .go inline
      | name _ => exact .ite (.go inline) (.go ((readSpreadFrom loc).map _))
      | _ => exact .refuse _ rfl
    | _ => exact .refuse _ rfl

end

def readSetWithin : (n : Nat) → Scripted (Selection.readSetWithin n)
  | 0 => unfinished
  | n + 1 => (optional _).bind fun _ =>
    ite (itemsUntil₁ _ (readSelectionWith (readSetWithin n))) (pure _)

def readSet : Scripted Selection.readSet := bounded readSetWithin

def readField : Scripted GraphQLCheck.readField := readFieldWith readSet

def readFragmentSpread : Scripted GraphQLCheck.readFragmentSpread :=
  mark.bind fun loc => (expect _ _).bind fun _ => readSpreadFrom loc

def readInlineFragment : Scripted GraphQLCheck.readInlineFragment :=
  mark.bind fun loc => (expect _ _).bind fun _ => readInlineFrom readSet loc

def readTypeWithin : (n : Nat) → Scripted (TypeExpr.readWithin n)
  | 0 => unfinished
  | n + 1 =>
    have required : ∀ t, Scripted (TypeExpr.readRequired t) := fun _ =>
      (optional _).bind fun _ => ite (pure _) (pure _)
    TypeExpr.readWithin_succ n ▸ mark.bind fun _ => look fun t => by
      cases t with
      | bracketOpen =>
        exact .go (skip.bind fun _ => (readTypeWithin n).bind fun _ =>
          (expect _ _).bind fun _ => required _)
      | name _ => exact .go (skip.bind fun _ => required _)
      | _ => exact .refuse _ rfl

def readType : Scripted TypeExpr.read := bounded readTypeWithin

def readVariableDefinition : Scripted GraphQLCheck.readVariableDefinition :=
  have tail : ∀ v t loc default, Scripted (readVariableTail v t loc default) := fun _ _ _ _ =>
    readDirectives.bind fun _ => pure _
  readVariableDefinition_eq ▸ mark.bind fun _ => readVariable.bind fun _ =>
    (expect _ _).bind fun _ => readType.bind fun _ => (optional _).bind fun _ =>
    ite (((readValue true).map _).bind fun _ => tail _ _ _ _) (tail _ _ _ _)

def readVariableDefinitions : Scripted GraphQLCheck.readVariableDefinitions :=
  (optional _).bind fun _ => ite (itemsUntil₁ _ readVariableDefinition) (pure _)

def readFragment : Scripted GraphQLCheck.readFragment :=
  mark.bind fun _ => (expect _ _).bind fun _ => readName.bind fun _ => (expect _ _).bind fun _ =>
    readName.bind fun _ => readDirectives.bind fun _ => (requireBrace _).bind fun _ =>
    readSet.bind fun _ => pure _

def readOperationKind : Scripted GraphQLCheck.readOperationKind := take _ _

def readOperation : Scripted GraphQLCheck.readOperation :=
  have name : Scripted readOperationName := look fun t => by
    cases t with
    | name _ => exact .go (readName.map _)
    | _ => exact .go (pure _)
  readOperation_eq ▸ mark.bind fun _ => look fun _ => .ite
    (.go (readSet.bind fun _ => pure _)) <| .go <| (take _ _).bind fun _ => name.bind fun _ =>
    readVariableDefinitions.bind fun _ => readDirectives.bind fun _ =>
    (requireBrace _).bind fun _ => readSet.bind fun _ => pure _

def readDefinition : Scripted GraphQLCheck.readDefinition :=
  look fun t => by
    cases t with
    | braceOpen => exact .go (readOperation.map _)
    | name _ =>
      exact .ite (.go (readFragment.map _)) (.ite (.go (readOperation.map _)) (.refuse _ rfl))
    | _ => exact .refuse _ rfl

def readDefinitions : Scripted GraphQLCheck.readDefinitions := itemsWhile _ readDefinition

def reader : (k : NodeSort) → Scripted k.reader
  | .name => readName
  | .variable => readVariable
  | .boolean => readBoolean
  | .enum => readEnum
  | .float => readFloat
  | .int => readInt
  | .string => readString
  | .list => readListOf (readValue false)
  | .object => readObjectOf (readValue false)
  | .value => readValue false
  | .objectField => readObjectField (readValue false)
  | .argument => readArgument
  | .arguments => readArguments
  | .directive => readDirective
  | .directives => readDirectives
  | .field => readField
  | .fragmentSpread => readFragmentSpread
  | .inlineFragment => readInlineFragment
  | .selection => readSelectionWith readSet
  | .selectionSet => readSet
  | .type => readType
  | .variableDefinition => readVariableDefinition
  | .variableDefinitions => readVariableDefinitions
  | .fragment => readFragment
  | .operationKind => readOperationKind
  | .operation => readOperation
  | .document => readDefinitions

end Scripted

/-- A context that takes tokens on demand reads what is read from all tokens. With places and
without, an error is the one at the token that the context took last. -/
theorem NodeSort.read?_eq (k : NodeSort) (tracked : Bool) (source : String) :
    (Scripted.reader k).script.read? ("Invalid " ++ ·.name) tracked source =
      some (readNode k.reader tracked source) := by
  refine (Scripted.reader k).read?_eq (fun c hc => ?_) _ tracked source
  obtain ⟨a, d, hdone⟩ | ⟨e, d, hfailed, -⟩ := (k.settles_reader c).outcome
  · exact absurd (hdone.symm.trans hc) nofun
  · exact absurd (hfailed.symm.trans hc) nofun

end GraphQLCheck
