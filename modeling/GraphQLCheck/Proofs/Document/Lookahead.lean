import GraphQLCheck.Proofs.Document.Parsing
import GraphQLCheck.Proofs.Token.Lookahead

/-!
What the readers of documents look at. All of them settle (`settles_readDefinitions`): they come to
an end at every cursor and look at one token beyond those that they take. A reader that calls itself
is followed by induction on the number of tokens ahead, as it takes one before it does so.
-/
namespace GraphQLCheck
open Reader

section
variable {j : Nat} {c : Cursor}

theorem settles_readName : Settles Always j 1 (fun _ => readName) c :=
  settles_mark ((settles_takeName trivial).bind fun _ _ _ _ _ => settles_pure _)

theorem settles_readVariable : Settles Always j 1 (fun _ => readVariable) c :=
  settles_mark ((settles_take rfl fun _ => trivial).bind fun _ _ _ _ _ => settles_pure _)

theorem settles_requireBrace (kind : NodeKind) :
    Settles Always j 0 (fun _ => requireBrace kind) c :=
  settles_peek (settles_ite (fun _ => settles_pure _) fun _ => settles_fail trivial)

namespace Value

theorem settles_readBoolean : Settles Always j 1 (fun _ => readBoolean) c :=
  settles_mark ((settles_take (by decide) fun _ => trivial).bind fun _ _ _ _ _ => settles_pure _)

theorem settles_readEnum : Settles Always j 1 (fun _ => readEnum) c :=
  settles_mark ((settles_take rfl fun _ => trivial).bind fun _ _ _ _ _ => settles_pure _)

theorem settles_readFloat : Settles Always j 1 (fun _ => readFloat) c :=
  settles_mark ((settles_take rfl fun _ => trivial).bind fun _ _ _ _ _ => settles_pure _)

theorem settles_readInt : Settles Always j 1 (fun _ => readInt) c :=
  settles_mark ((settles_take rfl fun _ => trivial).bind fun _ _ _ _ _ => settles_pure _)

theorem settles_readString : Settles Always j 1 (fun _ => readString) c :=
  settles_mark ((settles_take rfl fun _ => trivial).bind fun _ _ _ _ _ => settles_pure _)

section
variable {value : Nat → NodeReader Value}

theorem settles_readEntry (kind : NodeKind)
    (h : ∀ d, d.ahead.length < c.ahead.length → Settles Always 0 1 value d) :
    Settles Always 0 1 (fun n => readEntry kind (value n)) c := by
  refine settles_mark ((settles_takeName trivial).bind fun _ name d _ hd => ?_)
  refine (settles_expect (t := .colon) (by decide) trivial).weaken.bind fun _ _ e _ he => ?_
  exact (h e (by omega)).weaken.bind fun _ v _ _ _ => settles_pure _

theorem settles_readObjectField
    (h : ∀ d, d.ahead.length < c.ahead.length → Settles Always 0 1 value d) :
    Settles Always 0 1 (fun n => readObjectField (value n)) c :=
  (settles_readEntry .objectField h).bind fun _ _ _ _ _ => settles_pure _

theorem settles_readListOf
    (h : ∀ d, d.ahead.length < c.ahead.length → Settles Always 0 1 value d) :
    Settles Always 1 1 (fun n => readListOf (value n)) c := by
  refine settles_mark ((settles_expect (by decide) trivial).bind fun _ _ d _ hd => ?_)
  have hitem : ∀ e, e.ahead.length ≤ d.ahead.length → Settles Always 0 1 value e :=
    fun e he => h e (by omega)
  exact (settles_itemsUntil (by decide) hitem).bind fun _ _ _ _ _ => settles_pure _

theorem settles_readObjectOf
    (h : ∀ d, d.ahead.length < c.ahead.length → Settles Always 0 1 value d) :
    Settles Always 1 1 (fun n => readObjectOf (value n)) c := by
  refine settles_mark ((settles_expect (by decide) trivial).bind fun _ _ d _ hd => ?_)
  have hitem : ∀ e, e.ahead.length ≤ d.ahead.length →
      Settles Always 0 1 (fun n => readObjectField (value n)) e :=
    fun e he => settles_readObjectField fun e' he' => h e' (by omega)
  exact (settles_itemsUntil (by decide) hitem).bind fun _ _ _ _ _ => settles_pure _

end

theorem settles_readWithin (constant : Bool) (c : Cursor) :
    Settles Always 0 1 (readWithin constant) c := by
  induction hlength : c.ahead.length using Nat.strongRecOn generalizing c with
  | ind N ih =>
    have hnested : ∀ d, d.ahead.length < c.ahead.length →
        Settles Always 0 1 (readWithin constant) d :=
      fun d hd => ih _ (hlength ▸ hd) d rfl
    apply Settles.of_succ
    refine settles_mark (settles_peek ?_)
    cases hpeek : c.peek with
    | variableName name =>
      refine settles_ite (fun _ => settles_fail trivial) fun _ => ?_
      exact settles_skip (by simp [hpeek]) (settles_pure _)
    | name text => exact settles_skip (by simp [hpeek]) (settles_pure _)
    | float digits => exact settles_skip (by simp [hpeek]) (settles_pure _)
    | integer digits => exact settles_skip (by simp [hpeek]) (settles_pure _)
    | string text => exact settles_skip (by simp [hpeek]) (settles_pure _)
    | bracketOpen => exact settles_readListOf hnested
    | braceOpen => exact settles_readObjectOf hnested
    | _ => exact settles_fail trivial

theorem settles_read (constant : Bool) : Settles Always j 1 (fun _ => read constant) c :=
  (settles_readWithin constant c).bounded

end Value

theorem settles_readArgument : Settles Always 0 1 (fun _ => readArgument) c :=
  (Value.settles_readEntry .argument fun _ _ => Value.settles_read false).bind
    fun _ _ _ _ _ => settles_pure _

theorem settles_readArguments : Settles Always 0 0 (fun _ => readArguments) c :=
  settles_part (by decide) fun _ => settles_itemsUntil (by decide) fun _ _ => settles_readArgument

theorem settles_readDirective : Settles Always 0 1 (fun _ => readDirective) c := by
  refine settles_mark ((settles_take rfl fun _ => trivial).bind fun _ name _ _ _ => ?_)
  exact settles_readArguments.bind fun _ _ _ _ _ => settles_pure _

theorem settles_readDirectives : Settles Always 0 0 (fun _ => readDirectives) c :=
  settles_itemsWhile fun _ _ _ => settles_readDirective

namespace Selection

section
variable {set : Nat → NodeReader (List Selection)}

theorem settles_readFieldName : Settles Always 0 1 (fun _ => readFieldName) c := by
  refine (settles_takeName trivial).bind fun _ first d _ _ => ?_
  refine settles_optional (by decide) (fun _ => ?_) fun _ => settles_pure _
  exact ((settles_takeName trivial).bind fun _ name _ _ _ => settles_pure (some first, name)).weaken

theorem settles_readFieldWith
    (h : ∀ d, d.ahead.length < c.ahead.length → Settles Always 0 0 set d) :
    Settles Always 0 1 (fun n => readFieldWith (set n)) c := by
  refine settles_mark (settles_readFieldName.bind fun _ x d _ hd => ?_)
  obtain ⟨responseAlias, name⟩ := x
  refine settles_readArguments.bind fun _ as d' _ hd' => ?_
  refine settles_readDirectives.bind fun _ ds d'' _ hd'' => ?_
  exact (h d'' (by omega)).bind fun _ _ _ _ _ => settles_pure _

theorem settles_readSpreadFrom (loc : Option Location) :
    Settles Always 0 0 (fun _ => readSpreadFrom loc) c := by
  refine settles_peek (settles_ite (fun _ => settles_fail trivial) fun _ => settles_peek ?_)
  cases c.peek with
  | name text =>
    refine settles_readName.weaken.bind fun _ name _ _ _ => ?_
    exact settles_readDirectives.bind fun _ _ _ _ _ => settles_pure _
  | _ => exact settles_fail trivial

theorem settles_readInlineTail (loc : Option Location) (condition : Option Name)
    (h : ∀ d, d.ahead.length ≤ c.ahead.length → Settles Always 0 0 set d) :
    Settles Always 0 0 (fun n => readInlineTail (set n) loc condition) c := by
  refine settles_readDirectives.bind fun _ ds d _ hd => ?_
  refine (settles_requireBrace _).bind fun _ _ d' _ hd' => ?_
  exact (h d' (by omega)).bind fun _ _ _ _ _ => settles_pure _

theorem settles_readInlineFrom (loc : Option Location)
    (h : ∀ d, d.ahead.length ≤ c.ahead.length → Settles Always 0 0 set d) :
    Settles Always 0 0 (fun n => readInlineFrom (set n) loc) c := by
  simp only [readInlineFrom_eq]
  refine settles_optional (by decide) (fun _ => ?_) fun _ => settles_readInlineTail loc none h
  have hnext := c.length_next_le
  refine settles_readName.map.weaken.bind fun _ condition d _ hd => ?_
  exact settles_readInlineTail loc condition fun e he => h e (by omega)

theorem settles_readWith (h : ∀ d, d.ahead.length < c.ahead.length → Settles Always 0 0 set d) :
    Settles Always 0 1 (fun n => readWith (set n)) c := by
  refine settles_peek ?_
  cases hpeek : c.peek with
  | name text => exact (settles_readFieldWith h).map
  | ellipsis =>
    have hfinish : c.peek ≠ .finish := by simp [hpeek]
    have hnext := Cursor.length_next hfinish
    have hinline : ∀ loc,
        Settles Always 0 0 (fun n => inline <$> readInlineFrom (set n) loc) c.next :=
      fun loc => (settles_readInlineFrom loc fun d hd => h d (by omega)).map
    refine settles_mark (settles_skip hfinish (settles_peek ?_))
    cases c.next.peek with
    | directiveName name => exact hinline _
    | braceOpen => exact hinline _
    | name text =>
      exact settles_ite (fun _ => hinline _) fun _ => (settles_readSpreadFrom _).map
    | _ => exact settles_fail trivial
  | _ => exact settles_fail trivial

end

theorem settles_readSetWithin (c : Cursor) : Settles Always 0 0 readSetWithin c := by
  induction hlength : c.ahead.length using Nat.strongRecOn generalizing c with
  | ind N ih =>
    apply Settles.of_succ
    refine settles_part (by decide) fun hpeek => ?_
    have hnext := Cursor.length_next (c := c) (by simp [hpeek])
    refine (settles_itemsUntil₁ (by decide) fun d hd => ?_).weaken
    exact settles_readWith fun e he => ih _ (by omega) e rfl

theorem settles_readSet : Settles Always j 0 (fun _ => readSet) c :=
  (settles_readSetWithin c).bounded

theorem settles_readSet_brace (hpeek : c.peek = .braceOpen) :
    Settles Always j 1 (fun _ => readSet) c := by
  have hsucc : Settles Always 1 1 (fun n => readSetWithin (n + 1)) c := by
    refine settles_present (by decide) hpeek ?_
    refine (settles_itemsUntil₁ (by decide) fun d _ => ?_).weaken
    exact settles_readWith fun e _ => settles_readSetWithin e
  exact hsucc.of_succ.bounded

theorem settles_read : Settles Always 0 1 (fun _ => read) c :=
  settles_readWith fun _ _ => settles_readSet

end Selection

theorem settles_readField : Settles Always 0 1 (fun _ => readField) c :=
  Selection.settles_readFieldWith fun _ _ => Selection.settles_readSet

theorem settles_readFragmentSpread : Settles Always 0 1 (fun _ => readFragmentSpread) c :=
  settles_mark ((settles_expect (by decide) trivial).bind fun _ _ _ _ _ =>
    Selection.settles_readSpreadFrom _)

theorem settles_readInlineFragment : Settles Always 0 1 (fun _ => readInlineFragment) c :=
  settles_mark ((settles_expect (by decide) trivial).bind fun _ _ _ _ _ =>
    Selection.settles_readInlineFrom _ fun _ _ => Selection.settles_readSet)

namespace TypeExpr

theorem settles_readRequired (t : TypeExpr) : Settles Always j 0 (fun _ => readRequired t) c :=
  settles_optional (by decide) (fun _ => settles_pure _) fun _ => settles_pure _

theorem settles_readWithin (c : Cursor) : Settles Always 0 1 readWithin c := by
  induction hlength : c.ahead.length using Nat.strongRecOn generalizing c with
  | ind N ih =>
    apply Settles.of_succ
    simp only [readWithin_succ]
    refine settles_mark (settles_peek ?_)
    cases hpeek : c.peek with
    | bracketOpen =>
      have hfinish : c.peek ≠ .finish := by simp [hpeek]
      have hnext := Cursor.length_next hfinish
      have hitem : Settles Always 0 0 readWithin c.next :=
        (ih _ (by omega) c.next rfl).weaken
      refine settles_skip hfinish (hitem.bind fun _ t d _ _ => ?_)
      exact ((settles_expect (by decide) trivial).bind fun _ _ _ _ _ =>
        settles_readRequired _).weaken
    | name text => exact settles_skip (by simp [hpeek]) (settles_readRequired _)
    | _ => exact settles_fail trivial

theorem settles_read : Settles Always j 1 (fun _ => read) c := (settles_readWithin c).bounded

end TypeExpr

theorem settles_readVariableTail (v : Variable) (type : TypeExpr) (loc : Option Location)
    (default : Option Value) :
    Settles Always 0 0 (fun _ => readVariableTail v type loc default) c :=
  settles_readDirectives.bind fun _ _ _ _ _ => settles_pure _

theorem settles_readVariableDefinition :
    Settles Always 0 1 (fun _ => readVariableDefinition) c := by
  rw [readVariableDefinition_eq]
  refine settles_mark (settles_readVariable.bind fun _ v _ _ _ => ?_)
  refine (settles_expect (by decide) trivial).weaken.bind fun _ _ _ _ _ => ?_
  refine TypeExpr.settles_read.weaken.bind fun _ type _ _ _ => ?_
  refine settles_optional (by decide) (fun _ => ?_) fun _ => settles_readVariableTail _ _ _ _
  exact ((Value.settles_read true).map.bind fun _ _ _ _ _ =>
    settles_readVariableTail _ _ _ _).weaken

theorem settles_readVariableDefinitions : Settles Always 0 0 (fun _ => readVariableDefinitions) c :=
  settles_part (by decide) fun _ => (settles_itemsUntil₁ (by decide)
    fun _ _ => settles_readVariableDefinition).weaken

theorem settles_readFragment : Settles Always 0 1 (fun _ => readFragment) c := by
  refine settles_mark ((settles_expect (by decide) trivial).bind fun _ _ _ _ _ => ?_)
  refine settles_readName.weaken.bind fun _ name _ _ _ => ?_
  refine (settles_expect (by decide) trivial).weaken.bind fun _ _ _ _ _ => ?_
  refine settles_readName.weaken.bind fun _ condition _ _ _ => ?_
  refine settles_readDirectives.bind fun _ ds _ _ _ => ?_
  refine (settles_requireBrace _).bind fun _ _ _ _ _ => ?_
  exact Selection.settles_readSet.bind fun _ _ _ _ _ => settles_pure _

theorem settles_readOperationKind : Settles Always j 1 (fun _ => readOperationKind) c :=
  settles_take rfl fun _ => trivial

theorem settles_readOperationName : Settles Always 0 0 (fun _ => readOperationName) c := by
  refine settles_peek ?_
  cases c.peek with
  | name text => exact settles_readName.map.weaken
  | _ => exact settles_pure _

theorem settles_readOperationTail (kind : OperationKind) (loc : Option Location)
    (name : Option Name) : Settles Always 0 0 (fun _ => readOperationTail kind loc name) c := by
  refine settles_readVariableDefinitions.bind fun _ definitions _ _ _ => ?_
  refine settles_readDirectives.bind fun _ ds _ _ _ => ?_
  refine (settles_requireBrace _).bind fun _ _ _ _ _ => ?_
  exact Selection.settles_readSet.bind fun _ _ _ _ _ => settles_pure _

theorem settles_readOperation : Settles Always 0 1 (fun _ => readOperation) c := by
  rw [readOperation_eq]
  refine settles_mark (settles_peek (settles_ite (fun hpeek => ?_) fun _ => ?_))
  · exact (Selection.settles_readSet_brace hpeek).bind fun _ _ _ _ _ => settles_pure _
  · refine (settles_take rfl fun _ => trivial).bind fun _ kind _ _ _ => ?_
    exact settles_readOperationName.bind fun _ name _ _ _ => settles_readOperationTail kind _ name

theorem settles_readDefinition : Settles Always 0 1 (fun _ => readDefinition) c := by
  refine settles_peek ?_
  cases c.peek with
  | braceOpen => exact settles_readOperation.map
  | name text =>
    refine settles_ite (fun _ => settles_readFragment.map) fun _ => ?_
    exact settles_ite (fun _ => settles_readOperation.map) fun _ => settles_fail trivial
  | _ => exact settles_fail trivial

theorem settles_readDefinitions : Settles Always 0 0 (fun _ => readDefinitions) c :=
  settles_itemsWhile fun _ _ _ => settles_readDefinition

end

end GraphQLCheck
