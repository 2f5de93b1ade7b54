import GraphQLCheck.Proofs.Document.Untracked
import GraphQLCheck.Proofs.Schema.Lookahead

/-!
Reading comes to an end. A loop goes through at most one item more than it takes tokens, since each
item takes one or ends the loop by a failure; a reader calls itself at most one time more than it
takes tokens. `Loop` and `Recursion` list the loops and the readers that call themselves, those of
documents first. So the readers of all nodes and of declarations end, and take a part of the tokens
of their source (`reading_terminates`).
-/
namespace GraphQLCheck
open Reader

/-- From the cursor the reader takes the given tokens, with any bound above their number, and has
the given result. -/
def Reader.Ends {ε α : Type} (r : Nat → Reader ε α) (c : Cursor) (taken : List Lexeme)
    (x : Except ε α) : Prop :=
  ∃ rest, c.ahead = taken ++ rest ∧ ∀ n, taken.length < n → r n c = .ending (c.before rest) x

theorem Reader.Settles.ends {ε α : Type} {p : ε → Prop} {k : Nat} {r : Nat → Reader ε α}
    {c : Cursor} (h : Settles p 0 k r c) :
    ∃ taken x, Ends r c taken x ∧ ∀ a, x = .ok a → k ≤ taken.length := by
  obtain ⟨x, taken, rest, hahead, hattains, hread⟩ := h
  refine ⟨taken, x, ⟨rest, hahead, fun n hn => ?_⟩, ?_⟩
  · have hend := hread n rest hn rfl
    rwa [← hahead, c.before_ahead] at hend
  · rintro a rfl
    exact hattains

/-- The loops of the readers: for which tokens they go on, and what an item is read with. The bound
is one on how deep the item is nested. -/
inductive Loop : {ε α : Type} → (Token → Bool) → (Nat → Reader ε α) → Prop
  | values (constant : Bool) : Loop (· ≠ .bracketClose) (Value.readWithin constant)
  | objectFields (constant : Bool) :
    Loop (· ≠ .braceClose) fun n => Value.readObjectField (Value.readWithin constant n)
  | arguments : Loop (· ≠ .parenClose) fun _ => readArgument
  | directives : Loop (fun | .directiveName _ => true | _ => false) fun _ => readDirective
  | selections : Loop (· ≠ .braceClose) fun n => Selection.readWith (Selection.readSetWithin n)
  | variableDefinitions : Loop (· ≠ .parenClose) fun _ => readVariableDefinition
  | definitions : Loop (· ≠ .finish) fun _ => readDefinition
  | argumentDefs : Loop (fun t => t ≠ .parenClose ∧ t ≠ .finish) fun _ => readInputDef
  | inputFieldDefs : Loop (fun t => t ≠ .braceClose ∧ t ≠ .finish) fun _ => readInputDef
  | fieldDefs : Loop (fun t => t ≠ .braceClose ∧ t ≠ .finish) fun _ => readFieldDef
  | enumValues (enum : String) : Loop (· ≠ .braceClose) fun _ => readEnumValue enum
  | interfaces : Loop (· = .ampersand) fun _ => (do skip; declaredName "interface")
  | members : Loop (· = .pipe) fun _ => (do skip; declaredName "member type")
  | locations (directive : String) :
    Loop (· = .pipe) fun _ => (do skip; readDirectiveLocation directive)

inductive Recursion : {ε α : Type} → (Nat → Reader ε α) → Prop
  | value (constant : Bool) : Recursion (Value.readWithin constant)
  | selectionSet : Recursion Selection.readSetWithin
  | type : Recursion TypeExpr.readWithin
  | roots (sofar : RootNames) : Recursion (readRootsWithin sofar)
  | declarations (sofar : Declarations) : Recursion (readDeclarationsWithin sofar)

theorem Loop.settles {ε α : Type} {go : Token → Bool} {item : Nat → Reader ε α}
    (h : Loop go item) {c : Cursor} (hgo : go c.peek = true) : Settles Always 0 1 item c := by
  cases h with
  | values constant => exact Value.settles_readWithin constant c
  | objectFields constant =>
    exact Value.settles_readObjectField fun d _ => Value.settles_readWithin constant d
  | arguments => exact settles_readArgument
  | directives => exact settles_readDirective
  | selections => exact Selection.settles_readWith fun d _ => Selection.settles_readSetWithin d
  | variableDefinitions => exact settles_readVariableDefinition
  | definitions => exact settles_readDefinition
  | argumentDefs => exact settles_readInputDef.anyReason
  | inputFieldDefs => exact settles_readInputDef.anyReason
  | fieldDefs => exact settles_readFieldDef.anyReason
  | enumValues enum => exact (settles_readEnumValue enum).anyReason
  | interfaces =>
    have hpeek : c.peek = .ampersand := by simpa using hgo
    exact (settles_separatedItem (by simp [hpeek]) fun _ => settles_declaredName _).anyReason
  | members =>
    have hpeek : c.peek = .pipe := by simpa using hgo
    exact (settles_separatedItem (by simp [hpeek]) fun _ => settles_declaredName _).anyReason
  | locations directive =>
    have hpeek : c.peek = .pipe := by simpa using hgo
    exact (settles_separatedItem (by simp [hpeek])
      fun _ => settles_readDirectiveLocation _).anyReason

theorem Loop.ends {ε α : Type} {go : Token → Bool} {item : Nat → Reader ε α} (h : Loop go item)
    (c : Cursor) : ∃ taken x, Ends (fun n => itemsWithin go (item n) n) c taken x := by
  obtain ⟨x, taken, rest, hahead, -, hread⟩ :=
    settles_items (c := c) fun d _ hgo => h.settles (c := d) hgo
  refine ⟨taken, x, rest, hahead, fun n hn => ?_⟩
  have hend := hread n n rest hn hn rfl
  rwa [← hahead, c.before_ahead] at hend

theorem Recursion.settles {ε α : Type} {r : Nat → Reader ε α} (h : Recursion r) (c : Cursor) :
    Settles Always 0 0 r c := by
  cases h with
  | value constant => exact (Value.settles_readWithin constant c).weaken
  | selectionSet => exact Selection.settles_readSetWithin c
  | type => exact (TypeExpr.settles_readWithin c).weaken
  | roots sofar => exact (settles_readRootsWithin sofar c).anyReason
  | declarations sofar => exact (settles_readDeclarationsWithin sofar c).anyReason

namespace NodeSort

def Read : NodeSort → Type
  | document => List Definition
  | k => k.Node

def reader : (k : NodeSort) → NodeReader k.Read
  | name => readName
  | .variable => readVariable
  | boolean => Value.readBoolean
  | enum => Value.readEnum
  | float => Value.readFloat
  | int => Value.readInt
  | string => Value.readString
  | list => Value.readListOf (Value.read false)
  | object => Value.readObjectOf (Value.read false)
  | value => Value.read false
  | objectField => Value.readObjectField (Value.read false)
  | argument => readArgument
  | arguments => readArguments
  | directive => readDirective
  | directives => readDirectives
  | field => readField
  | fragmentSpread => readFragmentSpread
  | inlineFragment => readInlineFragment
  | selection => Selection.read
  | selectionSet => Selection.readSet
  | type => TypeExpr.read
  | variableDefinition => readVariableDefinition
  | variableDefinitions => readVariableDefinitions
  | fragment => readFragment
  | operationKind => readOperationKind
  | operation => readOperation
  | document => readDefinitions

theorem settles_reader (k : NodeSort) (c : Cursor) : Settles Always 0 0 (fun _ => k.reader) c := by
  cases k with
  | name => exact settles_readName.weaken
  | «variable» => exact settles_readVariable.weaken
  | boolean => exact Value.settles_readBoolean.weaken
  | enum => exact Value.settles_readEnum.weaken
  | float => exact Value.settles_readFloat.weaken
  | int => exact Value.settles_readInt.weaken
  | string => exact Value.settles_readString.weaken
  | list => exact (Value.settles_readListOf fun _ _ => Value.settles_read false).unbounded.weaken
  | object =>
    exact (Value.settles_readObjectOf fun _ _ => Value.settles_read false).unbounded.weaken
  | value => exact (Value.settles_read false).weaken
  | objectField =>
    exact (Value.settles_readObjectField fun _ _ => Value.settles_read false).weaken
  | argument => exact settles_readArgument.weaken
  | arguments => exact settles_readArguments
  | directive => exact settles_readDirective.weaken
  | directives => exact settles_readDirectives
  | field => exact settles_readField.weaken
  | fragmentSpread => exact settles_readFragmentSpread.weaken
  | inlineFragment => exact settles_readInlineFragment.weaken
  | selection => exact Selection.settles_read.weaken
  | selectionSet => exact Selection.settles_readSet
  | type => exact TypeExpr.settles_read.weaken
  | variableDefinition => exact settles_readVariableDefinition.weaken
  | variableDefinitions => exact settles_readVariableDefinitions
  | fragment => exact settles_readFragment.weaken
  | operationKind => exact settles_readOperationKind.weaken
  | operation => exact settles_readOperation.weaken
  | document => exact settles_readDefinitions

theorem isOk_read (k : NodeSort) (tracked : Bool) (source : String) :
    (k.read tracked source).isOk = (readNode k.reader tracked source).isOk := by
  cases k with
  | document =>
    change (Document.read tracked source).isOk = (readNode readDefinitions tracked source).isOk
    rw [Document.read]
    cases readNode readDefinitions tracked source <;> rfl
  | _ => rfl

end NodeSort

theorem isOk_run {ε α : Type} {r : Reader ε α} {toError : List Char → ε → Lexeme → Error}
    {tracked : Bool} {source : String} {d : Cursor} {x : Except ε α}
    (h : r (.ofSource tracked source.toList) = .ending d x) :
    (r.run toError tracked source).isOk = x.isOk := by
  simp only [run, h]
  cases x <;> rfl

/-- What is read from a source ends, having taken a part of its tokens, which do not include the
end of the source. -/
theorem ends_run {ε α : Type} {p : ε → Prop} {r : Reader ε α}
    (h : ∀ c, Settles p 0 0 (fun _ => r) c) (toError : List Char → ε → Lexeme → Error)
    (tracked : Bool) (source : String) :
    ∃ taken x, Ends (fun _ => r) (.ofSource tracked source.toList) taken x ∧
      (∀ l ∈ taken, l.token ≠ .finish) ∧ taken.length ≤ (Lexeme.scan source.toList).length ∧
      (r.run toError tracked source).isOk = x.isOk := by
  obtain ⟨taken, x, hends, -⟩ := (h (.ofSource tracked source.toList)).ends
  obtain ⟨rest, hahead, hread⟩ := id hends
  change Lexeme.scan source.toList = taken ++ rest at hahead
  refine ⟨taken, x, hends, fun l hl => ?_, ?_, isOk_run (hread _ (Nat.lt_succ_self _))⟩
  · exact Lexeme.ne_finish_of_mem_scan (hahead ▸ List.mem_append_left rest hl)
  · rw [hahead, List.length_append]
    exact Nat.le_add_right _ _

/-- Reading terminates. An item of a loop takes a token or fails, so that the loop ends with every
bound on its items and on how deep they are nested that exceeds the number of tokens which it takes;
with such a bound a reader that calls itself ends too. No node and no declarations are read without
an end, and at most all tokens of the source are taken, where a reader that fails has looked at the
one behind them. -/
theorem reading_terminates :
    (∀ {ε α : Type} {go : Token → Bool} {item : Nat → Reader ε α}, Loop go item → ∀ c : Cursor,
      (go c.peek = true → ∃ taken x, Ends item c taken x ∧ ∀ a, x = .ok a → 1 ≤ taken.length) ∧
        ∃ taken x, Ends (fun n => itemsWithin go (item n) n) c taken x) ∧
    (∀ {ε α : Type} {r : Nat → Reader ε α}, Recursion r → ∀ c : Cursor,
      ∃ taken x, Ends r c taken x) ∧
    (∀ (k : NodeSort) (tracked : Bool) (source : String),
      ∃ taken x, Ends (fun _ => k.reader) (.ofSource tracked source.toList) taken x ∧
        (∀ l ∈ taken, l.token ≠ .finish) ∧ taken.length ≤ (Lexeme.scan source.toList).length ∧
        (k.read tracked source).isOk = x.isOk) ∧
    ∀ source : String,
      ∃ taken x, Ends (fun _ => readDeclarations) (.ofSource false source.toList) taken x ∧
        (∀ l ∈ taken, l.token ≠ .finish) ∧ taken.length ≤ (Lexeme.scan source.toList).length ∧
        (readDeclarations.run SchemaFault.error false source).isOk = x.isOk := by
  refine ⟨fun h c => ⟨fun hgo => (h.settles hgo).ends, h.ends c⟩, fun h c => ?_,
    fun k tracked source => ?_, fun source => ?_⟩
  · obtain ⟨taken, x, hends, -⟩ := (h.settles c).ends
    exact ⟨taken, x, hends⟩
  · rw [k.isOk_read]
    exact ends_run k.settles_reader _ tracked source
  · exact ends_run (fun _ => settles_readDeclarations) _ false source

end GraphQLCheck
