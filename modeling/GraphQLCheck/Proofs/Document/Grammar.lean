import GraphQLCheck.Document.Basic
import GraphQLCheck.Proofs.Token.Reading

/-!
The grammar of documents. There is a type of derivation trees for each nonterminal with one
constructor for each of its rules; the leaves are the tokens and where they stand. `lexemes` is
the sequence of tokens that a tree derives, in their order, and the other functions give the node
that a tree stands for. A node is at its first token.

  Document   := Definition*
  Definition := Set | (query | mutation | subscription) Name? Variables? Directive* Set
              | fragment Name on Name Directive* Set
  Set        := { Selection+ }
  Selection  := Name [: Name] Arguments? Directive* Set?
              | ... Name(other than on) Directive*
              | ... [on Name] Directive* Set
  Arguments  := ( Entry* )
  Entry      := Name : Value
  Directive  := @name Arguments?
  Variables  := ( Variable+ )
  Variable   := $name : Type [= Value(without variables)] Directive*
  Type       := (Name | [ Type ]) !?
  Value      := $name | Int | Float | String | Name | [ Value* ] | { Entry* }
-/
namespace GraphQLCheck

structure NameTree where
  text : String
  place : Place

namespace NameTree

def lexeme (n : NameTree) : Lexeme := n.place.lexeme (.name n.text)

@[simp]
theorem token_lexeme (n : NameTree) : n.lexeme.token = .name n.text := rfl

def name (tracked : Bool) (n : NameTree) : Name := ⟨n.text, n.place.mark tracked⟩

end NameTree

mutual

inductive ValueTree
  | var (place : Place) (name : String)
  | int (place : Place) (digits : String)
  | float (place : Place) (digits : String)
  | string (place : Place) (text : String)
  | name (n : NameTree)
  | list (opening : Place) (values : List ValueTree) (closing : Place)
  | object (opening : Place) (entries : List EntryTree) (closing : Place)

structure EntryTree where
  name : NameTree
  colon : Place
  value : ValueTree

end

mutual

def ValueTree.lexemes : ValueTree → List Lexeme
  | .var p n => [p.lexeme (.variableName n)]
  | .int p d => [p.lexeme (.integer d)]
  | .float p d => [p.lexeme (.float d)]
  | .string p s => [p.lexeme (.string s)]
  | .name n => [n.lexeme]
  | .list o vs c => o.lexeme .bracketOpen :: (ValueTree.lexemesAll vs ++ [c.lexeme .bracketClose])
  | .object o es c => o.lexeme .braceOpen :: (EntryTree.lexemesAll es ++ [c.lexeme .braceClose])

def ValueTree.lexemesAll : List ValueTree → List Lexeme
  | [] => []
  | v :: vs => v.lexemes ++ ValueTree.lexemesAll vs

def EntryTree.lexemesAll : List EntryTree → List Lexeme
  | [] => []
  | e :: es => e.lexemes ++ EntryTree.lexemesAll es

def EntryTree.lexemes : EntryTree → List Lexeme
  | ⟨n, c, v⟩ => n.lexeme :: c.lexeme .colon :: v.lexemes

end

mutual

def ValueTree.isConstant : ValueTree → Bool
  | .var _ _ => false
  | .list _ vs _ => ValueTree.allConstant vs
  | .object _ es _ => EntryTree.allConstant es
  | .int _ _ | .float _ _ | .string _ _ | .name _ => true

def ValueTree.allConstant : List ValueTree → Bool
  | [] => true
  | v :: vs => v.isConstant && ValueTree.allConstant vs

def EntryTree.allConstant : List EntryTree → Bool
  | [] => true
  | e :: es => e.isConstant && EntryTree.allConstant es

def EntryTree.isConstant : EntryTree → Bool
  | ⟨_, _, v⟩ => v.isConstant

end

mutual

def ValueTree.value (tracked : Bool) : ValueTree → Value
  | .var p n => .variable ⟨n, p.mark tracked⟩
  | .int p d => .int d (p.mark tracked)
  | .float p d => .float d (p.mark tracked)
  | .string p s => .string s (p.mark tracked)
  | .name n => .ofName n.text (n.place.mark tracked)
  | .list o vs _ => .list (ValueTree.values tracked vs) (o.mark tracked)
  | .object o es _ => .object (EntryTree.fields tracked es) (o.mark tracked)

def ValueTree.values (tracked : Bool) : List ValueTree → List Value
  | [] => []
  | v :: vs => v.value tracked :: ValueTree.values tracked vs

def EntryTree.fields (tracked : Bool) : List EntryTree → List ObjectField
  | [] => []
  | e :: es => e.field tracked :: EntryTree.fields tracked es

def EntryTree.field (tracked : Bool) : EntryTree → ObjectField
  | ⟨n, _, v⟩ => ⟨n.text, v.value tracked, n.place.mark tracked⟩

end

theorem EntryTree.isConstant_eq (e : EntryTree) : e.isConstant = e.value.isConstant := by
  cases e
  rfl

theorem EntryTree.field_eq (tracked : Bool) (e : EntryTree) :
    e.field tracked = ⟨e.name.text, e.value.value tracked, e.name.place.mark tracked⟩ := by
  cases e
  rfl

theorem ValueTree.lexemesAll_eq (vs : List ValueTree) :
    lexemesAll vs = vs.flatMap lexemes := by
  induction vs with
  | nil => rfl
  | cons v vs ih => simp only [lexemesAll, ih, List.flatMap_cons]

theorem EntryTree.lexemesAll_eq (es : List EntryTree) :
    lexemesAll es = es.flatMap lexemes := by
  induction es with
  | nil => rfl
  | cons e es ih => simp only [lexemesAll, ih, List.flatMap_cons]

theorem ValueTree.allConstant_eq (vs : List ValueTree) : allConstant vs = vs.all isConstant := by
  induction vs with
  | nil => rfl
  | cons v vs ih => simp only [allConstant, ih, List.all_cons]

theorem EntryTree.allConstant_eq (es : List EntryTree) : allConstant es = es.all isConstant := by
  induction es with
  | nil => rfl
  | cons e es ih => simp only [allConstant, ih, List.all_cons]

theorem ValueTree.values_eq (tracked : Bool) (vs : List ValueTree) :
    values tracked vs = vs.map (value tracked) := by
  induction vs with
  | nil => rfl
  | cons v vs ih => simp only [values, ih, List.map_cons]

theorem EntryTree.fields_eq (tracked : Bool) (es : List EntryTree) :
    fields tracked es = es.map (field tracked) := by
  induction es with
  | nil => rfl
  | cons e es ih => simp only [fields, ih, List.map_cons]

def EntryTree.argument (tracked : Bool) (e : EntryTree) : Argument :=
  ⟨e.name.text, e.value.value tracked, e.name.place.mark tracked⟩

structure ArgumentsTree where
  opening : Place
  entries : List EntryTree
  closing : Place

def optionalLexemes {τ : Type} (lexemes : τ → List Lexeme) (part : Option τ) : List Lexeme :=
  (part.map lexemes).getD []

namespace ArgumentsTree

def lexemes (a : ArgumentsTree) : List Lexeme :=
  a.opening.lexeme .parenOpen ::
    (a.entries.flatMap EntryTree.lexemes ++ [a.closing.lexeme .parenClose])

/-- Arguments that are missing and arguments of which there are none give the same node. -/
def arguments (tracked : Bool) (a : Option ArgumentsTree) : List Argument :=
  (a.map (·.entries.map (EntryTree.argument tracked))).getD []

end ArgumentsTree

structure DirectiveTree where
  place : Place
  name : String
  arguments : Option ArgumentsTree

namespace DirectiveTree

def lexemes (d : DirectiveTree) : List Lexeme :=
  d.place.lexeme (.directiveName d.name) :: optionalLexemes ArgumentsTree.lexemes d.arguments

def directive (tracked : Bool) (d : DirectiveTree) : Directive :=
  ⟨d.name, ArgumentsTree.arguments tracked d.arguments, d.place.mark tracked⟩

end DirectiveTree

structure AliasTree where
  name : NameTree
  colon : Place

def AliasTree.lexemes (a : AliasTree) : List Lexeme := [a.name.lexeme, a.colon.lexeme .colon]

structure ConditionTree where
  keyword : Place
  type : NameTree

def ConditionTree.lexemes (c : ConditionTree) : List Lexeme :=
  [c.keyword.lexeme (.name "on"), c.type.lexeme]

mutual

inductive SelectionTree
  | field (responseAlias : Option AliasTree) (name : NameTree) (arguments : Option ArgumentsTree)
    (directives : List DirectiveTree) (selections : Option SetTree)
  | spread (ellipsis : Place) (name : NameTree) (name_ne : name.text ≠ "on")
    (directives : List DirectiveTree)
  | inline (ellipsis : Place) (condition : Option ConditionTree)
    (directives : List DirectiveTree) (selections : SetTree)

structure SetTree where
  opening : Place
  first : SelectionTree
  others : List SelectionTree
  closing : Place

end

mutual

def SelectionTree.lexemes : SelectionTree → List Lexeme
  | .field a n as ds s =>
    optionalLexemes AliasTree.lexemes a ++ n.lexeme ::
      (optionalLexemes ArgumentsTree.lexemes as ++ ds.flatMap DirectiveTree.lexemes
        ++ SetTree.lexemes? s)
  | .spread e n _ ds => e.lexeme .ellipsis :: n.lexeme :: ds.flatMap DirectiveTree.lexemes
  | .inline e c ds s =>
    e.lexeme .ellipsis ::
      (optionalLexemes ConditionTree.lexemes c ++ ds.flatMap DirectiveTree.lexemes ++ s.lexemes)

def SelectionTree.lexemesAll : List SelectionTree → List Lexeme
  | [] => []
  | x :: xs => x.lexemes ++ SelectionTree.lexemesAll xs

def SetTree.lexemes : SetTree → List Lexeme
  | ⟨o, x, xs, c⟩ =>
    o.lexeme .braceOpen ::
      (x.lexemes ++ SelectionTree.lexemesAll xs ++ [c.lexeme .braceClose])

def SetTree.lexemes? : Option SetTree → List Lexeme
  | none => []
  | some s => s.lexemes

end

mutual

def SelectionTree.selection (tracked : Bool) : SelectionTree → Selection
  | .field a n as ds s =>
    .field ⟨a.map (·.name.text), n.text, ArgumentsTree.arguments tracked as,
      ds.map (DirectiveTree.directive tracked), SetTree.selections? tracked s,
      ((a.map (·.name.place)).getD n.place).mark tracked⟩
  | .spread e n _ ds =>
    .spread ⟨n.name tracked, ds.map (DirectiveTree.directive tracked), e.mark tracked⟩
  | .inline e c ds s =>
    .inline ⟨c.map (·.type.name tracked), ds.map (DirectiveTree.directive tracked),
      s.selections tracked, e.mark tracked⟩

def SelectionTree.selectionAll (tracked : Bool) : List SelectionTree → List Selection
  | [] => []
  | x :: xs => x.selection tracked :: SelectionTree.selectionAll tracked xs

def SetTree.selections (tracked : Bool) : SetTree → List Selection
  | ⟨_, x, xs, _⟩ => x.selection tracked :: SelectionTree.selectionAll tracked xs

def SetTree.selections? (tracked : Bool) : Option SetTree → List Selection
  | none => []
  | some s => s.selections tracked

end

theorem SelectionTree.lexemesAll_eq (xs : List SelectionTree) :
    lexemesAll xs = xs.flatMap lexemes := by
  induction xs with
  | nil => rfl
  | cons x xs ih => simp only [lexemesAll, ih, List.flatMap_cons]

theorem SelectionTree.selectionAll_eq (tracked : Bool) (xs : List SelectionTree) :
    selectionAll tracked xs = xs.map (selection tracked) := by
  induction xs with
  | nil => rfl
  | cons x xs ih => simp only [selectionAll, ih, List.map_cons]

theorem SetTree.lexemes?_eq (s : Option SetTree) : lexemes? s = optionalLexemes lexemes s := by
  cases s <;> rfl

inductive TypeTree
  | named (name : NameTree) (exclam : Option Place)
  | list (opening : Place) (item : TypeTree) (closing : Place) (exclam : Option Place)

namespace TypeTree

def lexemes : TypeTree → List Lexeme
  | .named n x => n.lexeme :: optionalLexemes (fun p : Place => [p.lexeme .exclam]) x
  | .list o t c x =>
    o.lexeme .bracketOpen :: (t.lexemes ++ c.lexeme .bracketClose ::
      optionalLexemes (fun p : Place => [p.lexeme .exclam]) x)

def required (exclam : Option Place) (t : TypeExpr) : TypeExpr :=
  if exclam.isSome then .nonNull t else t

def type (tracked : Bool) : TypeTree → TypeExpr
  | .named n x => required x (.named (n.name tracked))
  | .list _ t _ x => required x (.list (t.type tracked))

end TypeTree

structure DefaultTree where
  equal : Place
  value : ValueTree
  isConstant : value.isConstant = true

def DefaultTree.lexemes (d : DefaultTree) : List Lexeme :=
  d.equal.lexeme .equal :: d.value.lexemes

structure VariableTree where
  place : Place
  name : String
  colon : Place
  type : TypeTree
  default : Option DefaultTree
  directives : List DirectiveTree

namespace VariableTree

def lexemes (v : VariableTree) : List Lexeme :=
  v.place.lexeme (.variableName v.name) :: v.colon.lexeme .colon ::
    (v.type.lexemes ++ optionalLexemes DefaultTree.lexemes v.default
      ++ v.directives.flatMap DirectiveTree.lexemes)

def definition (tracked : Bool) (v : VariableTree) : VariableDefinition :=
  ⟨⟨v.name, v.place.mark tracked⟩, v.type.type tracked, v.default.map (·.value.value tracked),
    v.directives.map (DirectiveTree.directive tracked), v.place.mark tracked⟩

end VariableTree

structure VariablesTree where
  opening : Place
  first : VariableTree
  others : List VariableTree
  closing : Place

namespace VariablesTree

def lexemes (v : VariablesTree) : List Lexeme :=
  v.opening.lexeme .parenOpen ::
    (v.first.lexemes ++ v.others.flatMap VariableTree.lexemes ++ [v.closing.lexeme .parenClose])

def definitions (tracked : Bool) (v : Option VariablesTree) : List VariableDefinition :=
  (v.map fun v => (v.first :: v.others).map (VariableTree.definition tracked)).getD []

end VariablesTree

inductive DefinitionTree
  | query (selections : SetTree)
  | operation (keyword : Place) (kind : OperationKind) (name : Option NameTree)
    (parameters : Option VariablesTree) (directives : List DirectiveTree) (selections : SetTree)
  | fragment (keyword : Place) (name : NameTree) (condition : ConditionTree)
    (directives : List DirectiveTree) (selections : SetTree)

namespace DefinitionTree

def lexemes : DefinitionTree → List Lexeme
  | .query s => s.lexemes
  | .operation p k n vs ds s =>
    p.lexeme (.name k.name) ::
      (optionalLexemes (fun n : NameTree => [n.lexeme]) n
        ++ optionalLexemes VariablesTree.lexemes vs
        ++ ds.flatMap DirectiveTree.lexemes ++ s.lexemes)
  | .fragment p n c ds s =>
    p.lexeme (.name "fragment") :: n.lexeme ::
      (c.lexemes ++ ds.flatMap DirectiveTree.lexemes ++ s.lexemes)

def definition (tracked : Bool) : DefinitionTree → Definition
  | .query s => .operation ⟨.query, none, [], [], s.selections tracked, s.opening.mark tracked⟩
  | .operation p k n vs ds s =>
    .operation ⟨k, n.map (NameTree.name tracked), VariablesTree.definitions tracked vs,
      ds.map (DirectiveTree.directive tracked), s.selections tracked, p.mark tracked⟩
  | .fragment p n c ds s =>
    .fragment ⟨n.name tracked, c.type.name tracked, ds.map (DirectiveTree.directive tracked),
      s.selections tracked, p.mark tracked⟩

end DefinitionTree

abbrev DocumentTree : Type := List DefinitionTree

namespace DocumentTree

def lexemes (d : DocumentTree) : List Lexeme := d.flatMap DefinitionTree.lexemes

def definitions (tracked : Bool) (d : DocumentTree) : List Definition :=
  d.map (DefinitionTree.definition tracked)

end DocumentTree

/-- Whether there is no lexical error among the tokens. -/
def Valid (ls : List Lexeme) : Prop := ∀ l ∈ ls, l.token ≠ .invalid

section
variable {τ : Type} {lexemes : τ → List Lexeme}

@[simp]
theorem valid_nil : Valid [] := by simp [Valid]

@[simp]
theorem valid_cons (l : Lexeme) (ls : List Lexeme) :
    Valid (l :: ls) ↔ l.token ≠ .invalid ∧ Valid ls := List.forall_mem_cons

@[simp]
theorem valid_append (ls rs : List Lexeme) : Valid (ls ++ rs) ↔ Valid ls ∧ Valid rs :=
  List.forall_mem_append

theorem valid_flatMap (h : ∀ t, Valid (lexemes t)) (ts : List τ) :
    Valid (ts.flatMap lexemes) := by
  intro l hl
  obtain ⟨t, -, ht⟩ := List.mem_flatMap.1 hl
  exact h t l ht

theorem valid_optional (h : ∀ t, Valid (lexemes t)) (t : Option τ) :
    Valid (optionalLexemes lexemes t) := by
  cases t with
  | none => exact valid_nil
  | some t => exact h t

end

mutual

theorem ValueTree.valid : ∀ v : ValueTree, Valid v.lexemes
  | .list _ vs _ => by simp [ValueTree.lexemes, ValueTree.valid_all vs]
  | .object _ es _ => by simp [ValueTree.lexemes, EntryTree.valid_all es]
  | .var _ _ | .int _ _ | .float _ _ | .string _ _ | .name _ => by simp [ValueTree.lexemes]

theorem ValueTree.valid_all : ∀ vs : List ValueTree, Valid (ValueTree.lexemesAll vs)
  | [] => valid_nil
  | v :: vs => (valid_append _ _).2 ⟨v.valid, ValueTree.valid_all vs⟩

theorem EntryTree.valid_all : ∀ es : List EntryTree, Valid (EntryTree.lexemesAll es)
  | [] => valid_nil
  | e :: es => (valid_append _ _).2 ⟨e.valid, EntryTree.valid_all es⟩

theorem EntryTree.valid : ∀ e : EntryTree, Valid e.lexemes
  | ⟨_, _, v⟩ => by simp [EntryTree.lexemes, v.valid]

end

theorem ArgumentsTree.valid (a : ArgumentsTree) : Valid a.lexemes := by
  simp [lexemes, valid_flatMap EntryTree.valid]

theorem DirectiveTree.valid (d : DirectiveTree) : Valid d.lexemes := by
  simp [lexemes, valid_optional ArgumentsTree.valid]

theorem AliasTree.valid (a : AliasTree) : Valid a.lexemes := by
  simp [lexemes]

theorem ConditionTree.valid (c : ConditionTree) : Valid c.lexemes := by
  simp [lexemes]

mutual

theorem SelectionTree.valid : ∀ x : SelectionTree, Valid x.lexemes
  | .field _ _ _ _ s => by
    simp [SelectionTree.lexemes, valid_optional AliasTree.valid, valid_optional ArgumentsTree.valid,
      valid_flatMap DirectiveTree.valid, SetTree.valid? s]
  | .spread _ _ _ _ => by simp [SelectionTree.lexemes, valid_flatMap DirectiveTree.valid]
  | .inline _ _ _ s => by
    simp [SelectionTree.lexemes, valid_optional ConditionTree.valid,
      valid_flatMap DirectiveTree.valid, s.valid]

theorem SelectionTree.valid_all : ∀ xs : List SelectionTree, Valid (SelectionTree.lexemesAll xs)
  | [] => valid_nil
  | x :: xs => (valid_append _ _).2 ⟨x.valid, SelectionTree.valid_all xs⟩

theorem SetTree.valid : ∀ s : SetTree, Valid s.lexemes
  | ⟨_, x, xs, _⟩ => by simp [SetTree.lexemes, x.valid, SelectionTree.valid_all xs]

theorem SetTree.valid? : ∀ s : Option SetTree, Valid (SetTree.lexemes? s)
  | none => valid_nil
  | some s => s.valid

end

theorem TypeTree.valid (t : TypeTree) : Valid t.lexemes := by
  have hexclam : ∀ x : Option Place,
      Valid (optionalLexemes (fun p : Place => [p.lexeme .exclam]) x) := valid_optional (by simp)
  induction t with
  | named n x => simp [lexemes, hexclam x]
  | list o t c x ih => simp [lexemes, ih, hexclam x]

theorem DefaultTree.valid (d : DefaultTree) : Valid d.lexemes := by
  simp [lexemes, d.value.valid]

theorem VariableTree.valid (v : VariableTree) : Valid v.lexemes := by
  simp [lexemes, v.type.valid, valid_optional DefaultTree.valid,
    valid_flatMap DirectiveTree.valid]

theorem VariablesTree.valid (v : VariablesTree) : Valid v.lexemes := by
  simp [lexemes, v.first.valid, valid_flatMap VariableTree.valid]

theorem DefinitionTree.valid (d : DefinitionTree) : Valid d.lexemes := by
  cases d with
  | query s => exact s.valid
  | operation p k n vs ds s =>
    have hname : Valid (optionalLexemes (fun n : NameTree => [n.lexeme]) n) :=
      valid_optional (by simp) n
    simp [lexemes, hname, valid_optional VariablesTree.valid, valid_flatMap DirectiveTree.valid,
      s.valid]
  | fragment p n c ds s =>
    simp [lexemes, c.valid, valid_flatMap DirectiveTree.valid, s.valid]

theorem DocumentTree.valid (d : DocumentTree) : Valid d.lexemes :=
  valid_flatMap DefinitionTree.valid d

end GraphQLCheck
