import GraphQLCheck.Proofs.Document.Grammar
import GraphQLCheck.Schema.Declarations.Basic

/-!
The grammar of schema definitions, with derivation trees as for documents. `lexemes` is again the
sequence of tokens that a tree derives; the other functions give what a tree declares. Types,
values and applied directives are those of documents. Descriptions, applied directives and leading
separators have a place in the trees, but not in what these declare.

  Schema      := (Description? Declaration)* Description?
  Declaration := schema Directive* { Root* }
               | directive @name Inputs? repeatable? on Separated(|, Location)
               | Type
  Type        := (type | interface) Name Implements? Directive* [{ Field* }]
               | union Name Directive* [= Separated(|, Name)]
               | enum Name Directive* [{ Description? Member* }]
               | scalar Name Directive*
               | input Name Directive* [{ Input* }]
  Implements  := implements Separated(&, Name)
  Field       := Description? Name Inputs? : Type Directive*
  Inputs      := ( Input* )
  Input       := Description? Name : Type [= Value(without variables)] Directive*
  Member      := Name(other than true, false, null) Directive* Description?
  Root        := (query | mutation | subscription) : Name
  Description := String

`Separated(s, X)` stands for `s? X (s X)*`. The description behind a member of an enum is that of
the next one.
-/
namespace GraphQLCheck

structure DescriptionTree where
  place : Place
  text : String

def DescriptionTree.lexemes (d : DescriptionTree) : List Lexeme := [d.place.lexeme (.string d.text)]

structure EnclosedTree (τ : Type) where
  opening : Place
  items : List τ
  closing : Place

namespace EnclosedTree

variable {τ α : Type}

def lexemes (opening closing : Token) (lexemes : τ → List Lexeme) (e : EnclosedTree τ) :
    List Lexeme :=
  e.opening.lexeme opening :: (e.items.flatMap lexemes ++ [e.closing.lexeme closing])

/-- Brackets that are missing and brackets around nothing declare the same. -/
def values (value : τ → α) (e : Option (EnclosedTree τ)) : List α :=
  (e.map (·.items.map value)).getD []

end EnclosedTree

/-- Items with a separator between them and possibly one in front. -/
structure SeparatedTree (τ : Type) where
  leading : Option Place
  first : τ
  others : List (Place × τ)

namespace SeparatedTree

variable {τ α : Type}

def following (separator : Token) (lexemes : τ → List Lexeme) (x : Place × τ) : List Lexeme :=
  x.1.lexeme separator :: lexemes x.2

def lexemes (separator : Token) (lexemes : τ → List Lexeme) (s : SeparatedTree τ) : List Lexeme :=
  optionalLexemes (fun p : Place => [p.lexeme separator]) s.leading ++
    (lexemes s.first ++ s.others.flatMap (following separator lexemes))

def values (value : τ → α) (s : SeparatedTree τ) : List α :=
  value s.first :: s.others.map fun x => value x.2

end SeparatedTree

structure InputTree where
  description : Option DescriptionTree
  name : NameTree
  colon : Place
  type : TypeTree
  default : Option DefaultTree
  directives : List DirectiveTree

namespace InputTree

def lexemes (i : InputTree) : List Lexeme :=
  optionalLexemes DescriptionTree.lexemes i.description ++
    i.name.lexeme :: i.colon.lexeme .colon ::
      (i.type.lexemes ++ (optionalLexemes DefaultTree.lexemes i.default
        ++ i.directives.flatMap DirectiveTree.lexemes))

def input (tracked : Bool) (i : InputTree) : InputDef :=
  ⟨i.name.text, .ofExpr (i.type.type tracked), i.default.map (·.value.value tracked)⟩

end InputTree

abbrev InputsTree : Type := EnclosedTree InputTree

def InputsTree.lexemes : InputsTree → List Lexeme :=
  EnclosedTree.lexemes .parenOpen .parenClose InputTree.lexemes

structure FieldTree where
  description : Option DescriptionTree
  name : NameTree
  arguments : Option InputsTree
  colon : Place
  type : TypeTree
  directives : List DirectiveTree

namespace FieldTree

def lexemes (f : FieldTree) : List Lexeme :=
  optionalLexemes DescriptionTree.lexemes f.description ++
    f.name.lexeme :: (optionalLexemes InputsTree.lexemes f.arguments ++
      f.colon.lexeme .colon ::
        (f.type.lexemes ++ f.directives.flatMap DirectiveTree.lexemes))

def field (tracked : Bool) (f : FieldTree) : FieldDef :=
  ⟨f.name.text, .ofExpr (f.type.type tracked),
    EnclosedTree.values (InputTree.input tracked) f.arguments⟩

end FieldTree

def NameTree.lexemes (n : NameTree) : List Lexeme := [n.lexeme]

structure ImplementsTree where
  keyword : Place
  interfaces : SeparatedTree NameTree

namespace ImplementsTree

def lexemes (i : ImplementsTree) : List Lexeme :=
  i.keyword.lexeme (.name "implements") :: i.interfaces.lexemes .ampersand NameTree.lexemes

def names (i : Option ImplementsTree) : List String :=
  (i.map (·.interfaces.values NameTree.text)).getD []

end ImplementsTree

structure FieldsTypeTree where
  name : NameTree
  interfaces : Option ImplementsTree
  directives : List DirectiveTree
  fields : Option (EnclosedTree FieldTree)

namespace FieldsTypeTree

def lexemes (t : FieldsTypeTree) : List Lexeme :=
  t.name.lexeme :: (optionalLexemes ImplementsTree.lexemes t.interfaces
    ++ (t.directives.flatMap DirectiveTree.lexemes
      ++ optionalLexemes (EnclosedTree.lexemes .braceOpen .braceClose FieldTree.lexemes) t.fields))

def fieldDefs (tracked : Bool) (t : FieldsTypeTree) : List FieldDef :=
  EnclosedTree.values (FieldTree.field tracked) t.fields

end FieldsTypeTree

structure MembersTree where
  equal : Place
  types : SeparatedTree NameTree

namespace MembersTree

def lexemes (m : MembersTree) : List Lexeme :=
  m.equal.lexeme .equal :: m.types.lexemes .pipe NameTree.lexemes

def names (m : Option MembersTree) : List String := (m.map (·.types.values NameTree.text)).getD []

end MembersTree

structure EnumValueTree where
  name : NameTree
  unreserved : name.text ≠ "true" ∧ name.text ≠ "false" ∧ name.text ≠ "null"
  directives : List DirectiveTree
  next : Option DescriptionTree

def EnumValueTree.lexemes (v : EnumValueTree) : List Lexeme :=
  v.name.lexeme :: (v.directives.flatMap DirectiveTree.lexemes
    ++ optionalLexemes DescriptionTree.lexemes v.next)

structure EnumValuesTree where
  opening : Place
  description : Option DescriptionTree
  values : List EnumValueTree
  closing : Place

namespace EnumValuesTree

def lexemes (e : EnumValuesTree) : List Lexeme :=
  e.opening.lexeme .braceOpen :: (optionalLexemes DescriptionTree.lexemes e.description
    ++ (e.values.flatMap EnumValueTree.lexemes ++ [e.closing.lexeme .braceClose]))

def names (e : Option EnumValuesTree) : List String := (e.map (·.values.map (·.name.text))).getD []

end EnumValuesTree

inductive TypeDefTree
  | object (keyword : Place) (body : FieldsTypeTree)
  | interface (keyword : Place) (body : FieldsTypeTree)
  | union (keyword : Place) (name : NameTree) (directives : List DirectiveTree)
    (members : Option MembersTree)
  | enum (keyword : Place) (name : NameTree) (directives : List DirectiveTree)
    (values : Option EnumValuesTree)
  | scalar (keyword : Place) (name : NameTree) (directives : List DirectiveTree)
  | input (keyword : Place) (name : NameTree) (directives : List DirectiveTree)
    (fields : Option (EnclosedTree InputTree))

namespace TypeDefTree

def lexemes : TypeDefTree → List Lexeme
  | .object p b => p.lexeme (.name "type") :: b.lexemes
  | .interface p b => p.lexeme (.name "interface") :: b.lexemes
  | .union p n ds m =>
    p.lexeme (.name "union") :: n.lexeme ::
      (ds.flatMap DirectiveTree.lexemes ++ optionalLexemes MembersTree.lexemes m)
  | .enum p n ds v =>
    p.lexeme (.name "enum") :: n.lexeme ::
      (ds.flatMap DirectiveTree.lexemes ++ optionalLexemes EnumValuesTree.lexemes v)
  | .scalar p n ds =>
    p.lexeme (.name "scalar") :: n.lexeme :: ds.flatMap DirectiveTree.lexemes
  | .input p n ds f =>
    p.lexeme (.name "input") :: n.lexeme :: (ds.flatMap DirectiveTree.lexemes
      ++ optionalLexemes (EnclosedTree.lexemes .braceOpen .braceClose InputTree.lexemes) f)

def type (tracked : Bool) : TypeDefTree → TypeDef
  | .object _ b => .object ⟨b.name.text, b.fieldDefs tracked, ImplementsTree.names b.interfaces⟩
  | .interface _ b =>
    .interface ⟨b.name.text, b.fieldDefs tracked, ImplementsTree.names b.interfaces, [], []⟩
  | .union _ n _ m => .union ⟨n.text, MembersTree.names m⟩
  | .enum _ n _ v => .enum ⟨n.text, EnumValuesTree.names v⟩
  | .scalar _ n _ => .scalar ⟨n.text, none⟩
  | .input _ n _ f => .input ⟨n.text, EnclosedTree.values (InputTree.input tracked) f⟩

end TypeDefTree

structure LocationTree where
  place : Place
  location : DirectiveLocation

def LocationTree.lexemes (l : LocationTree) : List Lexeme :=
  [l.place.lexeme (.name l.location.name)]

structure DirectiveDefTree where
  keyword : Place
  place : Place
  name : String
  arguments : Option InputsTree
  repeatable : Option Place
  onKeyword : Place
  locations : SeparatedTree LocationTree

namespace DirectiveDefTree

def lexemes (d : DirectiveDefTree) : List Lexeme :=
  d.keyword.lexeme (.name "directive") :: d.place.lexeme (.directiveName d.name) ::
    (optionalLexemes InputsTree.lexemes d.arguments
      ++ (optionalLexemes (fun p : Place => [p.lexeme (.name "repeatable")]) d.repeatable
        ++ d.onKeyword.lexeme (.name "on") :: d.locations.lexemes .pipe LocationTree.lexemes))

def directive (tracked : Bool) (d : DirectiveDefTree) : DirectiveDef :=
  ⟨d.name, EnclosedTree.values (InputTree.input tracked) d.arguments,
    d.locations.values LocationTree.location, d.repeatable.isSome⟩

end DirectiveDefTree

structure RootTree where
  place : Place
  kind : OperationKind
  colon : Place
  name : NameTree

def RootTree.lexemes (r : RootTree) : List Lexeme :=
  [r.place.lexeme (.name r.kind.name), r.colon.lexeme .colon, r.name.lexeme]

/-- A schema definition names at most one root for each kind of operation. -/
structure RootsTree where
  keyword : Place
  directives : List DirectiveTree
  opening : Place
  roots : List RootTree
  distinct : (roots.map RootTree.kind).Nodup
  closing : Place

namespace RootsTree

def lexemes (r : RootsTree) : List Lexeme :=
  r.keyword.lexeme (.name "schema") :: (r.directives.flatMap DirectiveTree.lexemes
    ++ r.opening.lexeme .braceOpen ::
      (r.roots.flatMap RootTree.lexemes ++ [r.closing.lexeme .braceClose]))

def setAll (sofar : RootNames) (roots : List RootTree) : RootNames :=
  roots.foldl (fun names r => names.set r.kind r.name.text) sofar

def names (r : RootsTree) : RootNames := setAll .unset r.roots

end RootsTree

inductive DeclarationTree
  | roots (r : RootsTree)
  | directive (d : DirectiveDefTree)
  | type (t : TypeDefTree)

def DeclarationTree.lexemes : DeclarationTree → List Lexeme
  | .roots r => r.lexemes
  | .directive d => d.lexemes
  | .type t => t.lexemes

structure DescribedTree where
  description : Option DescriptionTree
  declaration : DeclarationTree

namespace DescribedTree

def lexemes (d : DescribedTree) : List Lexeme :=
  optionalLexemes DescriptionTree.lexemes d.description ++ d.declaration.lexemes

def type? (d : DescribedTree) : Option TypeDefTree :=
  match d.declaration with
  | .type t => some t
  | _ => none

def directive? (d : DescribedTree) : Option DirectiveDefTree :=
  match d.declaration with
  | .directive x => some x
  | _ => none

def roots? (d : DescribedTree) : Option RootsTree :=
  match d.declaration with
  | .roots r => some r
  | _ => none

end DescribedTree

structure SchemaTree where
  declarations : List DescribedTree
  description : Option DescriptionTree

namespace SchemaTree

def lexemes (s : SchemaTree) : List Lexeme :=
  s.declarations.flatMap DescribedTree.lexemes
    ++ optionalLexemes DescriptionTree.lexemes s.description

/-- The tree writes the declarations: those of types and those of directives in their orders, and
one schema definition or none. -/
structure Writes (tracked : Bool) (s : SchemaTree) (d : Declarations) : Prop where
  types : (s.declarations.filterMap DescribedTree.type?).map (TypeDefTree.type tracked) = d.types
  directives : (s.declarations.filterMap DescribedTree.directive?).map
    (DirectiveDefTree.directive tracked) = d.directives
  roots : (s.declarations.filterMap DescribedTree.roots?).map RootsTree.names = d.roots.toList

end SchemaTree
end GraphQLCheck
