import GraphQLCheck.Schema.Basic

/-!
How the nodes of a document lead to definitions of a schema. A `Provider` answers for each kind
of node; `Provider.standard` looks everything up by name and knows the fields that every schema
has for asking about itself.
-/
namespace GraphQLCheck

inductive ArgumentOwner
  | field (f : FieldDef)
  | directive (d : DirectiveDef)

def ArgumentOwner.argument? (o : ArgumentOwner) (name : String) : Option InputDef :=
  match o with
  | .field f => f.argument? name
  | .directive d => d.argument? name

structure Provider where
  field? : Schema → TypeDef → Field → Option FieldDef
  condition? : Schema → Name → Option TypeDef
  directive? : Schema → Directive → Option DirectiveDef
  argument? : Schema → ArgumentOwner → Argument → Option InputDef
  inputField? : Schema → InputObjectType → ObjectField → Option InputDef

namespace MetaField

def typename : FieldDef := ⟨"__typename", .nonNull (.named "String"), []⟩

def schema : FieldDef := ⟨"__schema", .nonNull (.named "__Schema"), []⟩

def type : FieldDef :=
  ⟨"__type", .named "__Type", [⟨"name", .nonNull (.named "String"), none⟩]⟩

end MetaField

namespace Provider

def isQueryRoot (s : Schema) : TypeDef → Bool
  | .object o => s.queryRoot.any (·.name == o.name)
  | _ => false

def schemaField? (s : Schema) (parent : TypeDef) (name : String) : Option FieldDef :=
  if name = "__typename" ∧ parent.isComposite then some MetaField.typename
  else if name = "__schema" ∧ isQueryRoot s parent then some MetaField.schema
  else if name = "__type" ∧ isQueryRoot s parent then some MetaField.type
  else parent.field? name

def standard : Provider where
  field? s parent f := schemaField? s parent f.name
  condition? s n := s.type? n.text
  directive? s d := s.directive? d.name
  argument? _ o a := o.argument? a.name
  inputField? _ i f := i.field? f.name

def none : Provider where
  field? _ _ _ := .none
  condition? _ _ := .none
  directive? _ _ := .none
  argument? _ _ _ := .none
  inputField? _ _ _ := .none

end Provider
end GraphQLCheck
