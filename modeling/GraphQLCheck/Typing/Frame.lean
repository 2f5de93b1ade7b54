import GraphQLCheck.Traversal.Node
import GraphQLCheck.Typing.Provider

/-!
The definitions and types that apply at a node. The frame of a node comes from the frame of the
node above it; what does not resolve is left out and is no fault here. A `Tracker` keeps the
frames of the current node and the nodes above it.
-/
namespace GraphQLCheck

/-- The type of the current field, root or fragment is `output`, and `parent` is the type that
selections are made on. `input` is the type expected of the current value, and `parentInput` that
of the list or object around it. -/
structure Frame where
  output : Option TypeRef
  parent : Option TypeDef
  field : Option FieldDef
  directive : Option DirectiveDef
  owner : Option ArgumentOwner
  argument : Option InputDef
  input : Option TypeRef
  parentInput : Option TypeRef
  defaultValue : Option Value
  enumValue : Option String

namespace Frame

def empty : Frame := ⟨none, none, none, none, none, none, none, none, none, none⟩

def conditionType (p : Provider) (s : Schema) (condition : Name) : Option TypeRef :=
  match p.condition? s condition with
  | some t => if t.isOutput then some (.named t.name) else none
  | none => none

/-- Where a list is expected its items are, and where none is, a single value stands for a list
of itself. -/
def itemType (t : TypeRef) : TypeRef :=
  match t.nullable with
  | .list item => item
  | t => t

def enterValue (s : Schema) (top : Frame) : Value → Frame
  | .list _ _ =>
    { top with input := top.input.map itemType, parentInput := top.input, defaultValue := none }
  | .enum name _ =>
    let enum := (top.input.bind s.resolve?).bind TypeDef.enum?
    { top with enumValue := enum.bind fun e => e.values.find? (· == name) }
  | _ => top

def enterField (p : Provider) (s : Schema) (top : Frame) (f : Field) : Frame :=
  let field := top.parent.bind fun t => p.field? s t f
  { empty with
    output := field.map FieldDef.type
    parent := top.parent
    field := field
    owner := field.map ArgumentOwner.field }

def enterObjectField (p : Provider) (s : Schema) (top : Frame) (f : ObjectField) : Frame :=
  let object := (top.input.bind s.resolve?).bind TypeDef.input?
  let field := object.bind fun i => p.inputField? s i f
  { top with
    input := field.map InputDef.type
    parentInput := top.input
    defaultValue := field.bind InputDef.defaultValue
    enumValue := none }

def enterArgument (p : Provider) (s : Schema) (top : Frame) (a : Argument) : Frame :=
  let argument := top.owner.bind fun o => p.argument? s o a
  { top with
    argument := argument
    input := argument.map InputDef.type
    parentInput := none
    defaultValue := argument.bind InputDef.defaultValue
    enumValue := none }

/-- Arguments of a directive that is not known have no owner, whatever the directive is on. -/
def enterDirective (p : Provider) (s : Schema) (top : Frame) (d : Directive) : Frame :=
  let directive := p.directive? s d
  { top with directive := directive, owner := directive.map ArgumentOwner.directive }

def enterInlineFragment (p : Provider) (s : Schema) (top : Frame) (i : InlineFragment) : Frame :=
  { top with
    output := match i.condition with
      | some c => conditionType p s c
      | none => top.output.map fun t => .named t.name }

def enterSelectionSet (s : Schema) (top : Frame) : Frame :=
  { top with
    parent := (top.output.bind s.resolve?).bind fun t => if t.isComposite then some t else none }

def enterVariableDefinition (s : Schema) (top : Frame) (d : VariableDefinition) : Frame :=
  { top with
    input := if (s.type? d.type.name.text).any TypeDef.isInput then some (.ofExpr d.type)
      else none }

def enter (p : Provider) (s : Schema) (top : Frame) : Node → Frame
  | .document _ => empty
  | .operation o => { empty with output := (s.root? o.kind).map fun t => .named t.name }
  | .fragment f => { empty with output := conditionType p s f.condition }
  | .variableDefinition d => enterVariableDefinition s top d
  | .selectionSet _ => enterSelectionSet s top
  | .fragmentSpread _ => top
  | .inlineFragment i => enterInlineFragment p s top i
  | .field f => enterField p s top f
  | .directive d => enterDirective p s top d
  | .argument a => enterArgument p s top a
  | .value v => enterValue s top v
  | .objectField f => enterObjectField p s top f

end Frame

/-- The frame of the current node comes first. -/
structure Tracker where
  frames : List Frame

namespace Tracker

def empty : Tracker := ⟨[]⟩

def top (t : Tracker) : Frame := t.frames.headD .empty

def depth (t : Tracker) : Nat := t.frames.length

def enter (p : Provider) (s : Schema) (t : Tracker) (n : Node) : Tracker :=
  ⟨t.top.enter p s n :: t.frames⟩

def leave (t : Tracker) : Tracker := ⟨t.frames.tail⟩

@[simp]
theorem leave_enter (p : Provider) (s : Schema) (t : Tracker) (n : Node) :
    (t.enter p s n).leave = t := rfl

@[simp]
theorem top_enter (p : Provider) (s : Schema) (t : Tracker) (n : Node) :
    (t.enter p s n).top = t.top.enter p s n := rfl

@[simp]
theorem depth_enter (p : Provider) (s : Schema) (t : Tracker) (n : Node) :
    (t.enter p s n).depth = t.depth + 1 := rfl

end Tracker
end GraphQLCheck
