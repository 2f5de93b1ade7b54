import GraphQLCheck.Proofs.Document.Printing

/-!
Documents without places: the same nodes, none of which knows where it stood. The places that a
node holds are counted with those of all nodes within it.
-/
namespace GraphQLCheck

theorem Value.unplacedAll_eq (vs : List Value) : Value.unplacedAll vs = vs.map Value.unplaced := by
  induction vs with
  | nil => rfl
  | cons v vs ih => rw [unplacedAll, ih, List.map_cons]

theorem ObjectField.unplacedAll_eq (fs : List ObjectField) :
    ObjectField.unplacedAll fs = fs.map ObjectField.unplaced := by
  induction fs with
  | nil => rfl
  | cons f fs ih => rw [unplacedAll, ih, List.map_cons]

def Name.unplaced (n : Name) : Name := ⟨n.text, none⟩

def Variable.unplaced (v : Variable) : Variable := ⟨v.name, none⟩

def TypeExpr.unplaced : TypeExpr → TypeExpr
  | .named n => .named n.unplaced
  | .list t => .list t.unplaced
  | .nonNull t => .nonNull t.unplaced

def Argument.unplaced (a : Argument) : Argument := ⟨a.name, a.value.unplaced, none⟩

def Directive.unplaced (d : Directive) : Directive :=
  ⟨d.name, d.arguments.map Argument.unplaced, none⟩

def FragmentSpread.unplaced (s : FragmentSpread) : FragmentSpread :=
  ⟨s.name.unplaced, s.directives.map Directive.unplaced, none⟩

mutual

def Selection.unplaced : Selection → Selection
  | .field f => .field f.unplaced
  | .spread s => .spread s.unplaced
  | .inline i => .inline i.unplaced

def Selection.unplacedAll : List Selection → List Selection
  | [] => []
  | s :: ss => s.unplaced :: Selection.unplacedAll ss

def Field.unplaced : Field → Field
  | ⟨responseAlias, name, arguments, directives, selections, _⟩ =>
    ⟨responseAlias, name, arguments.map Argument.unplaced, directives.map Directive.unplaced,
      Selection.unplacedAll selections, none⟩

def InlineFragment.unplaced : InlineFragment → InlineFragment
  | ⟨condition, directives, selections, _⟩ =>
    ⟨condition.map Name.unplaced, directives.map Directive.unplaced,
      Selection.unplacedAll selections, none⟩

end

theorem Selection.unplacedAll_eq (ss : List Selection) :
    Selection.unplacedAll ss = ss.map Selection.unplaced := by
  induction ss with
  | nil => rfl
  | cons s ss ih => rw [unplacedAll, ih, List.map_cons]

def VariableDefinition.unplaced (d : VariableDefinition) : VariableDefinition :=
  ⟨d.var.unplaced, d.type.unplaced, d.defaultValue.map Value.unplaced,
    d.directives.map Directive.unplaced, none⟩

def Operation.unplaced (o : Operation) : Operation :=
  ⟨o.kind, o.name.map Name.unplaced, o.variableDefinitions.map VariableDefinition.unplaced,
    o.directives.map Directive.unplaced, o.selections.map Selection.unplaced, none⟩

def Fragment.unplaced (f : Fragment) : Fragment :=
  ⟨f.name.unplaced, f.condition.unplaced, f.directives.map Directive.unplaced,
    f.selections.map Selection.unplaced, none⟩

def Definition.unplaced : Definition → Definition
  | .operation o => .operation o.unplaced
  | .fragment f => .fragment f.unplaced

def Document.unplaced (d : Document) : Document :=
  ⟨d.definitions.map Definition.unplaced, d.size⟩

mutual

def Value.places : Value → List Location
  | .variable v => v.loc.toList
  | .null => []
  | .boolean _ l | .int _ l | .float _ l | .string _ l | .enum _ l => l.toList
  | .list values l => l.toList ++ Value.placesAll values
  | .object fields l => l.toList ++ ObjectField.placesAll fields

def Value.placesAll : List Value → List Location
  | [] => []
  | v :: vs => v.places ++ Value.placesAll vs

def ObjectField.placesAll : List ObjectField → List Location
  | [] => []
  | f :: fs => f.places ++ ObjectField.placesAll fs

def ObjectField.places : ObjectField → List Location
  | ⟨_, value, l⟩ => l.toList ++ value.places

end

def Name.places (n : Name) : List Location := n.loc.toList

def Variable.places (v : Variable) : List Location := v.loc.toList

def TypeExpr.places : TypeExpr → List Location
  | .named n => n.places
  | .list t | .nonNull t => t.places

def Argument.places (a : Argument) : List Location := a.loc.toList ++ a.value.places

def Directive.places (d : Directive) : List Location :=
  d.loc.toList ++ d.arguments.flatMap Argument.places

def FragmentSpread.places (s : FragmentSpread) : List Location :=
  s.loc.toList ++ s.name.places ++ s.directives.flatMap Directive.places

mutual

def Selection.places : Selection → List Location
  | .field f => f.places
  | .spread s => s.places
  | .inline i => i.places

def Selection.placesAll : List Selection → List Location
  | [] => []
  | s :: ss => s.places ++ Selection.placesAll ss

def Field.places : Field → List Location
  | ⟨_, _, arguments, directives, selections, l⟩ =>
    l.toList ++ arguments.flatMap Argument.places ++ directives.flatMap Directive.places ++
      Selection.placesAll selections

def InlineFragment.places : InlineFragment → List Location
  | ⟨condition, directives, selections, l⟩ =>
    l.toList ++ condition.toList.flatMap Name.places ++ directives.flatMap Directive.places ++
      Selection.placesAll selections

end

def VariableDefinition.places (d : VariableDefinition) : List Location :=
  d.loc.toList ++ d.var.places ++ d.type.places ++ d.defaultValue.toList.flatMap Value.places ++
    d.directives.flatMap Directive.places

def Operation.places (o : Operation) : List Location :=
  o.loc.toList ++ o.name.toList.flatMap Name.places ++
    o.variableDefinitions.flatMap VariableDefinition.places ++
    o.directives.flatMap Directive.places ++ o.selections.flatMap Selection.places

def Fragment.places (f : Fragment) : List Location :=
  f.loc.toList ++ f.name.places ++ f.condition.places ++
    f.directives.flatMap Directive.places ++ f.selections.flatMap Selection.places

def Definition.places : Definition → List Location
  | .operation o => o.places
  | .fragment f => f.places

def Document.places (d : Document) : List Location := d.definitions.flatMap Definition.places

theorem flatMap_unplaced {α : Type} {f : α → List Location} {u : α → α}
    (h : ∀ a, f (u a) = []) (as : List α) :
    (as.map u).flatMap f = [] := by
  rw [List.flatMap_eq_nil_iff, List.forall_mem_map]
  exact fun a _ => h a

theorem toList_unplaced {α : Type} {f : α → List Location} {u : α → α}
    (h : ∀ a, f (u a) = []) (a : Option α) :
    (a.map u).toList.flatMap f = [] := by
  rw [Option.toList_map]
  exact flatMap_unplaced h _

mutual

theorem Value.places_unplaced : ∀ v : Value, v.unplaced.places = []
  | .variable _ | .null | .boolean _ _ | .int _ _ | .float _ _ | .string _ _ | .enum _ _ => rfl
  | .list vs _ => Value.placesAll_unplaced vs
  | .object fs _ => ObjectField.placesAll_unplaced fs

theorem Value.placesAll_unplaced :
    ∀ vs : List Value, Value.placesAll (Value.unplacedAll vs) = []
  | [] => rfl
  | v :: vs => by
    rw [Value.unplacedAll, Value.placesAll, Value.places_unplaced v,
      Value.placesAll_unplaced vs, List.append_nil]

theorem ObjectField.placesAll_unplaced :
    ∀ fs : List ObjectField, ObjectField.placesAll (ObjectField.unplacedAll fs) = []
  | [] => rfl
  | f :: fs => by
    rw [ObjectField.unplacedAll, ObjectField.placesAll, ObjectField.places_unplaced f,
      ObjectField.placesAll_unplaced fs, List.append_nil]

theorem ObjectField.places_unplaced : ∀ f : ObjectField, f.unplaced.places = []
  | ⟨_, v, _⟩ => Value.places_unplaced v

end

theorem TypeExpr.places_unplaced (t : TypeExpr) : t.unplaced.places = [] := by
  induction t with
  | named n => rfl
  | list t ih => exact ih
  | nonNull t ih => exact ih

theorem Argument.places_unplaced (a : Argument) : a.unplaced.places = [] :=
  a.value.places_unplaced

theorem Directive.places_unplaced (d : Directive) : d.unplaced.places = [] :=
  flatMap_unplaced Argument.places_unplaced d.arguments

theorem FragmentSpread.places_unplaced (s : FragmentSpread) : s.unplaced.places = [] :=
  flatMap_unplaced Directive.places_unplaced s.directives

mutual

theorem Selection.places_unplaced : ∀ s : Selection, s.unplaced.places = []
  | .field f => Field.places_unplaced f
  | .spread s => s.places_unplaced
  | .inline i => InlineFragment.places_unplaced i

theorem Selection.placesAll_unplaced :
    ∀ ss : List Selection, Selection.placesAll (Selection.unplacedAll ss) = []
  | [] => rfl
  | s :: ss => by
    rw [Selection.unplacedAll, Selection.placesAll, Selection.places_unplaced s,
      Selection.placesAll_unplaced ss, List.append_nil]

theorem Field.places_unplaced : ∀ f : Field, f.unplaced.places = []
  | ⟨_, _, arguments, directives, selections, _⟩ => by
    rw [Field.unplaced, Field.places, flatMap_unplaced Argument.places_unplaced,
      flatMap_unplaced Directive.places_unplaced, Selection.placesAll_unplaced selections]
    rfl

theorem InlineFragment.places_unplaced : ∀ i : InlineFragment, i.unplaced.places = []
  | ⟨condition, directives, selections, _⟩ => by
    rw [InlineFragment.unplaced, InlineFragment.places, toList_unplaced (fun _ => rfl),
      flatMap_unplaced Directive.places_unplaced, Selection.placesAll_unplaced selections]
    rfl

end

theorem VariableDefinition.places_unplaced (d : VariableDefinition) : d.unplaced.places = [] := by
  simp [VariableDefinition.unplaced, VariableDefinition.places, TypeExpr.places_unplaced,
    toList_unplaced Value.places_unplaced, flatMap_unplaced Directive.places_unplaced,
    Variable.unplaced, Variable.places]

theorem Operation.places_unplaced (o : Operation) : o.unplaced.places = [] := by
  simp [Operation.unplaced, Operation.places, toList_unplaced (u := Name.unplaced)
    (f := Name.places) (fun _ => rfl), flatMap_unplaced VariableDefinition.places_unplaced,
    flatMap_unplaced Directive.places_unplaced, flatMap_unplaced Selection.places_unplaced]

theorem Fragment.places_unplaced (f : Fragment) : f.unplaced.places = [] := by
  simp [Fragment.unplaced, Fragment.places, Name.unplaced, Name.places,
    flatMap_unplaced Directive.places_unplaced, flatMap_unplaced Selection.places_unplaced]

theorem Definition.places_unplaced (d : Definition) : d.unplaced.places = [] := by
  cases d with
  | operation o => exact o.places_unplaced
  | fragment f => exact f.places_unplaced

theorem Document.places_unplaced (d : Document) : d.unplaced.places = [] :=
  flatMap_unplaced Definition.places_unplaced d.definitions

end GraphQLCheck
