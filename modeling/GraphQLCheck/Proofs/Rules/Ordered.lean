import GraphQLCheck.Proofs.Schema.Ordered
import GraphQLCheck.Proofs.Sorting.Natural
import GraphQLCheck.Proofs.Suggestion.Near
import GraphQLCheck.Proofs.Validation.Lockstep

/-!
Validation on an ordered schema. The frames of nodes are those of the schema, ordered, and every
rule reports the same. Rules look most things up by name; those that go through all there is, for
what is missing or for names to suggest, put it in an order of their own first. Only what may
stand for an abstract type is taken in the order in which the schema names it.
-/
namespace GraphQLCheck

/-! ### Frames -/

def ArgumentOwner.ordered : ArgumentOwner → ArgumentOwner
  | .field f => .field f.ordered
  | .directive d => .directive d.ordered

@[simp]
theorem ArgumentOwner.argument?_ordered (o : ArgumentOwner) (name : String) :
    o.ordered.argument? name = o.argument? name := by
  cases o with
  | field f => exact f.argument?_ordered name
  | directive d => exact d.argument?_ordered name

def Frame.ordered (f : Frame) : Frame :=
  { f with
    parent := f.parent.map TypeDef.ordered
    field := f.field.map FieldDef.ordered
    directive := f.directive.map DirectiveDef.ordered
    owner := f.owner.map ArgumentOwner.ordered }

theorem Provider.isQueryRoot_ordered (s : Schema) (t : TypeDef) :
    isQueryRoot s.ordered t.ordered = isQueryRoot s t := by
  cases t with
  | object o =>
    rw [TypeDef.ordered, isQueryRoot, isQueryRoot, Schema.ordered, Option.any_map]
    rfl
  | _ => rfl

theorem Provider.schemaField?_ordered (s : Schema) (t : TypeDef) (name : String) :
    schemaField? s.ordered t.ordered name = (schemaField? s t name).map FieldDef.ordered := by
  have htypename : MetaField.typename.ordered = MetaField.typename := by
    simp [MetaField.typename, FieldDef.ordered, Named.sorted]
  have hschema : MetaField.schema.ordered = MetaField.schema := by
    simp [MetaField.schema, FieldDef.ordered, Named.sorted]
  have htype : MetaField.type.ordered = MetaField.type := by
    simp [MetaField.type, FieldDef.ordered, Named.sorted]
  simp only [schemaField?, TypeDef.isComposite_ordered, isQueryRoot_ordered,
    TypeDef.field?_ordered]
  split
  · exact congrArg some htypename.symm
  split
  · exact congrArg some hschema.symm
  split
  · exact congrArg some htype.symm
  · rfl

namespace Frame

variable (s : Schema) (top : Frame)

theorem conditionType_ordered (condition : Name) :
    conditionType .standard s.ordered condition = conditionType .standard s condition := by
  simp only [conditionType, Provider.standard, Schema.type?_ordered]
  cases s.type? condition.text with
  | none => rfl
  | some t => simp only [Option.map_some, TypeDef.isOutput_ordered, TypeDef.name_ordered]

theorem resolve?_bind_ordered {α : Type} (t : Option TypeRef) (f : TypeDef → Option α) :
    (t.bind s.ordered.resolve?).bind f = (t.bind s.resolve?).bind fun u => f u.ordered := by
  cases t with
  | none => rfl
  | some t =>
    simp only [Option.bind_some, Schema.resolve?_ordered]
    cases s.resolve? t <;> rfl

theorem enterValue_ordered (v : Value) :
    enterValue s.ordered top.ordered v = (enterValue s top v).ordered := by
  cases v with
  | enum name _ =>
    have hvalue : ((top.input.bind s.ordered.resolve?).bind TypeDef.enum?).bind
        (fun e => e.values.find? (· == name)) =
        ((top.input.bind s.resolve?).bind TypeDef.enum?).bind
          fun e => e.values.find? (· == name) := by
      rw [resolve?_bind_ordered]
      cases top.input.bind s.resolve? with
      | none => rfl
      | some t =>
        simp only [Option.bind_some, TypeDef.enum?_ordered]
        cases t.enum? with
        | none => rfl
        | some e => exact Named.find?_sorted id name e.values
    simp only [enterValue, ordered, hvalue]
  | _ => rfl

theorem enterField_ordered (f : Field) :
    enterField .standard s.ordered top.ordered f = (enterField .standard s top f).ordered := by
  simp only [enterField, ordered, Provider.standard]
  cases top.parent with
  | none => rfl
  | some t =>
    simp only [Option.map_some, Option.bind_some, Provider.schemaField?_ordered]
    cases Provider.schemaField? s t f.name <;> rfl

theorem enterObjectField_ordered (f : ObjectField) :
    enterObjectField .standard s.ordered top.ordered f =
      (enterObjectField .standard s top f).ordered := by
  have hfield : ((top.input.bind s.ordered.resolve?).bind TypeDef.input?).bind
      (fun i => i.field? f.name) =
      ((top.input.bind s.resolve?).bind TypeDef.input?).bind fun i => i.field? f.name := by
    rw [resolve?_bind_ordered]
    cases top.input.bind s.resolve? with
    | none => rfl
    | some t =>
      simp only [Option.bind_some, TypeDef.input?_ordered]
      cases t.input? with
      | none => rfl
      | some i => exact i.field?_ordered f.name
  simp only [enterObjectField, ordered, Provider.standard, hfield]

theorem enterArgument_ordered (a : Argument) :
    enterArgument .standard s.ordered top.ordered a =
      (enterArgument .standard s top a).ordered := by
  simp only [enterArgument, ordered, Provider.standard]
  cases top.owner with
  | none => rfl
  | some o => simp only [Option.map_some, Option.bind_some, ArgumentOwner.argument?_ordered]

theorem enterDirective_ordered (d : Directive) :
    enterDirective .standard s.ordered top.ordered d =
      (enterDirective .standard s top d).ordered := by
  simp only [enterDirective, ordered, Provider.standard, Schema.directive?_ordered]
  cases s.directive? d.name <;> rfl

theorem enterInlineFragment_ordered (i : InlineFragment) :
    enterInlineFragment .standard s.ordered top.ordered i =
      (enterInlineFragment .standard s top i).ordered := by
  simp only [enterInlineFragment, ordered]
  cases i.condition with
  | none => rfl
  | some c => simp only [conditionType_ordered]

theorem enterSelectionSet_ordered :
    enterSelectionSet s.ordered top.ordered = (enterSelectionSet s top).ordered := by
  simp only [enterSelectionSet, ordered, resolve?_bind_ordered]
  cases top.output.bind s.resolve? with
  | none => rfl
  | some t =>
    simp only [Option.bind_some, TypeDef.isComposite_ordered]
    split <;> rfl

theorem enterVariableDefinition_ordered (d : VariableDefinition) :
    enterVariableDefinition s.ordered top.ordered d =
      (enterVariableDefinition s top d).ordered := by
  simp only [enterVariableDefinition, ordered, Schema.type?_ordered, Option.any_map]
  cases s.type? d.type.name.text with
  | none => rfl
  | some t => simp only [Option.any_some, TypeDef.isInput_ordered]

theorem enter_ordered (n : Node) :
    top.ordered.enter .standard s.ordered n = (top.enter .standard s n).ordered := by
  cases n with
  | document _ => rfl
  | operation o =>
    simp only [enter, Schema.root?_ordered]
    cases s.root? o.kind <;> rfl
  | fragment f =>
    simp only [enter, conditionType_ordered]
    rfl
  | variableDefinition d => exact enterVariableDefinition_ordered s top d
  | selectionSet _ => exact enterSelectionSet_ordered s top
  | fragmentSpread _ => rfl
  | inlineFragment i => exact enterInlineFragment_ordered s top i
  | field f => exact enterField_ordered s top f
  | directive d => exact enterDirective_ordered s top d
  | argument a => exact enterArgument_ordered s top a
  | value v => exact enterValue_ordered s top v
  | objectField f => exact enterObjectField_ordered s top f

end Frame

def Change.ordered : Change := ⟨id, id, fun f f' => f' = f.ordered⟩

def Visit.ordered (v : Visit) : Visit := { v with frame := v.frame.ordered }

theorem Visit.eq_ordered {v v' : Visit} (h : v.Follows .ordered v') : v' = v.ordered := by
  obtain ⟨phase, node, path, frame, depth⟩ := v'
  obtain ⟨rfl, rfl, rfl, rfl, rfl⟩ := h
  rfl

theorem Change.lawful_ordered (s : Schema) (d : Document) (maxErrors : Option Nat)
    (paths : Bool) :
    Change.ordered.Lawful ⟨.standard, maxErrors, paths⟩ ⟨s, d⟩ ⟨s.ordered, d⟩ where
  document := rfl
  classOf _ := rfl
  children n := (List.map_id n.children).symm
  limit := rfl
  attachPath _ _ := rfl
  empty := rfl
  enter := by
    rintro f _ n rfl
    exact Frame.enter_ordered s f n

namespace Rules

abbrev Ordered (s : Schema) (d : Document) (r : Rule) : Prop :=
  r.Steady .ordered ⟨s, d⟩ ⟨s.ordered, d⟩

theorem ordered_of_react {s : Schema} {d : Document} {r : Rule}
    (h : ∀ (v : Visit) (x : r.State),
      r.react (⟨s.ordered, d⟩ : Subject) v.ordered x = r.react (⟨s, d⟩ : Subject) v x) :
    Ordered s d r := by
  refine ⟨Eq, rfl, ?_⟩
  rintro v v' x _ hv rfl
  rw [Visit.eq_ordered hv, h]
  exact ⟨rfl, (List.map_id _).symm, rfl, rfl⟩

theorem ordered_stateless {s : Schema} {d : Document} {handlers : Handlers}
    {reports : Subject → Visit → List Diagnostic}
    (h : ∀ v : Visit, reports ⟨s.ordered, d⟩ v.ordered = reports ⟨s, d⟩ v) :
    Ordered s d (.stateless handlers reports) :=
  ordered_of_react fun v _ => congrArg (Reaction.next ()) (h v)

variable {s : Schema} {d : Document}

/-! ### Types -/

theorem unknownType_ordered (n : Name) : unknownType s.ordered n = unknownType s n := by
  rw [unknownType, unknownType, Schema.type?_ordered, Option.isNone_map, s.typeNames_ordered]

theorem ordered_knownTypeNames : Ordered s d knownTypeNames := by
  refine ordered_stateless fun v => ?_
  obtain ⟨phase, node, path, frame, depth⟩ := v
  have hunknown : unknownType s.ordered = unknownType s := funext unknownType_ordered
  simp only [Visit.ordered, hunknown]

theorem leafCondition_ordered (fragment : Option String) :
    leafCondition s.ordered fragment = leafCondition s fragment := by
  funext n
  rw [leafCondition, leafCondition, Schema.type?_ordered]
  cases s.type? n.text with
  | none => rfl
  | some t => simp only [Option.map_some, TypeDef.isComposite_ordered]

theorem ordered_fragmentsOnCompositeTypes : Ordered s d fragmentsOnCompositeTypes := by
  refine ordered_stateless fun v => ?_
  simp only [Visit.ordered, leafCondition_ordered]

theorem ordered_variablesAreInputTypes : Ordered s d variablesAreInputTypes := by
  refine ordered_stateless fun v => ?_
  obtain ⟨phase, node, path, frame, depth⟩ := v
  cases phase with
  | leave => cases node <;> rfl
  | enter =>
    cases node with
    | variableDefinition x =>
      simp only [Visit.ordered, Schema.type?_ordered]
      cases s.type? x.type.name.text with
      | none => rfl
      | some t => simp only [Option.map_some, TypeDef.isInput_ordered]
    | _ => rfl

/-! ### Fields -/

theorem ordered_scalarLeafs : Ordered s d scalarLeafs := by
  refine ordered_stateless fun v => ?_
  obtain ⟨phase, node, path, frame, depth⟩ := v
  cases phase with
  | leave => cases node <;> rfl
  | enter =>
    cases node with
    | field f =>
      simp only [Visit.ordered, Frame.ordered]
      cases frame.output with
      | none => rfl
      | some output =>
        simp only [Schema.resolve?_ordered]
        cases s.resolve? output with
        | none => rfl
        | some t => simp only [Option.map_some, TypeDef.isLeaf_ordered]
    | _ => rfl

def Candidate.ordered (c : Candidate) : Candidate := ⟨c.type.ordered, c.count⟩

theorem compare_ordered (a b : Candidate) : a.ordered.compare b.ordered = a.compare b := by
  have habove : ∀ t u : TypeDef, (t.interface?.isSome && t.ordered.isSubType u.ordered) =
      (t.interface?.isSome && t.isSubType u) := by
    intro t u
    cases ht : t.interface?.isSome with
    | true => rw [TypeDef.isSubType_ordered t u ht]
    | false => rfl
  simp only [Candidate.compare, Candidate.ordered, TypeDef.interface?_ordered,
    TypeDef.name_ordered, Option.isSome_map, habove]

theorem countInterface_ordered (i : InterfaceType) (cs : List Candidate) :
    countInterface i.ordered (cs.map Candidate.ordered) =
      (countInterface i cs).map Candidate.ordered := by
  induction cs with
  | nil => rfl
  | cons c cs ih =>
    have hname : c.ordered.type.name = i.ordered.name ↔ c.type.name = i.name := by
      rw [Candidate.ordered, TypeDef.name_ordered]
      rfl
    simp only [List.map_cons, countInterface, hname, ih]
    split <;> rfl

theorem countInterfaces_ordered (field : String) (o : ObjectType) (cs : List Candidate) :
    countInterfaces s.ordered field o.ordered (cs.map Candidate.ordered) =
      (countInterfaces s field o cs).map Candidate.ordered := by
  refine List.foldl_hom (List.map Candidate.ordered) fun cs name => ?_
  rw [Schema.type?_ordered]
  cases s.type? name with
  | none => rfl
  | some t =>
    simp only [Option.map_some, Option.bind_some, TypeDef.interface?_ordered]
    cases t.interface? with
    | none => rfl
    | some i =>
      have hfield := (TypeDef.interface i).field?_ordered field
      rw [TypeDef.ordered] at hfield
      simp only [Option.map_some, hfield, Option.isSome_map, countInterface_ordered]
      split <;> rfl

theorem candidates_ordered (parent : TypeDef) (field : String) :
    candidates s.ordered parent.ordered field =
      (candidates s parent field).map Candidate.ordered := by
  rw [candidates, candidates, Schema.possibleObjects_ordered, List.foldl_map]
  change List.foldl _ (List.map Candidate.ordered []) _ = _
  refine List.foldl_hom (List.map Candidate.ordered) fun (cs : List Candidate) o => ?_
  have hfield := (TypeDef.object o).field?_ordered field
  have hadded : cs.map Candidate.ordered ++ [Candidate.mk (.object o.ordered) 1] =
      (cs ++ [Candidate.mk (.object o) 1]).map Candidate.ordered := by
    rw [List.map_append]
    rfl
  rw [TypeDef.ordered] at hfield
  simp only [hfield, Option.isSome_map, hadded, countInterfaces_ordered]
  split <;> rfl

theorem narrowerTypes?_ordered (parent : TypeDef) (field : String) :
    narrowerTypes? s.ordered parent.ordered field = narrowerTypes? s parent field := by
  have hsorted : ∀ cs : List Candidate, sortCandidates? (cs.map Candidate.ordered) =
      (sortCandidates? cs).map (List.map Candidate.ordered) :=
    Sorting.stable?_map fun a b => by rw [compare_ordered]
  have hnames : ∀ cs : List Candidate,
      (cs.map Candidate.ordered).map (·.type.name) = cs.map (·.type.name) := by
    intro cs
    rw [List.map_map]
    exact List.map_congr_left fun c _ => c.type.name_ordered
  rw [narrowerTypes?, narrowerTypes?, TypeDef.isAbstract_ordered, candidates_ordered, hsorted]
  cases sortCandidates? (candidates s parent field) with
  | none => rfl
  | some cs => simp only [Option.map_some, hnames]

theorem nearFields_ordered (parent : TypeDef) (field : String) :
    nearFields parent.ordered field = nearFields parent field := by
  rw [nearFields, nearFields, TypeDef.fields?_ordered]
  cases parent.fields? with
  | none => rfl
  | some fields =>
    have hnames : ((orderedFields fields).map FieldDef.name).Perm (fields.map FieldDef.name) := by
      have hperm := (Named.sorted_perm FieldDef.name (fields.map FieldDef.ordered)).map
        FieldDef.name
      rwa [List.map_map] at hperm
    exact Suggestion.near_eq_of_perm field hnames

theorem ordered_fieldsOnCorrectType : Ordered s d fieldsOnCorrectType := by
  refine ordered_of_react fun v _ => ?_
  obtain ⟨phase, node, path, frame, depth⟩ := v
  cases phase with
  | leave => cases node <;> rfl
  | enter =>
    cases node with
    | field f =>
      simp only [fieldsOnCorrectType, Visit.ordered, Frame.ordered]
      cases frame.parent with
      | none => rfl
      | some parent =>
        cases frame.field with
        | some _ => rfl
        | none =>
          simp only [Option.map_some, Option.map_none, narrowerTypes?_ordered,
            nearFields_ordered, TypeDef.name_ordered]
    | _ => rfl

/-! ### Directives -/

theorem misplaced_ordered (location : DirectiveLocation) :
    misplaced s.ordered location = misplaced s location := by
  funext x
  rw [misplaced, misplaced, Schema.directive?_ordered]
  cases s.directive? x.name <;> rfl

theorem ordered_knownDirectives : Ordered s d knownDirectives := by
  refine ordered_stateless fun v => ?_
  simp only [Visit.ordered, misplaced_ordered]

theorem repeatedDirectives_ordered (seen ds : List Directive) :
    repeatedDirectives s.ordered seen ds = repeatedDirectives s seen ds := by
  induction ds generalizing seen with
  | nil => rfl
  | cons x xs ih =>
    have hrepeatable : ((s.directive? x.name).map DirectiveDef.ordered).any (!·.repeatable) =
        (s.directive? x.name).any (!·.repeatable) := by
      cases s.directive? x.name <;> rfl
    simp only [repeatedDirectives, Schema.directive?_ordered, hrepeatable, ih]

theorem ordered_uniqueDirectivesPerLocation : Ordered s d uniqueDirectivesPerLocation := by
  refine ordered_stateless fun v => ?_
  simp only [Visit.ordered, repeatedDirectives_ordered]

/-! ### Arguments -/

theorem near_sorted (name : String) (inputs : List InputDef) :
    Suggestion.near name ((Named.sorted InputDef.name inputs).map InputDef.name) =
      Suggestion.near name (inputs.map InputDef.name) :=
  Suggestion.near_eq_of_perm name ((Named.sorted_perm InputDef.name inputs).map InputDef.name)

theorem ordered_knownArgumentNames : Ordered s d knownArgumentNames := by
  refine ordered_stateless fun v => ?_
  obtain ⟨phase, node, path, frame, depth⟩ := v
  cases phase with
  | leave => cases node <;> rfl
  | enter =>
    cases node with
    | argument a =>
      simp only [Visit.ordered, Frame.ordered]
      cases frame.argument with
      | some _ => rfl
      | none =>
        cases frame.owner with
        | none => rfl
        | some owner =>
          cases owner with
          | directive x =>
            simp only [Option.map_some, ArgumentOwner.ordered, DirectiveDef.ordered, near_sorted]
          | field f =>
            cases frame.parent with
            | none => rfl
            | some t =>
              simp only [Option.map_some, ArgumentOwner.ordered, FieldDef.ordered, near_sorted,
                TypeDef.name_ordered]
    | _ => rfl

theorem missingInputs_sorted (inputs : List InputDef) (given : List String) :
    missingInputs (Named.sorted InputDef.name inputs) given = missingInputs inputs given := by
  rw [missingInputs, missingInputs, Named.sorted_sorted]

theorem ordered_providedRequiredArguments : Ordered s d providedRequiredArguments := by
  refine ordered_stateless fun v => ?_
  obtain ⟨phase, node, path, frame, depth⟩ := v
  cases phase with
  | leave => cases node <;> rfl
  | enter =>
    cases node with
    | field f =>
      simp only [Visit.ordered, Frame.ordered]
      cases frame.field with
      | none => rfl
      | some definition =>
        simp only [Option.map_some, FieldDef.ordered, missingInputs_sorted]
    | directive x =>
      simp only [Visit.ordered, Frame.ordered]
      cases frame.directive with
      | none => cases frame.field <;> rfl
      | some definition =>
        cases frame.field <;>
          simp only [Option.map_some, Option.map_none, DirectiveDef.ordered,
            missingInputs_sorted]
    | _ => rfl

/-! ### Values -/

theorem enumProblem?_ordered (e : EnumType) (v : Value) :
    enumProblem? e.ordered v = enumProblem? e v := by
  have hperm : (sortedNames e.values).Perm e.values := List.mergeSort_perm e.values _
  have hsorted : e.ordered.sortedValues = e.sortedValues := sortedNames_eq_of_perm hperm
  have hcontains : ∀ name, e.ordered.values.contains name = e.values.contains name :=
    fun name => hperm.contains_eq
  cases v with
  | enum name _ =>
    simp only [enumProblem?, hsorted, hcontains]
    rfl
  | _ =>
    simp only [enumProblem?, hsorted]
    rfl

theorem leafProblem?_ordered (expected : TypeRef) (v : Value) :
    leafProblem? s.ordered expected v = leafProblem? s expected v := by
  rw [leafProblem?, leafProblem?, Schema.resolve?_ordered]
  cases s.resolve? expected with
  | none => rfl
  | some t =>
    cases t with
    | enum e => exact enumProblem?_ordered e v
    | _ => rfl

theorem leafReports_ordered (frame : Frame) (v : Value) :
    leafReports s.ordered frame.ordered v = leafReports s frame v := by
  simp only [leafReports, Frame.ordered, leafProblem?_ordered]

theorem inputObject?_ordered (t : Option TypeRef) :
    inputObject? s.ordered t = (inputObject? s t).map InputObjectType.ordered := by
  rw [inputObject?, inputObject?, Frame.resolve?_bind_ordered]
  cases t.bind s.resolve? with
  | none => rfl
  | some t => exact t.input?_ordered

theorem unknownFieldReports_ordered (frame : Frame) (f : ObjectField) :
    unknownFieldReports s.ordered frame.ordered f = unknownFieldReports s frame f := by
  simp only [unknownFieldReports, Frame.ordered, inputObject?_ordered]
  cases inputObject? s frame.parentInput with
  | none => rfl
  | some i => simp only [Option.map_some, InputObjectType.ordered, near_sorted]

theorem missingFieldReports_ordered (i : InputObjectType) (fields : List ObjectField)
    (v : Value) : missingFieldReports i.ordered fields v = missingFieldReports i fields v := by
  simp only [missingFieldReports, InputObjectType.ordered, missingInputs_sorted]

theorem enterValueCheck_ordered (v : Visit) (x : Value) (c : ValueCheck) :
    enterValueCheck s.ordered v.ordered x c = enterValueCheck s v x c := by
  have hleaf := leafReports_ordered (s := s) v.frame x
  cases x with
  | object fields loc =>
    have hinput : inputObject? s.ordered v.frame.ordered.input =
        (inputObject? s v.frame.input).map InputObjectType.ordered :=
      inputObject?_ordered v.frame.input
    simp only [enterValueCheck, Visit.ordered, hleaf, hinput]
    cases inputObject? s v.frame.input with
    | none => rfl
    | some i => simp only [Option.map_some, missingFieldReports_ordered]
  | list values loc =>
    simp only [enterValueCheck, Visit.ordered, hleaf]
    rfl
  | «variable» _ => rfl
  | null => rfl
  | _ => simp only [enterValueCheck, Visit.ordered, hleaf]

theorem ordered_valuesOfCorrectType : Ordered s d valuesOfCorrectType := by
  refine ordered_of_react fun v (c : ValueCheck) => ?_
  have hvalue := fun x => enterValueCheck_ordered (s := s) v x c
  have hfield := unknownFieldReports_ordered (s := s) v.frame
  obtain ⟨phase, node, path, frame, depth⟩ := v
  cases phase with
  | leave => cases node <;> rfl
  | enter =>
    cases node with
    | objectField f => simp only [valuesOfCorrectType, Visit.ordered, hfield]
    | value x =>
      simp only [valuesOfCorrectType, hvalue]
      rfl
    | _ => rfl

end Rules

theorem StandardRule.ordered_rule (s : Schema) (d : Document) (r : StandardRule) :
    Rules.Ordered s d r.rule := by
  cases r with
  | knownTypeNames => exact Rules.ordered_knownTypeNames
  | fragmentsOnCompositeTypes => exact Rules.ordered_fragmentsOnCompositeTypes
  | variablesAreInputTypes => exact Rules.ordered_variablesAreInputTypes
  | scalarLeafs => exact Rules.ordered_scalarLeafs
  | fieldsOnCorrectType => exact Rules.ordered_fieldsOnCorrectType
  | knownDirectives => exact Rules.ordered_knownDirectives
  | uniqueDirectivesPerLocation => exact Rules.ordered_uniqueDirectivesPerLocation
  | knownArgumentNames => exact Rules.ordered_knownArgumentNames
  | valuesOfCorrectType => exact Rules.ordered_valuesOfCorrectType
  | providedRequiredArguments => exact Rules.ordered_providedRequiredArguments
  -- The other rules look at the document only.
  | _ => exact Rules.ordered_of_react fun _ _ => rfl

theorem Run.result_ordered (s : Schema) (d : Document) (maxErrors : Option Nat) (paths : Bool)
    (rules : List StandardRule) :
    (ofDocument ⟨.standard, maxErrors, paths⟩ ⟨s.ordered, d⟩
        (rules.map StandardRule.rule)).result =
      (ofDocument ⟨.standard, maxErrors, paths⟩ ⟨s, d⟩
        (rules.map StandardRule.rule)).result := by
  have hsteady : ∀ r ∈ rules.map StandardRule.rule, r.Steady .ordered ⟨s, d⟩ ⟨s.ordered, d⟩ := by
    intro r hr
    obtain ⟨x, -, rfl⟩ := List.mem_map.1 hr
    exact x.ordered_rule s d
  rw [result_of_steady (Change.lawful_ordered s d maxErrors paths)
    (fun _ => StandardRule.blind_of_mem) hsteady]
  cases (ofDocument ⟨.standard, maxErrors, paths⟩ ⟨s, d⟩ (rules.map StandardRule.rule)).result with
  | error message => rfl
  | ok diagnostics => exact congrArg Except.ok (List.map_id diagnostics)

end GraphQLCheck
