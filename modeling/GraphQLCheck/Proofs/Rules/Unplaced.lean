import GraphQLCheck.Proofs.Document.Untracked
import GraphQLCheck.Proofs.Document.UnplacedParts
import GraphQLCheck.Proofs.Validation.Limit
import GraphQLCheck.Proofs.Validation.Lockstep

/-!
Validation without places. No rule tells nodes apart by where they stand: on a document without
places every rule reports what it reports on the document with them, at no location. A rule may
carry places along in its state, but what it decides does not hang on them.
-/
namespace GraphQLCheck

namespace Diagnostic

/-- The diagnostic at no location; one that has no locations stays as it is. -/
def unplaced (d : Diagnostic) : Diagnostic := { d with locations := d.locations.map fun _ => [] }

theorem unplaced_atLocations (p : Problem) (ls : List (Option Location)) :
    (atLocations p ls).unplaced = ⟨p, some [], none⟩ := rfl

theorem atLocations_of_none {p : Problem} {ls : List (Option Location)} (h : ∀ l ∈ ls, l = none) :
    atLocations p ls = ⟨p, some [], none⟩ := by
  have hlocations : ls.filterMap id = [] := List.filterMap_eq_nil_iff.2 h
  rw [atLocations, hlocations]

theorem unplaced_attachPath (p : Path) (d : Diagnostic) :
    (d.attachPath p).unplaced = d.unplaced.attachPath p := by
  obtain ⟨problem, locations, path⟩ := d
  cases path <;> cases locations <;> rfl

end Diagnostic

def Change.unplaced : Change := ⟨Node.unplaced, Diagnostic.unplaced, Eq⟩

def Visit.unplaced (v : Visit) : Visit := { v with node := v.node.unplaced }

theorem Visit.eq_unplaced {v v' : Visit} (h : v.Follows .unplaced v') : v' = v.unplaced := by
  obtain ⟨phase, node, path, frame, depth⟩ := v'
  obtain ⟨rfl, rfl, rfl, hframe, rfl⟩ := h
  cases hframe
  rfl

theorem Frame.enter_unplaced (s : Schema) (f : Frame) (n : Node) :
    f.enter .standard s n.unplaced = f.enter .standard s n := by
  cases n with
  | variableDefinition d =>
    simp only [Node.unplaced, enter, enterVariableDefinition, VariableDefinition.unplaced,
      TypeExpr.name_unplaced, TypeRef.ofExpr_unplaced]
    rfl
  | inlineFragment i =>
    simp only [Node.unplaced, enter, enterInlineFragment, InlineFragment.unplaced_eq]
    cases i.condition <;> rfl
  | field g =>
    simp only [Node.unplaced, enter, enterField, Field.unplaced_eq, Provider.standard]
  | value v => cases v <;> rfl
  | objectField g =>
    simp only [Node.unplaced, enter, enterObjectField, ObjectField.unplaced_eq,
      Provider.standard]
  | _ => rfl

theorem Change.lawful_unplaced (s : Schema) (d : Document) (maxErrors : Option Nat)
    (paths : Bool) :
    Change.unplaced.Lawful ⟨.standard, maxErrors, paths⟩ ⟨s, d⟩ ⟨s, d.unplaced⟩ where
  document := rfl
  classOf := Node.classOf_unplaced
  children := Node.children_unplaced
  limit := rfl
  attachPath := Diagnostic.unplaced_attachPath
  empty := rfl
  enter := by
    rintro f _ n rfl
    exact (Frame.enter_unplaced s f n).symm

namespace Rules

abbrev Unplaced (s : Schema) (d : Document) (r : Rule) : Prop :=
  r.Steady .unplaced ⟨s, d⟩ ⟨s, d.unplaced⟩

theorem unplaced_stateless {s : Schema} {d : Document} {handlers : Handlers}
    {reports : Subject → Visit → List Diagnostic}
    (h : ∀ v : Visit, reports ⟨s, d.unplaced⟩ v.unplaced =
      (reports ⟨s, d⟩ v).map Diagnostic.unplaced) :
    Unplaced s d (.stateless handlers reports) :=
  Rule.steady_stateless fun v _ hv => Visit.eq_unplaced hv ▸ h v

theorem unplaced_of_react {s : Schema} {d : Document} {r : Rule} (f : r.State → r.State)
    (hstart : f r.start = r.start)
    (h : ∀ (v : Visit) (x : r.State),
      let reaction := r.react (⟨s, d⟩ : Subject) v x
      r.react (⟨s, d.unplaced⟩ : Subject) v.unplaced (f x) =
        ⟨f reaction.state, reaction.reports.map Diagnostic.unplaced, reaction.flow,
          reaction.failure⟩) : Unplaced s d r := by
  refine ⟨fun x y => y = f x, hstart.symm, ?_⟩
  rintro v v' x _ hv rfl
  rw [Visit.eq_unplaced hv, h]
  exact ⟨rfl, rfl, rfl, rfl⟩

variable {s : Schema} {d : Document}

/-! ### Operations -/

def Known.unplaced (k : Known) : Known := k.map fun (name, _) => (name, none)

theorem first?_unplaced (k : Known) (name : String) :
    Known.first? k.unplaced name = (Known.first? k name).map fun _ => none := by
  rw [Known.first?, Known.first?, Known.unplaced, List.find?_map, Option.map_map, Option.map_map]
  rfl

theorem meet_unplaced (k : Known) (n : Name) (problem : String → Problem) :
    meet k.unplaced n.unplaced problem =
      ((meet k n problem).1.unplaced, (meet k n problem).2.map Diagnostic.unplaced) := by
  have hname : n.unplaced.text = n.text := rfl
  rw [meet, meet, hname, first?_unplaced]
  cases Known.first? k n.text <;> rfl

theorem unplaced_uniqueOperationNames : Unplaced s d uniqueOperationNames := by
  refine unplaced_of_react Known.unplaced rfl fun v k => ?_
  obtain ⟨phase, node, path, frame, depth⟩ := v
  cases phase with
  | leave => cases node <;> rfl
  | enter =>
    cases node with
    | operation o =>
      obtain ⟨kind, name, definitions, directives, selections, loc⟩ := o
      cases name with
      | none => rfl
      | some n => exact congrArg (fun x => Reaction.next x.1 x.2) (meet_unplaced k n _)
    | _ => rfl

theorem unplaced_loneAnonymousOperation : Unplaced s d loneAnonymousOperation := by
  refine unplaced_of_react id rfl fun v count => ?_
  obtain ⟨phase, node, path, frame, depth⟩ := v
  cases phase with
  | leave => cases node <;> rfl
  | enter =>
    cases node with
    | document x =>
      have hlength : x.unplaced.operations.length = x.operations.length := by
        rw [x.operations_unplaced, List.length_map]
      exact congrArg (fun n => Reaction.next n []) hlength
    | operation o =>
      obtain ⟨kind, name, definitions, directives, selections, loc⟩ := o
      simp only [loneAnonymousOperation, Visit.unplaced, Node.unplaced, Operation.unplaced,
        Option.isNone_map, id]
      split <;> rfl
    | _ => rfl

/-! ### Types -/

theorem unknownType_unplaced (n : Name) :
    unknownType s n.unplaced = (unknownType s n).map Diagnostic.unplaced := by
  have hname : n.unplaced.text = n.text := rfl
  rw [unknownType, unknownType, hname]
  split <;> rfl

theorem leafCondition_unplaced (fragment : Option String) (n : Name) :
    leafCondition s fragment n.unplaced =
      (leafCondition s fragment n).map Diagnostic.unplaced := by
  have hname : n.unplaced.text = n.text := rfl
  rw [leafCondition, leafCondition, hname]
  cases s.type? n.text with
  | none => rfl
  | some t =>
    simp only
    split <;> rfl

theorem condition_unplaced {report : Name → List Diagnostic}
    (h : ∀ n : Name, report n.unplaced = (report n).map Diagnostic.unplaced)
    (condition : Option Name) :
    ((condition.map Name.unplaced).map report).getD [] =
      ((condition.map report).getD []).map Diagnostic.unplaced := by
  cases condition with
  | none => rfl
  | some n => exact h n

theorem unplaced_knownTypeNames : Unplaced s d knownTypeNames := by
  refine unplaced_stateless fun v => ?_
  obtain ⟨phase, node, path, frame, depth⟩ := v
  cases phase with
  | leave => cases node <;> rfl
  | enter =>
    cases node with
    | variableDefinition x =>
      simp only [Visit.unplaced, Node.unplaced, VariableDefinition.unplaced,
        TypeExpr.name_unplaced]
      exact unknownType_unplaced _
    | fragment f => exact unknownType_unplaced _
    | inlineFragment i =>
      simp only [Visit.unplaced, Node.unplaced, InlineFragment.unplaced_eq]
      exact condition_unplaced unknownType_unplaced _
    | _ => rfl

theorem unplaced_fragmentsOnCompositeTypes : Unplaced s d fragmentsOnCompositeTypes := by
  refine unplaced_stateless fun v => ?_
  obtain ⟨phase, node, path, frame, depth⟩ := v
  cases phase with
  | leave => cases node <;> rfl
  | enter =>
    cases node with
    | fragment f => exact leafCondition_unplaced _ _
    | inlineFragment i =>
      simp only [Visit.unplaced, Node.unplaced, InlineFragment.unplaced_eq]
      exact condition_unplaced (leafCondition_unplaced none) _
    | _ => rfl

theorem unplaced_variablesAreInputTypes : Unplaced s d variablesAreInputTypes := by
  refine unplaced_stateless fun v => ?_
  obtain ⟨phase, node, path, frame, depth⟩ := v
  cases phase with
  | leave => cases node <;> rfl
  | enter =>
    cases node with
    | variableDefinition x =>
      have hname : x.type.unplaced.name.text = x.type.name.text := by
        rw [TypeExpr.name_unplaced]
        rfl
      simp only [Visit.unplaced, Node.unplaced, VariableDefinition.unplaced, hname,
        TypeExpr.print_unplaced]
      cases s.type? x.type.name.text with
      | none => rfl
      | some t =>
        simp only [TypeExpr.name_unplaced]
        split <;> rfl
    | _ => rfl

/-! ### Fields -/

theorem unplaced_scalarLeafs : Unplaced s d scalarLeafs := by
  refine unplaced_stateless fun v => ?_
  obtain ⟨phase, node, path, frame, depth⟩ := v
  cases phase with
  | leave => cases node <;> rfl
  | enter =>
    cases node with
    | field f =>
      simp only [Visit.unplaced, Node.unplaced, Field.unplaced_eq]
      cases frame.output with
      | none => rfl
      | some output =>
        simp only [List.isEmpty_map]
        cases s.resolve? output with
        | none => rfl
        | some t =>
          simp only
          split
          · split <;> rfl
          · split <;> rfl
    | _ => rfl

theorem unplaced_fieldsOnCorrectType : Unplaced s d fieldsOnCorrectType := by
  refine unplaced_of_react id rfl fun v _ => ?_
  obtain ⟨phase, node, path, frame, depth⟩ := v
  cases phase with
  | leave => cases node <;> rfl
  | enter =>
    cases node with
    | field f =>
      simp only [fieldsOnCorrectType, Visit.unplaced, Node.unplaced, Field.unplaced_eq]
      cases frame.parent with
      | none => rfl
      | some parent =>
        cases frame.field with
        | some _ => rfl
        | none =>
          simp only
          cases narrowerTypes? s parent f.name <;> rfl
    | _ => rfl

/-! ### Fragments -/

theorem unplaced_uniqueFragmentNames : Unplaced s d uniqueFragmentNames := by
  refine unplaced_of_react Known.unplaced rfl fun v k => ?_
  obtain ⟨phase, node, path, frame, depth⟩ := v
  cases phase with
  | leave => cases node <;> rfl
  | enter =>
    cases node with
    | fragment f => exact congrArg (fun x => Reaction.next x.1 x.2) (meet_unplaced k f.name _)
    | _ => rfl

theorem unplaced_knownFragmentNames : Unplaced s d knownFragmentNames := by
  refine unplaced_stateless fun v => ?_
  obtain ⟨phase, node, path, frame, depth⟩ := v
  cases phase with
  | leave => cases node <;> rfl
  | enter =>
    cases node with
    | fragmentSpread x =>
      have hname : x.unplaced.name.text = x.name.text := rfl
      simp only [Visit.unplaced, Node.unplaced, hname, d.fragment?_unplaced, Option.isNone_map]
      split <;> rfl
    | _ => rfl

def Entered.unplaced (e : Entered) : Entered :=
  ⟨e.operations.map Operation.unplaced, e.fragments.map Fragment.unplaced⟩

theorem unused_unplaced (e : Entered) :
    e.unplaced.unused d.unplaced = (e.unused d).map Fragment.unplaced := by
  have hused : (e.unplaced.operations.flatMap fun o =>
      (d.unplaced.referencedFragments o).map (·.name.text)) =
      e.operations.flatMap fun o => (d.referencedFragments o).map (·.name.text) := by
    rw [Entered.unplaced, List.flatMap_map]
    refine List.flatMap_congr fun o _ => ?_
    rw [d.referencedFragments_unplaced, List.map_map]
    rfl
  rw [Entered.unused, Entered.unused, hused, Entered.unplaced, List.filter_map]
  rfl

theorem unplaced_noUnusedFragments : Unplaced s d noUnusedFragments := by
  refine unplaced_of_react Entered.unplaced rfl fun v (e : Entered) => ?_
  obtain ⟨phase, node, path, frame, depth⟩ := v
  cases phase with
  | enter =>
    cases node with
    | operation o =>
      simp [noUnusedFragments, Visit.unplaced, Node.unplaced, Reaction.next, Entered.unplaced]
    | fragment f =>
      simp [noUnusedFragments, Visit.unplaced, Node.unplaced, Reaction.next, Entered.unplaced]
    | _ => rfl
  | leave =>
    cases node with
    | document _ =>
      have hunused : (e.unplaced.unused d.unplaced).map (fun f =>
          Diagnostic.atLocations (.unusedFragment f.name.text) [f.loc]) =
          ((e.unused d).map fun f =>
            Diagnostic.atLocations (.unusedFragment f.name.text) [f.loc]).map
              Diagnostic.unplaced := by
        rw [unused_unplaced, List.map_map, List.map_map]
        rfl
      exact congrArg (Reaction.next e.unplaced) hunused
    | _ => rfl

def CycleSearch.unplaced (c : CycleSearch) : CycleSearch :=
  ⟨c.searched, c.found.map Diagnostic.unplaced⟩

theorem cycleDiagnostic_unplaced (name : String) (cycle : List FragmentSpread) :
    cycleDiagnostic name (cycle.map FragmentSpread.unplaced) =
      (cycleDiagnostic name cycle).unplaced := by
  have hnames : (cycle.map FragmentSpread.unplaced).dropLast.map (·.name.text) =
      cycle.dropLast.map (·.name.text) := by
    rw [← List.map_dropLast, List.map_map]
    rfl
  have hplaces : ∀ l ∈ (cycle.map FragmentSpread.unplaced).map (·.loc), l = none := by
    simp [FragmentSpread.unplaced]
  rw [cycleDiagnostic, hnames, Diagnostic.atLocations_of_none hplaces]
  rfl

theorem searchCycles_unplaced (n : Nat) (f : Fragment) (trail : List FragmentSpread)
    (starts : List (String × Nat)) (c : CycleSearch) :
    searchCycles d.unplaced n f.unplaced (trail.map FragmentSpread.unplaced) starts c.unplaced =
      (searchCycles d n f trail starts c).unplaced := by
  -- On the bound on the depth, and for each fragment on the spreads that are followed.
  induction n generalizing f trail starts c with
  | zero => rfl
  | succ n ih =>
    have hname : f.unplaced.name.text = f.name.text := rfl
    have hselections : f.unplaced.selections = f.selections.map Selection.unplaced := rfl
    have hsearched : c.unplaced.searched = c.searched := rfl
    rw [searchCycles, searchCycles, hname, hselections, hsearched, List.length_map,
      Selection.spreads_unplaced]
    split
    · rfl
    · refine List.foldl_map.trans ?_
      generalize (f.name.text, trail.length) :: starts = starts
      have hstart : (⟨f.name.text :: c.searched, c.unplaced.found⟩ : CycleSearch) =
          CycleSearch.unplaced ⟨f.name.text :: c.searched, c.found⟩ := rfl
      rw [hstart]
      generalize (⟨f.name.text :: c.searched, c.found⟩ : CycleSearch) = c
      induction Selection.spreads f.selections generalizing c with
      | nil => rfl
      | cons x xs ihxs =>
        have hx : x.unplaced.name.text = x.name.text := rfl
        have htrail : trail.map FragmentSpread.unplaced ++ [x.unplaced] =
            (trail ++ [x]).map FragmentSpread.unplaced := by
          rw [List.map_append]
          rfl
        rw [List.foldl_cons, List.foldl_cons, ← ihxs]
        congr 1
        simp only [hx, htrail, ← List.map_drop, cycleDiagnostic_unplaced, d.fragment?_unplaced]
        cases starts.find? (·.1 == x.name.text) with
        | some start =>
          simp only [CycleSearch.unplaced, List.map_append, List.map_cons, List.map_nil]
        | none =>
          cases d.fragment? x.name.text with
          | none => rfl
          | some g => exact ih g (trail ++ [x]) starts c

theorem unplaced_noFragmentCycles : Unplaced s d noFragmentCycles := by
  refine unplaced_of_react id rfl fun v searched => ?_
  obtain ⟨phase, node, path, frame, depth⟩ := v
  cases phase with
  | leave => cases node <;> rfl
  | enter =>
    cases node with
    | fragment f =>
      have hsearch := searchCycles_unplaced (d := d) (d.fragments.length + 1) f [] []
        ⟨searched, []⟩
      simp only [noFragmentCycles, Visit.unplaced, Node.unplaced, d.fragments_unplaced,
        List.length_map, id]
      exact congrArg (fun c => Reaction.next c.searched c.found) hsearch
    | _ => rfl

/-! ### Variables -/

theorem repeatedNames_unplaced (problem : String → Problem)
    (items : List (String × Option Location)) :
    repeatedNames problem (items.map fun (name, _) => (name, none)) =
      (repeatedNames problem items).map Diagnostic.unplaced := by
  rw [repeatedNames, repeatedNames, List.map_map, List.map_flatMap]
  refine List.flatMap_congr fun name _ => ?_
  have hplaces : ((items.map fun (name, _) => (name, none)).filter (·.1 == name)).map Prod.snd =
      ((items.filter (·.1 == name)).map Prod.snd).map fun _ => (none : Option Location) := by
    rw [List.filter_map, List.map_map, List.map_map]
    rfl
  simp only [hplaces, List.length_map]
  split
  · rw [List.map_singleton, Diagnostic.unplaced_atLocations,
      Diagnostic.atLocations_of_none (by simp)]
  · rfl

theorem repeatedNames_map_unplaced {α : Type} {name : α → String} {loc : α → Option Location}
    {u : α → α} (hname : ∀ a, name (u a) = name a)
    (hloc : ∀ a, loc (u a) = none) (problem : String → Problem) (as : List α) :
    repeatedNames problem ((as.map u).map fun a => (name a, loc a)) =
      (repeatedNames problem (as.map fun a => (name a, loc a))).map Diagnostic.unplaced := by
  rw [← repeatedNames_unplaced, List.map_map, List.map_map]
  congr 1
  refine List.map_congr_left fun a _ => ?_
  rw [Function.comp_apply, hname, hloc]
  rfl

theorem unplaced_uniqueVariableNames : Unplaced s d uniqueVariableNames := by
  refine unplaced_stateless fun v => ?_
  obtain ⟨phase, node, path, frame, depth⟩ := v
  cases phase with
  | leave => cases node <;> rfl
  | enter =>
    cases node with
    | operation o =>
      exact repeatedNames_map_unplaced (u := VariableDefinition.unplaced) (fun _ => rfl)
        (fun _ => rfl) _ o.variableDefinitions
    | _ => rfl

theorem undefinedVariables_unplaced (o : Operation) :
    undefinedVariables d.unplaced o.unplaced =
      (undefinedVariables d o).map Variable.unplaced := by
  rw [undefinedVariables, undefinedVariables, d.variableUses_unplaced, List.filter_map]
  congr 1
  refine List.filter_congr fun x _ => ?_
  simp only [Function.comp_apply, Operation.unplaced, List.any_map]
  rfl

theorem unplaced_noUndefinedVariables : Unplaced s d noUndefinedVariables := by
  refine unplaced_stateless fun v => ?_
  obtain ⟨phase, node, path, frame, depth⟩ := v
  cases phase with
  | enter => cases node <;> rfl
  | leave =>
    cases node with
    | operation o =>
      simp only [Visit.unplaced, Node.unplaced, undefinedVariables_unplaced, List.map_map]
      refine List.map_congr_left fun x _ => ?_
      simp only [Function.comp_apply, Operation.unplaced, Option.map_map]
      rfl
    | _ => rfl

theorem unusedVariables_unplaced (o : Operation) :
    unusedVariables d.unplaced o.unplaced =
      (unusedVariables d o).map VariableDefinition.unplaced := by
  have hused : (d.unplaced.variableUses o.unplaced).map (·.name) =
      (d.variableUses o).map (·.name) := by
    rw [d.variableUses_unplaced, List.map_map]
    rfl
  have hdefinitions : o.unplaced.variableDefinitions =
      o.variableDefinitions.map VariableDefinition.unplaced := rfl
  rw [unusedVariables, unusedVariables, hused, hdefinitions, List.filter_map]
  rfl

theorem unplaced_noUnusedVariables : Unplaced s d noUnusedVariables := by
  refine unplaced_stateless fun v => ?_
  obtain ⟨phase, node, path, frame, depth⟩ := v
  cases phase with
  | enter => cases node <;> rfl
  | leave =>
    cases node with
    | operation o =>
      simp only [Visit.unplaced, Node.unplaced, unusedVariables_unplaced, List.map_map]
      refine List.map_congr_left fun x _ => ?_
      simp only [Function.comp_apply, Operation.unplaced, Option.map_map]
      rfl
    | _ => rfl

/-! ### Directives -/

theorem directivesOn_unplaced (n : Node) :
    directivesOn n.unplaced =
      (directivesOn n).map fun (ds, location) => (ds.map Directive.unplaced, location) := by
  cases n with
  | inlineFragment i => simp only [Node.unplaced, InlineFragment.unplaced_eq]; rfl
  | field f => simp only [Node.unplaced, Field.unplaced_eq]; rfl
  | _ => rfl

theorem misplaced_unplaced (location : DirectiveLocation) (x : Directive) :
    misplaced s location x.unplaced = (misplaced s location x).map Diagnostic.unplaced := by
  have hname : x.unplaced.name = x.name := rfl
  rw [misplaced, misplaced, hname]
  cases s.directive? x.name with
  | none => rfl
  | some definition =>
    simp only
    split <;> rfl

theorem unplaced_knownDirectives : Unplaced s d knownDirectives := by
  refine unplaced_stateless fun v => ?_
  obtain ⟨phase, node, path, frame, depth⟩ := v
  cases phase with
  | leave => rfl
  | enter =>
    simp only [Visit.unplaced, directivesOn_unplaced]
    cases directivesOn node with
    | none => rfl
    | some x =>
      simp only [Option.map_some, List.flatMap_map, List.map_flatMap]
      exact List.flatMap_congr fun y _ => misplaced_unplaced x.2 y

theorem find?_directive_unplaced (name : String) (ds : List Directive) :
    (ds.map Directive.unplaced).find? (·.name == name) =
      (ds.find? (·.name == name)).map Directive.unplaced := by
  rw [List.find?_map]
  rfl

theorem repeatedDirectives_unplaced (seen ds : List Directive) :
    repeatedDirectives s (seen.map Directive.unplaced) (ds.map Directive.unplaced) =
      (repeatedDirectives s seen ds).map Diagnostic.unplaced := by
  induction ds generalizing seen with
  | nil => rfl
  | cons x xs ih =>
    have hname : x.unplaced.name = x.name := rfl
    rw [List.map_cons, repeatedDirectives, repeatedDirectives, hname, find?_directive_unplaced]
    split
    · cases seen.find? (·.name == x.name) with
      | some first =>
        simp only [Option.map_some, List.map_cons, ih]
        rfl
      | none => exact ih (x :: seen)
    · exact ih seen

theorem unplaced_uniqueDirectivesPerLocation : Unplaced s d uniqueDirectivesPerLocation := by
  refine unplaced_stateless fun v => ?_
  obtain ⟨phase, node, path, frame, depth⟩ := v
  cases phase with
  | leave => rfl
  | enter =>
    simp only [Visit.unplaced, directivesOn_unplaced]
    cases directivesOn node with
    | none => rfl
    | some x => exact repeatedDirectives_unplaced [] x.1

/-! ### Arguments -/

theorem unplaced_knownArgumentNames : Unplaced s d knownArgumentNames := by
  refine unplaced_stateless fun v => ?_
  obtain ⟨phase, node, path, frame, depth⟩ := v
  cases phase with
  | leave => cases node <;> rfl
  | enter =>
    cases node with
    | argument a =>
      simp only [Visit.unplaced, Node.unplaced]
      cases frame.argument with
      | some _ => rfl
      | none =>
        cases frame.owner with
        | none => rfl
        | some owner =>
          cases owner with
          | directive _ => rfl
          | field _ => cases frame.parent <;> rfl
    | _ => rfl

theorem unplaced_uniqueArgumentNames : Unplaced s d uniqueArgumentNames := by
  have harguments : ∀ as : List Argument,
      repeatedNames .repeatedArgument
          ((as.map Argument.unplaced).map fun a => (a.name, a.loc)) =
        (repeatedNames .repeatedArgument (as.map fun a => (a.name, a.loc))).map
          Diagnostic.unplaced :=
    repeatedNames_map_unplaced (u := Argument.unplaced) (fun _ => rfl) (fun _ => rfl) _
  refine unplaced_stateless fun v => ?_
  obtain ⟨phase, node, path, frame, depth⟩ := v
  cases phase with
  | leave => cases node <;> rfl
  | enter =>
    cases node with
    | field f =>
      simp only [Visit.unplaced, Node.unplaced, Field.unplaced_eq]
      exact harguments f.arguments
    | directive x => exact harguments x.arguments
    | _ => rfl

theorem unplaced_providedRequiredArguments : Unplaced s d providedRequiredArguments := by
  refine unplaced_stateless fun v => ?_
  obtain ⟨phase, node, path, frame, depth⟩ := v
  cases phase with
  | leave => cases node <;> rfl
  | enter =>
    cases node with
    | field f =>
      simp only [Visit.unplaced, Node.unplaced, Field.unplaced_eq]
      cases frame.field with
      | none => rfl
      | some definition =>
        simp only [List.map_map]
        rfl
    | directive x =>
      simp only [Visit.unplaced, Node.unplaced, Directive.unplaced]
      cases frame.directive with
      | none => cases frame.field <;> rfl
      | some definition =>
        cases frame.field <;> simp only [List.map_map] <;> rfl
    | _ => rfl

/-! ### Values -/

end Rules

/-- No check of a scalar looks at the places in a literal. -/
def Schema.ChecksUnplaced (s : Schema) : Prop :=
  ∀ t check, .scalar t ∈ s.types → t.check = some check → ∀ v : Value, check v.unplaced = check v

theorem Schema.reject?_unplaced {s : Schema} (hs : s.ChecksUnplaced) {r : TypeRef}
    {t : ScalarType} (ht : s.resolve? r = some (.scalar t)) (v : Value) :
    t.reject? v.unplaced = t.reject? v := by
  have hmem : .scalar t ∈ s.types := List.mem_of_find?_eq_some ht
  rw [ScalarType.reject?, ScalarType.reject?]
  cases hcheck : t.check with
  | none => rfl
  | some check => exact hs t check hmem hcheck v

namespace Rules

variable {s : Schema} {d : Document}

theorem find?_objectField_unplaced (name : String) (fs : List ObjectField) :
    (fs.map ObjectField.unplaced).find? (·.name == name) =
      (fs.find? (·.name == name)).map ObjectField.unplaced := by
  simp only [List.find?_map, Function.comp_def, ObjectField.name_unplaced]

theorem repeatedFields_unplaced (seen fs : List ObjectField) :
    repeatedFields (seen.map ObjectField.unplaced) (fs.map ObjectField.unplaced) =
      (repeatedFields seen fs).map Diagnostic.unplaced := by
  induction fs generalizing seen with
  | nil => rfl
  | cons f fs ih =>
    rw [List.map_cons, repeatedFields, repeatedFields, f.name_unplaced,
      find?_objectField_unplaced]
    cases seen.find? (·.name == f.name) with
    | some first =>
      simp only [Option.map_some, List.map_cons, ih, ObjectField.unplaced_eq]
      rfl
    | none => exact ih (f :: seen)

theorem unplaced_uniqueInputFieldNames : Unplaced s d uniqueInputFieldNames := by
  refine unplaced_stateless fun v => ?_
  obtain ⟨phase, node, path, frame, depth⟩ := v
  cases phase with
  | leave => cases node <;> rfl
  | enter =>
    cases node with
    | value x =>
      cases x with
      | object fields _ =>
        simp only [Visit.unplaced, Node.unplaced, Value.unplaced, ObjectField.unplacedAll_eq]
        exact repeatedFields_unplaced [] fields
      | _ => rfl
    | _ => rfl

theorem enumProblem?_unplaced (e : EnumType) (v : Value) :
    enumProblem? e v.unplaced = enumProblem? e v := by
  have hprint := v.print_unplaced
  cases v with
  | enum name _ => rfl
  | _ => simp only [enumProblem?, Value.unplaced, ← hprint]

theorem leafProblem?_unplaced (hs : s.ChecksUnplaced) (expected : TypeRef) (v : Value) :
    leafProblem? s expected v.unplaced = leafProblem? s expected v := by
  rw [leafProblem?, leafProblem?]
  cases ht : s.resolve? expected with
  | none => rfl
  | some t =>
    cases t with
    | scalar t => simp only [scalarProblem?, Schema.reject?_unplaced hs ht, v.print_unplaced]
    | enum e => exact enumProblem?_unplaced e v
    | _ => simp only [v.print_unplaced]

theorem leafReports_unplaced (hs : s.ChecksUnplaced) (frame : Frame) (v : Value) :
    leafReports s frame v.unplaced = (leafReports s frame v).map Diagnostic.unplaced := by
  simp only [leafReports, leafProblem?_unplaced hs, Value.loc_unplaced]
  cases frame.input.bind fun t => leafProblem? s t v <;> rfl

def ValueCheck.unplaced (c : ValueCheck) : ValueCheck :=
  ⟨c.ignored, c.places.map fun _ => none⟩

theorem nullReports_unplaced (frame : Frame) (place place' : Option Location)
    (h : place' = none) :
    nullReports frame place' = (nullReports frame place).map Diagnostic.unplaced := by
  rw [nullReports, nullReports, h]
  cases frame.input with
  | none => rfl
  | some t =>
    simp only
    split <;> rfl

theorem missingFieldReports_unplaced (i : InputObjectType) (fs : List ObjectField)
    (v : Value) :
    missingFieldReports i (fs.map ObjectField.unplaced) v.unplaced =
      (missingFieldReports i fs v).map Diagnostic.unplaced := by
  have hnames : (fs.map ObjectField.unplaced).map (·.name) = fs.map (·.name) := by
    simp only [List.map_map, Function.comp_def, ObjectField.name_unplaced]
  rw [missingFieldReports, missingFieldReports, hnames, List.map_map, Value.loc_unplaced]
  rfl

theorem unknownFieldReports_unplaced (frame : Frame) (f : ObjectField) :
    unknownFieldReports s frame f.unplaced =
      (unknownFieldReports s frame f).map Diagnostic.unplaced := by
  rw [unknownFieldReports, unknownFieldReports, f.name_unplaced]
  split
  · rfl
  · simp only [ObjectField.unplaced_eq]
    cases inputObject? s frame.parentInput <;> rfl

theorem enterValueCheck_unplaced (hs : s.ChecksUnplaced) (visit : Visit) (v : Value)
    (c : ValueCheck) :
    enterValueCheck s visit.unplaced v.unplaced c.unplaced =
      ((enterValueCheck s visit v c).1.unplaced,
        (enterValueCheck s visit v c).2.map Diagnostic.unplaced) := by
  have hframe : visit.unplaced.frame = visit.frame := rfl
  have hleaf := leafReports_unplaced hs visit.frame v
  cases v with
  | null =>
    have hplace : c.unplaced.places.headD none = none := by
      obtain ⟨ignored, places⟩ := c
      cases places <;> rfl
    exact congrArg (Prod.mk c.unplaced) (nullReports_unplaced visit.frame _ _ hplace)
  | list vs loc =>
    simp only [enterValueCheck, Value.unplaced, hframe] at hleaf ⊢
    rw [hleaf]
    split <;> rfl
  | object fs loc =>
    have hmissing := fun i => missingFieldReports_unplaced i fs (.object fs loc)
    simp only [enterValueCheck, Value.unplaced, ObjectField.unplacedAll_eq, hframe]
      at hleaf hmissing ⊢
    cases inputObject? s visit.frame.input with
    | none => exact congrArg (Prod.mk (c.ignore visit.path).unplaced) hleaf
    | some i => exact congrArg (Prod.mk c.unplaced) (hmissing i)
  | «variable» _ => rfl
  | _ => exact congrArg (Prod.mk c.unplaced) hleaf

theorem unplaced_valuesOfCorrectType (hs : s.ChecksUnplaced) :
    Unplaced s d valuesOfCorrectType := by
  have hclose : ∀ c : ValueCheck, c.unplaced.close = c.close.unplaced := by
    rintro ⟨ignored, places⟩
    cases places <;> rfl
  refine unplaced_of_react ValueCheck.unplaced rfl fun v (c : ValueCheck) => ?_
  obtain ⟨phase, node, path, frame, depth⟩ := v
  cases phase with
  | enter =>
    cases node with
    | objectField f =>
      have hreports := unknownFieldReports_unplaced (s := s) frame f
      have hignored : c.unplaced.ignored = c.ignored := rfl
      simp only [valuesOfCorrectType, Visit.unplaced, Node.unplaced, hignored, hreports]
      simp only [ObjectField.unplaced_eq]
      split <;> rfl
    | value x =>
      have hvalue := enterValueCheck_unplaced hs ⟨.enter, .value x, path, frame, depth⟩ x c
      have hignored : c.unplaced.ignored = c.ignored := rfl
      simp only [valuesOfCorrectType, Visit.unplaced, Node.unplaced, hignored] at hvalue ⊢
      split
      · rfl
      · rw [hvalue]
        rfl
    | _ => rfl
  | leave =>
    cases node with
    | value x =>
      by_cases hpath : c.ignored = some path
      · simp only [valuesOfCorrectType, Visit.unplaced, Node.unplaced, ValueCheck.unplaced, hpath,
          if_true]
        rfl
      · simp only [valuesOfCorrectType, Visit.unplaced, Node.unplaced, ValueCheck.unplaced, hpath,
          if_false]
        rfl
    | argument _ => exact congrArg (Reaction.next · []) (hclose c)
    | variableDefinition _ => exact congrArg (Reaction.next · []) (hclose c)
    | objectField _ => exact congrArg (Reaction.next · []) (hclose c)
    | _ => rfl

end Rules

theorem StandardRule.unplaced_rule {s : Schema} (hs : s.ChecksUnplaced) (d : Document)
    (r : StandardRule) : Rules.Unplaced s d r.rule := by
  cases r with
  | uniqueOperationNames => exact Rules.unplaced_uniqueOperationNames
  | loneAnonymousOperation => exact Rules.unplaced_loneAnonymousOperation
  | knownTypeNames => exact Rules.unplaced_knownTypeNames
  | fragmentsOnCompositeTypes => exact Rules.unplaced_fragmentsOnCompositeTypes
  | variablesAreInputTypes => exact Rules.unplaced_variablesAreInputTypes
  | scalarLeafs => exact Rules.unplaced_scalarLeafs
  | fieldsOnCorrectType => exact Rules.unplaced_fieldsOnCorrectType
  | uniqueFragmentNames => exact Rules.unplaced_uniqueFragmentNames
  | knownFragmentNames => exact Rules.unplaced_knownFragmentNames
  | noUnusedFragments => exact Rules.unplaced_noUnusedFragments
  | noFragmentCycles => exact Rules.unplaced_noFragmentCycles
  | uniqueVariableNames => exact Rules.unplaced_uniqueVariableNames
  | noUndefinedVariables => exact Rules.unplaced_noUndefinedVariables
  | noUnusedVariables => exact Rules.unplaced_noUnusedVariables
  | knownDirectives => exact Rules.unplaced_knownDirectives
  | uniqueDirectivesPerLocation => exact Rules.unplaced_uniqueDirectivesPerLocation
  | knownArgumentNames => exact Rules.unplaced_knownArgumentNames
  | uniqueArgumentNames => exact Rules.unplaced_uniqueArgumentNames
  | valuesOfCorrectType => exact Rules.unplaced_valuesOfCorrectType hs
  | providedRequiredArguments => exact Rules.unplaced_providedRequiredArguments
  | uniqueInputFieldNames => exact Rules.unplaced_uniqueInputFieldNames

/-- Validating the document that is read without places gives the diagnostics of the document that
is read with them, in their order and with their messages and paths. Every list of locations is
empty, and the diagnostic that ends a run has none as before. -/
theorem Run.result_untracked {s : Schema} (hs : s.ChecksUnplaced) (rules : List StandardRule)
    (maxErrors : Option Nat) (paths : Bool) {source : String} {d : Document}
    (hd : Document.read true source = .ok d) :
    ∃ d', Document.read false source = .ok d' ∧
      (ofDocument ⟨.standard, maxErrors, paths⟩ ⟨s, d'⟩ (rules.map StandardRule.rule)).result =
        (ofDocument ⟨.standard, maxErrors, paths⟩ ⟨s, d⟩
          (rules.map StandardRule.rule)).result.map (List.map Diagnostic.unplaced) := by
  refine ⟨d.unplaced, by rw [Document.read_false, hd]; rfl, ?_⟩
  refine result_of_steady (Change.lawful_unplaced s d maxErrors paths)
    (fun _ => StandardRule.blind_of_mem) fun r hr => ?_
  obtain ⟨x, -, rfl⟩ := List.mem_map.1 hr
  exact x.unplaced_rule hs d

theorem Builtin.checkInt_unplaced (v : Value) : checkInt v.unplaced = checkInt v := by
  have hprint := v.print_unplaced
  cases v with
  | int _ _ => rfl
  | _ => simp only [checkInt, Value.unplaced, ← hprint]

def oneNumber : Schema :=
  let query : ObjectType := ⟨"Query", [⟨"f", .named "Int", [⟨"a", .named "Int", none⟩]⟩], []⟩
  ⟨[.object query, .scalar ⟨"Int", some Builtin.checkInt⟩], [], some query, none, none⟩

def notANumber : Document :=
  ⟨[.operation ⟨.query, none, [], [],
    [.field ⟨none, "f", [⟨"a", .boolean true (some ⟨1, 7⟩), some ⟨1, 4⟩⟩], [], [], some ⟨1, 2⟩⟩],
    some ⟨1, 1⟩⟩], 12⟩

theorem Run.result_untracked_notANumber :
    oneNumber.ChecksUnplaced ∧ Document.read true "{f(a: true)}" = .ok notANumber ∧
    ∃ d', Document.read false "{f(a: true)}" = .ok d' ∧
      (ofDocument ⟨.standard, some 1, false⟩ ⟨oneNumber, d'⟩
          ([.valuesOfCorrectType, .valuesOfCorrectType].map StandardRule.rule)).result =
        .ok [⟨.scalarRejected "Int cannot represent non-integer value: true", some [], none⟩,
          .limit] := by
  have hchecks : oneNumber.ChecksUnplaced := by
    intro t check ht hcheck v
    simp only [oneNumber, List.mem_cons, reduceCtorEq, TypeDef.scalar.injEq, List.not_mem_nil,
      or_false, false_or] at ht
    subst ht
    obtain rfl := Option.some.inj hcheck
    exact Builtin.checkInt_unplaced v
  have hread : Document.read true "{f(a: true)}" = .ok notANumber := rfl
  have hresult : (ofDocument ⟨.standard, some 1, false⟩ ⟨oneNumber, notANumber⟩
      ([.valuesOfCorrectType, .valuesOfCorrectType].map StandardRule.rule)).result =
        .ok [⟨.scalarRejected "Int cannot represent non-integer value: true", some [⟨1, 7⟩],
          none⟩, .limit] :=
    result_eq_ok.2 ⟨by decide +kernel, by decide +kernel⟩
  obtain ⟨d', hd', hsame⟩ := result_untracked hchecks
    [.valuesOfCorrectType, .valuesOfCorrectType] (some 1) false hread
  exact ⟨hchecks, hread, d', hd', by rw [hsame, hresult]; rfl⟩

end GraphQLCheck
