import GraphQLCheck.Proofs.Schema.Members
import GraphQLCheck.Schema.Loader
import Mathlib.Data.List.Nodup

/-!
Schemas with everything that has a name in the order of the names. Sorting by name keeps the order
of things that share a name, so that a look-up by name finds the same before and after
(`find?_sorted`); what an ordered schema answers is therefore what the schema answers, ordered.
The lists of interfaces, of members of a union and of what stands for an interface have an order
of their own and stay as they are.
-/
namespace GraphQLCheck

namespace Named

variable {α : Type} (nameOf : α → String)

theorem le_trans_name (a b c : α) (h : decide (nameOf a ≤ nameOf b) = true)
    (h' : decide (nameOf b ≤ nameOf c) = true) : decide (nameOf a ≤ nameOf c) = true :=
  decide_eq_true (String.le_trans (of_decide_eq_true h) (of_decide_eq_true h'))

theorem le_total_name (a b : α) :
    (decide (nameOf a ≤ nameOf b) || decide (nameOf b ≤ nameOf a)) = true := by
  rw [Bool.or_eq_true, decide_eq_true_eq, decide_eq_true_eq]
  exact String.le_total _ _

theorem sorted_perm (as : List α) : (sorted nameOf as).Perm as := List.mergeSort_perm as _

theorem pairwise_sorted (as : List α) :
    (sorted nameOf as).Pairwise fun a b => decide (nameOf a ≤ nameOf b) = true :=
  List.pairwise_mergeSort (le_trans_name nameOf) (le_total_name nameOf) as

theorem sorted_sorted (as : List α) : sorted nameOf (sorted nameOf as) = sorted nameOf as :=
  List.mergeSort_of_pairwise (pairwise_sorted nameOf as)

theorem filter_sorted (name : String) (as : List α) :
    (sorted nameOf as).filter (nameOf · == name) = as.filter (nameOf · == name) := by
  have hsame : (as.filter (nameOf · == name)).Pairwise
      fun a b => decide (nameOf a ≤ nameOf b) = true := by
    refine List.pairwise_of_forall_mem_list fun a ha b hb => ?_
    have hab : nameOf a = nameOf b :=
      (eq_of_beq (List.mem_filter.1 ha).2).trans (eq_of_beq (List.mem_filter.1 hb).2).symm
    exact decide_eq_true (hab ▸ String.le_refl _)
  have hsub := (List.sublist_mergeSort (le_trans_name nameOf) (le_total_name nameOf) hsame
    List.filter_sublist).filter (nameOf · == name)
  rw [List.filter_filter] at hsub
  simp only [Bool.and_self] at hsub
  exact (hsub.eq_of_length ((sorted_perm nameOf as).filter _).length_eq.symm).symm

theorem find?_sorted (name : String) (as : List α) :
    find? nameOf name (sorted nameOf as) = find? nameOf name as := by
  rw [find?, find?, ← List.head?_filter, ← List.head?_filter, filter_sorted]

theorem find?_map {f : α → α} (hf : ∀ a, nameOf (f a) = nameOf a) (name : String)
    (as : List α) : find? nameOf name (as.map f) = (find? nameOf name as).map f := by
  rw [find?, find?, List.find?_map]
  simp only [Function.comp_def, hf]

theorem sorted_map {f : α → α} (hf : ∀ a, nameOf (f a) = nameOf a) (as : List α) :
    sorted nameOf (as.map f) = (sorted nameOf as).map f :=
  (List.map_mergeSort fun a _ b _ => by rw [hf, hf]).symm

theorem sorted_eq_of_perm {as bs : List α} (h : (as.map nameOf).Nodup) (hp : as.Perm bs) :
    sorted nameOf as = sorted nameOf bs := by
  have hperm : (sorted nameOf as).Perm (sorted nameOf bs) :=
    (sorted_perm nameOf as).trans (hp.trans (sorted_perm nameOf bs).symm)
  refine List.Perm.eq_of_pairwise (fun a b ha hb hab hba => ?_) (pairwise_sorted nameOf as)
    (pairwise_sorted nameOf bs) hperm
  have ha := (mem_sorted nameOf).1 ha
  have hb := hp.mem_iff.2 ((mem_sorted nameOf).1 hb)
  exact List.inj_on_of_nodup_map h ha hb
    (String.le_antisymm (of_decide_eq_true hab) (of_decide_eq_true hba))

end Named

theorem sortedNames_eq_of_perm {as bs : List String} (h : as.Perm bs) :
    sortedNames as = sortedNames bs := by
  refine List.Perm.eq_of_pairwise
    (fun a b _ _ hab hba => String.le_antisymm (of_decide_eq_true hab) (of_decide_eq_true hba))
    (List.pairwise_mergeSort (Named.le_trans_name id) (Named.le_total_name id) as)
    (List.pairwise_mergeSort (Named.le_trans_name id) (Named.le_total_name id) bs) ?_
  exact (List.mergeSort_perm as _).trans (h.trans (List.mergeSort_perm bs _).symm)

def FieldDef.ordered (f : FieldDef) : FieldDef :=
  { f with arguments := Named.sorted InputDef.name f.arguments }

def orderedFields (fields : List FieldDef) : List FieldDef :=
  Named.sorted FieldDef.name (fields.map FieldDef.ordered)

def ObjectType.ordered (o : ObjectType) : ObjectType := { o with fields := orderedFields o.fields }

def InterfaceType.ordered (i : InterfaceType) : InterfaceType :=
  { i with fields := orderedFields i.fields }

def EnumType.ordered (e : EnumType) : EnumType := { e with values := sortedNames e.values }

def InputObjectType.ordered (i : InputObjectType) : InputObjectType :=
  { i with fields := Named.sorted InputDef.name i.fields }

def TypeDef.ordered : TypeDef → TypeDef
  | .object o => .object o.ordered
  | .interface i => .interface i.ordered
  | .enum e => .enum e.ordered
  | .input i => .input i.ordered
  | .union u => .union u
  | .scalar s => .scalar s

def DirectiveDef.ordered (d : DirectiveDef) : DirectiveDef :=
  { d with arguments := Named.sorted InputDef.name d.arguments }

def Schema.ordered (s : Schema) : Schema :=
  { types := Named.sorted TypeDef.name (s.types.map TypeDef.ordered)
    directives := Named.sorted DirectiveDef.name (s.directives.map DirectiveDef.ordered)
    queryRoot := s.queryRoot.map ObjectType.ordered
    mutationRoot := s.mutationRoot.map ObjectType.ordered
    subscriptionRoot := s.subscriptionRoot.map ObjectType.ordered }

@[simp]
theorem FieldDef.argument?_ordered (f : FieldDef) (name : String) :
    f.ordered.argument? name = f.argument? name :=
  Named.find?_sorted InputDef.name name f.arguments

@[simp]
theorem DirectiveDef.argument?_ordered (d : DirectiveDef) (name : String) :
    d.ordered.argument? name = d.argument? name :=
  Named.find?_sorted InputDef.name name d.arguments

@[simp]
theorem InputObjectType.field?_ordered (i : InputObjectType) (name : String) :
    i.ordered.field? name = i.field? name :=
  Named.find?_sorted InputDef.name name i.fields

theorem find?_orderedFields (fields : List FieldDef) (name : String) :
    Named.find? FieldDef.name name (orderedFields fields) =
      (Named.find? FieldDef.name name fields).map FieldDef.ordered := by
  rw [orderedFields, Named.find?_sorted]
  exact Named.find?_map FieldDef.name (f := FieldDef.ordered) (fun _ => rfl) name fields

namespace TypeDef

variable (t u : TypeDef)

@[simp]
theorem name_ordered : t.ordered.name = t.name := by cases t <;> rfl

@[simp]
theorem isInput_ordered : t.ordered.isInput = t.isInput := by cases t <;> rfl

@[simp]
theorem isOutput_ordered : t.ordered.isOutput = t.isOutput := by cases t <;> rfl

@[simp]
theorem isComposite_ordered : t.ordered.isComposite = t.isComposite := by cases t <;> rfl

@[simp]
theorem isLeaf_ordered : t.ordered.isLeaf = t.isLeaf := by cases t <;> rfl

@[simp]
theorem isAbstract_ordered : t.ordered.isAbstract = t.isAbstract := by cases t <;> rfl

@[simp]
theorem object?_ordered : t.ordered.object? = t.object?.map ObjectType.ordered := by
  cases t <;> rfl

@[simp]
theorem interface?_ordered : t.ordered.interface? = t.interface?.map InterfaceType.ordered := by
  cases t <;> rfl

@[simp]
theorem enum?_ordered : t.ordered.enum? = t.enum?.map EnumType.ordered := by cases t <;> rfl

@[simp]
theorem input?_ordered : t.ordered.input? = t.input?.map InputObjectType.ordered := by
  cases t <;> rfl

@[simp]
theorem fields?_ordered : t.ordered.fields? = t.fields?.map orderedFields := by cases t <;> rfl

theorem isSubType_ordered (ht : t.interface?.isSome = true) :
    t.ordered.isSubType u.ordered = t.isSubType u := by
  cases t with
  | interface i => cases u <;> rfl
  | _ => simp [interface?] at ht

@[simp]
theorem field?_ordered (name : String) :
    t.ordered.field? name = (t.field? name).map FieldDef.ordered := by
  rw [field?, field?, fields?_ordered]
  cases t.fields? with
  | none => rfl
  | some fields => exact find?_orderedFields fields name

end TypeDef

namespace Schema

variable (s : Schema)

@[simp]
theorem type?_ordered (name : String) :
    s.ordered.type? name = (s.type? name).map TypeDef.ordered := by
  rw [type?, ordered, Named.find?_sorted, Named.find?_map _ TypeDef.name_ordered, type?]

@[simp]
theorem directive?_ordered (name : String) :
    s.ordered.directive? name = (s.directive? name).map DirectiveDef.ordered := by
  rw [directive?, ordered, Named.find?_sorted]
  exact Named.find?_map DirectiveDef.name (f := DirectiveDef.ordered) (fun _ => rfl) name
    s.directives

@[simp]
theorem resolve?_ordered (t : TypeRef) :
    s.ordered.resolve? t = (s.resolve? t).map TypeDef.ordered :=
  s.type?_ordered t.name

@[simp]
theorem root?_ordered (kind : OperationKind) :
    s.ordered.root? kind = (s.root? kind).map ObjectType.ordered := by
  cases kind <;> rfl

theorem typeNames_ordered : s.ordered.typeNames = s.typeNames := by
  have hnames : (s.types.map TypeDef.ordered).map TypeDef.name = s.types.map TypeDef.name := by
    rw [List.map_map]
    exact List.map_congr_left fun t _ => t.name_ordered
  rw [typeNames, typeNames, ← hnames]
  exact sortedNames_eq_of_perm ((Named.sorted_perm TypeDef.name _).map TypeDef.name)

@[simp]
theorem possibleObjects_ordered (t : TypeDef) :
    s.ordered.possibleObjects t.ordered = (s.possibleObjects t).map ObjectType.ordered := by
  have hnamed : ∀ names : List String,
      names.filterMap (fun n => (s.ordered.type? n).bind TypeDef.object?) =
        (names.filterMap fun n => (s.type? n).bind TypeDef.object?).map ObjectType.ordered := by
    intro names
    rw [List.map_filterMap]
    refine List.filterMap_congr fun n _ => ?_
    rw [type?_ordered]
    cases s.type? n with
    | none => rfl
    | some t => exact t.object?_ordered
  cases t with
  | object o => rfl
  | interface i => exact hnamed i.possibleTypes
  | union u => exact hnamed u.possibleTypes
  | scalar x => rfl
  | enum e => rfl
  | input i => rfl

@[simp]
theorem hasInputType_ordered (i : InputDef) : s.ordered.hasInputType i = s.hasInputType i := by
  rw [hasInputType, hasInputType, resolve?_ordered]
  cases s.resolve? i.type with
  | none => rfl
  | some t => exact t.isInput_ordered

theorem inputFaults_sorted (fault : String → SchemaFault) (inputs : List InputDef) :
    s.ordered.inputFaults fault (Named.sorted InputDef.name inputs) =
      s.inputFaults fault inputs := by
  simp only [inputFaults, Named.sorted_sorted, hasInputType_ordered]

theorem fieldFaults_ordered (type : String) (f : FieldDef) :
    s.ordered.fieldFaults type f.ordered = s.fieldFaults type f := by
  have houtput : (s.ordered.resolve? f.type).any TypeDef.isOutput =
      (s.resolve? f.type).any TypeDef.isOutput := by
    rw [resolve?_ordered]
    cases s.resolve? f.type with
    | none => rfl
    | some t => exact t.isOutput_ordered
  simp only [fieldFaults, FieldDef.ordered, houtput, inputFaults_sorted]

theorem sorted_orderedFields (fields : List FieldDef) :
    Named.sorted FieldDef.name (orderedFields fields) =
      (Named.sorted FieldDef.name fields).map FieldDef.ordered := by
  rw [orderedFields, Named.sorted_sorted]
  exact Named.sorted_map FieldDef.name (f := FieldDef.ordered) (fun _ => rfl) fields

theorem fieldsFaults_ordered (type : String) (fields : List FieldDef) :
    (Named.sorted FieldDef.name (orderedFields fields)).flatMap (s.ordered.fieldFaults type) =
      (Named.sorted FieldDef.name fields).flatMap (s.fieldFaults type) := by
  rw [sorted_orderedFields, List.flatMap_map]
  simp only [fieldFaults_ordered]

theorem interfaceFaults_ordered (type : String) (interfaces : List String) :
    s.ordered.interfaceFaults type interfaces = s.interfaceFaults type interfaces := by
  rw [interfaceFaults, interfaceFaults]
  refine congrArg _ (List.filter_congr fun n _ => ?_)
  rw [type?_ordered]
  cases s.type? n with
  | none => rfl
  | some t => cases t <;> rfl

theorem typeFaults_ordered (t : TypeDef) : s.ordered.typeFaults t.ordered = s.typeFaults t := by
  cases t with
  | object o =>
    simp only [typeFaults, TypeDef.ordered, ObjectType.ordered, interfaceFaults_ordered,
      fieldsFaults_ordered]
  | interface i =>
    simp only [typeFaults, TypeDef.ordered, InterfaceType.ordered, interfaceFaults_ordered,
      fieldsFaults_ordered]
  | union u =>
    simp only [typeFaults, TypeDef.ordered]
    refine congrArg _ (List.filter_congr fun n _ => ?_)
    rw [type?_ordered]
    cases s.type? n with
    | none => rfl
    | some t => cases t <;> rfl
  | input i => exact s.inputFaults_sorted (.fieldType · i.name) i.fields
  | scalar x => rfl
  | enum e => rfl

theorem directiveFaults_ordered (d : DirectiveDef) :
    s.ordered.directiveFaults d.ordered = s.directiveFaults d :=
  s.inputFaults_sorted (.directiveArgumentType · d.name) d.arguments

/-- The faults of a schema are found in the order of names. -/
theorem faults_ordered : s.ordered.faults = s.faults := by
  have htypes : Named.sorted TypeDef.name s.ordered.types =
      (Named.sorted TypeDef.name s.types).map TypeDef.ordered :=
    (Named.sorted_sorted _ _).trans (Named.sorted_map TypeDef.name TypeDef.name_ordered s.types)
  have hdirectives : Named.sorted DirectiveDef.name s.ordered.directives =
      (Named.sorted DirectiveDef.name s.directives).map DirectiveDef.ordered :=
    (Named.sorted_sorted _ _).trans
      (Named.sorted_map DirectiveDef.name (f := DirectiveDef.ordered) (fun _ => rfl) s.directives)
  rw [faults, faults, htypes, hdirectives, List.flatMap_map, List.flatMap_map]
  simp only [typeFaults_ordered, directiveFaults_ordered]

end Schema

namespace Declarations

variable (d : Declarations) (s : Schema)

theorem rootFaults_ordered (kind : OperationKind) :
    d.rootFaults s.ordered kind = d.rootFaults s kind := by
  rw [rootFaults, rootFaults]
  cases d.rootName? kind with
  | none => rfl
  | some name =>
    simp only [Schema.type?_ordered]
    cases s.type? name with
    | none => rfl
    | some t => cases t <;> rfl

theorem root?_ordered (kind : OperationKind) :
    d.root? s.ordered kind = (d.root? s kind).map ObjectType.ordered := by
  rw [root?, root?]
  cases d.rootName? kind with
  | none => rfl
  | some name =>
    simp only [Option.bind_eq_bind, Option.bind_some, Schema.type?_ordered]
    cases s.type? name with
    | none => rfl
    | some t => exact t.object?_ordered

end Declarations
end GraphQLCheck
