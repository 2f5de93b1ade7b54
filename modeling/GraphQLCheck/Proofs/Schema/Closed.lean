import GraphQLCheck.Schema.Loader

/-!
What the loader promises of a schema: every reference in it leads to a type of the kind that is
wanted there, and its roots are among its types. The promise survives a change of the check of a
scalar, which is all that can be done to a loaded schema.
-/
namespace GraphQLCheck

namespace Schema

variable {s : Schema}

def fits (s : Schema) : TypeDef → Bool
  | .object o => fitsFields o.interfaces o.fields
  | .interface i => fitsFields i.interfaces i.fields
  | .union u => u.possibleTypes.all fun m => ((s.type? m).bind TypeDef.object?).isSome
  | .input i => i.fields.all s.hasInputType
  | .scalar _ | .enum _ => true
where
  fitsFields (interfaces : List String) (fields : List FieldDef) : Bool :=
    (interfaces.all fun i => ((s.type? i).bind TypeDef.interface?).isSome)
      && fields.all fun f =>
        (s.resolve? f.type).any TypeDef.isOutput && f.arguments.all s.hasInputType

theorem inputFaults_eq_nil {fault : String → SchemaFault} {inputs : List InputDef} :
    s.inputFaults fault inputs = [] ↔ inputs.all s.hasInputType := by
  simp [inputFaults, Named.mem_sorted]

theorem fieldFaults_eq_nil {type : String} {f : FieldDef} :
    s.fieldFaults type f = [] ↔
      ((s.resolve? f.type).any TypeDef.isOutput && f.arguments.all s.hasInputType) := by
  rw [fieldFaults, List.append_eq_nil_iff, inputFaults_eq_nil, Bool.and_eq_true]
  simp

theorem missing_eq_nil {α β : Type} (find : String → Option α) (fault : String → β)
    (names : List String) :
    (names.filter fun n => (find n).isNone).map fault = [] ↔
      names.all fun n => (find n).isSome := by
  rw [List.map_eq_nil_iff, List.filter_eq_nil_iff, List.all_eq_true]
  refine forall_congr' fun n => forall_congr' fun _ => ?_
  cases find n <;> simp

theorem interfaceFaults_eq_nil {type : String} {interfaces : List String} :
    s.interfaceFaults type interfaces = [] ↔
      interfaces.all fun i => ((s.type? i).bind TypeDef.interface?).isSome :=
  missing_eq_nil _ _ _

theorem typeFaults_eq_nil {t : TypeDef} : s.typeFaults t = [] ↔ s.fits t := by
  have hfields : ∀ (type : String) (interfaces : List String) (fields : List FieldDef),
      s.interfaceFaults type interfaces
        ++ (Named.sorted FieldDef.name fields).flatMap (s.fieldFaults type) = [] ↔
      fits.fitsFields s interfaces fields := by
    intro type interfaces fields
    rw [List.append_eq_nil_iff, interfaceFaults_eq_nil, List.flatMap_eq_nil_iff, fits.fitsFields,
      Bool.and_eq_true, List.all_eq_true (l := fields)]
    simp only [Named.mem_sorted, fieldFaults_eq_nil]
  cases t with
  | object o => exact hfields o.name o.interfaces o.fields
  | interface i => exact hfields i.name i.interfaces i.fields
  | union u => exact missing_eq_nil _ _ _
  | input i =>
    have h : s.inputFaults (.fieldType · i.name) i.fields = [] ↔ i.fields.all s.hasInputType :=
      inputFaults_eq_nil
    exact h
  | scalar x => simp [typeFaults, fits]
  | enum e => simp [typeFaults, fits]

theorem faults_eq_nil :
    s.faults = [] ↔
      s.types.all s.fits ∧ s.directives.all fun d => d.arguments.all s.hasInputType := by
  have hdirective : ∀ d, s.directiveFaults d = [] ↔ d.arguments.all s.hasInputType :=
    fun d => inputFaults_eq_nil
  simp only [faults, List.append_eq_nil_iff, List.flatMap_eq_nil_iff, Named.mem_sorted,
    typeFaults_eq_nil, hdirective, List.all_eq_true]

theorem fits_field {t : TypeDef} (h : s.fits t) {fs : List FieldDef} (hfs : t.fields? = some fs)
    {f : FieldDef} (hf : f ∈ fs) :
    (s.resolve? f.type).any TypeDef.isOutput ∧ f.arguments.all s.hasInputType := by
  have hfields : ∀ interfaces, fits.fitsFields s interfaces fs →
      (s.resolve? f.type).any TypeDef.isOutput ∧ f.arguments.all s.hasInputType := by
    intro interfaces h
    obtain ⟨-, h⟩ := Bool.and_eq_true_iff.1 h
    exact Bool.and_eq_true_iff.1 (List.all_eq_true.1 h f hf)
  cases t with
  | object o =>
    obtain rfl := Option.some.inj hfs
    exact hfields _ h
  | interface i =>
    obtain rfl := Option.some.inj hfs
    exact hfields _ h
  | _ => simp [TypeDef.fields?] at hfs

/-- Every reference leads to a type that fits, as far as fields and arguments go. -/
structure Closed (s : Schema) : Prop where
  output {t fs f} : t ∈ s.types → t.fields? = some fs → f ∈ fs →
    (s.resolve? f.type).any TypeDef.isOutput
  argument {t fs f a} : t ∈ s.types → t.fields? = some fs → f ∈ fs → a ∈ f.arguments →
    s.hasInputType a
  inputField {i f} : .input i ∈ s.types → f ∈ i.fields → s.hasInputType f
  directive {d a} : d ∈ s.directives → a ∈ d.arguments → s.hasInputType a
  builtin {name} : name ∈ Builtin.scalarNames → (s.type? name).isSome
  root {kind o} : s.root? kind = some o → s.type? o.name = some (.object o)

theorem mem_of_type? {name : String} {t : TypeDef} (h : s.type? name = some t) :
    t ∈ s.types ∧ t.name = name := by
  refine ⟨List.mem_of_find?_eq_some h, ?_⟩
  simpa using List.find?_some h

end Schema

namespace Declarations

variable {d : Declarations}

theorem name_link (types : List TypeDef) (t : TypeDef) : (link types t).name = t.name := by
  cases t <;> rfl

theorem builtin_toSchema {name : String} (h : name ∈ Builtin.scalarNames) :
    (d.toSchema.type? name).isSome := by
  rw [Schema.type?, Named.find?, List.find?_isSome]
  -- A declaration takes the place of a built-in scalar of its name.
  by_cases hdeclared : d.types.any (·.name == name)
  · obtain ⟨t, ht, hname⟩ := List.any_eq_true.1 hdeclared
    refine ⟨link d.types t, List.mem_append_left _ (List.mem_map_of_mem ht), ?_⟩
    rwa [name_link]
  · refine ⟨.scalar ⟨name, Builtin.check? name⟩, List.mem_append_right _ ?_, by simp [TypeDef.name]⟩
    refine List.mem_filter.2 ⟨List.mem_map_of_mem h, ?_⟩
    simpa [TypeDef.name] using hdeclared

theorem root_toSchema {kind : OperationKind} {o : ObjectType}
    (h : d.root? d.toSchema kind = some o) : d.toSchema.type? o.name = some (.object o) := by
  simp only [root?, Option.bind_eq_bind, Option.bind_eq_some_iff] at h
  obtain ⟨name, -, t, ht, ho⟩ := h
  obtain ⟨-, hname⟩ := Schema.mem_of_type? ht
  cases t with
  | object p =>
    obtain rfl := Option.some.inj ho
    rw [← hname] at ht
    exact ht
  | _ => simp [TypeDef.object?] at ho

theorem closed_toSchema (h : d.toSchema.faults = []) (roots : OperationKind → Option ObjectType)
    (hroots : ∀ kind o, roots kind = some o → d.toSchema.type? o.name = some (.object o)) :
    Schema.Closed { d.toSchema with
      queryRoot := roots .query
      mutationRoot := roots .mutation
      subscriptionRoot := roots .subscription } := by
  obtain ⟨htypes, hdirectives⟩ := Schema.faults_eq_nil.1 h
  rw [List.all_eq_true] at htypes hdirectives
  exact
    { output ht hfs hf := (Schema.fits_field (htypes _ ht) hfs hf).1
      argument ht hfs hf := List.all_eq_true.1 (Schema.fits_field (htypes _ ht) hfs hf).2 _
      inputField ht hf := List.all_eq_true.1 (htypes _ ht) _ hf
      directive hd ha := List.all_eq_true.1 (hdirectives _ hd) _ ha
      builtin h := builtin_toSchema h
      root {kind o} h := by
        cases kind with
        | query => exact hroots .query o h
        | mutation => exact hroots .mutation o h
        | subscription => exact hroots .subscription o h }

theorem closed_load {s : Schema} (h : d.load = .ok s) : s.Closed := by
  rw [load] at h
  split at h
  · simp at h
  · rename_i hfaults
    obtain rfl := Except.ok.inj h
    exact closed_toSchema (List.append_eq_nil_iff.1 hfaults).1 (d.root? d.toSchema)
      fun _ _ => root_toSchema

theorem load_of_fits (htypes : d.toSchema.types.all d.toSchema.fits)
    (hdirectives : d.toSchema.directives.all fun x => x.arguments.all d.toSchema.hasInputType)
    (hroots : OperationKind.all.flatMap (d.rootFaults d.toSchema) = []) :
    d.load = .ok { d.toSchema with
      queryRoot := d.root? d.toSchema .query
      mutationRoot := d.root? d.toSchema .mutation
      subscriptionRoot := d.root? d.toSchema .subscription } := by
  have hfaults : d.faults = [] := by
    rw [faults, Schema.faults_eq_nil.2 ⟨htypes, hdirectives⟩, hroots]
    rfl
  rw [load, hfaults]

end Declarations

namespace Schema

theorem read_eq_ok {source : String} {d : Declarations} {s : Schema}
    (hread : readDeclarations.run SchemaFault.error false source = .ok d)
    (hload : d.load = .ok s) : read source = .ok s := by
  rw [read, hread]
  simp [hload, bind, Except.bind]

theorem closed_read {source : String} {s : Schema} (h : read source = .ok s) : s.Closed := by
  rw [read] at h
  cases hd : readDeclarations.run SchemaFault.error false source with
  | error e => simp [hd, bind, Except.bind] at h
  | ok d =>
    cases hload : d.load with
    | error fault => simp [hd, hload, bind, Except.bind] at h
    | ok t =>
      simp only [hd, hload, bind, Except.bind] at h
      obtain rfl := Except.ok.inj h
      exact Declarations.closed_load hload

inductive Rechecked : Option TypeDef → Option TypeDef → Prop
  | same (t : Option TypeDef) : Rechecked t t
  | scalar (a b : ScalarType) : Rechecked (some (.scalar a)) (some (.scalar b))

variable (name : String) (check : LiteralCheck)

theorem rechecked_type? (s : Schema) (n : String) :
    Rechecked (s.type? n) ((s.withScalarCheck name check).type? n) := by
  rw [withScalarCheck]
  split
  · rename_i t ht
    obtain rfl : t.name = name := (mem_of_type? ht).2
    by_cases hn : n = t.name
    · subst hn
      have hself : (s.addType (.scalar { t with check := some check })).type? t.name =
          some (.scalar { t with check := some check }) :=
        Named.find?_put_self TypeDef.name (.scalar { t with check := some check }) s.types
      rw [ht, hself]
      exact .scalar _ _
    · have hother : (s.addType (.scalar { t with check := some check })).type? n = s.type? n :=
        Named.find?_put_of_ne TypeDef.name (.scalar { t with check := some check }) hn s.types
      rw [hother]
      exact .same _
  · exact .same _

theorem mem_types_withScalarCheck {s : Schema} {t : TypeDef}
    (h : t ∈ (s.withScalarCheck name check).types) : t ∈ s.types ∨ ∃ x, t = .scalar x := by
  rw [withScalarCheck] at h
  split at h
  · exact (Named.mem_of_mem_put _ h).symm.imp_right fun h => ⟨_, h⟩
  · exact .inl h

theorem any_withScalarCheck {p : TypeDef → Bool} (hp : ∀ a b, p (.scalar a) = p (.scalar b))
    (s : Schema) (n : String) :
    ((s.withScalarCheck name check).type? n).any p = (s.type? n).any p := by
  generalize hx : s.type? n = x
  generalize hy : (s.withScalarCheck name check).type? n = y
  have h := rechecked_type? name check s n
  rw [hx, hy] at h
  cases h with
  | same => rfl
  | scalar a b => exact hp b a

theorem object_withScalarCheck (s : Schema) {n : String} {o : ObjectType}
    (h : s.type? n = some (.object o)) :
    (s.withScalarCheck name check).type? n = some (.object o) := by
  have hr := rechecked_type? name check s n
  rw [h] at hr
  generalize (s.withScalarCheck name check).type? n = y at hr ⊢
  cases hr with
  | same => rfl

theorem root_withScalarCheck (s : Schema) (kind : OperationKind) :
    (s.withScalarCheck name check).root? kind = s.root? kind := by
  rw [withScalarCheck]
  split
  · cases kind <;> rfl
  · rfl

theorem directives_withScalarCheck (s : Schema) :
    (s.withScalarCheck name check).directives = s.directives := by
  rw [withScalarCheck]
  split
  · rfl
  · rfl

theorem Closed.withScalarCheck {s : Schema} (h : s.Closed) :
    (s.withScalarCheck name check).Closed := by
  have hinput : ∀ i, (s.withScalarCheck name check).hasInputType i = s.hasInputType i :=
    fun i => any_withScalarCheck name check (fun _ _ => rfl) s i.type.name
  exact
    { output {t fs f} ht hfs hf := by
        rw [resolve?, any_withScalarCheck name check (fun _ _ => rfl)]
        rcases mem_types_withScalarCheck name check ht with ht | ⟨x, rfl⟩
        · exact h.output ht hfs hf
        · simp [TypeDef.fields?] at hfs
      argument {t fs f a} ht hfs hf ha := by
        rw [hinput]
        rcases mem_types_withScalarCheck name check ht with ht | ⟨x, rfl⟩
        · exact h.argument ht hfs hf ha
        · simp [TypeDef.fields?] at hfs
      inputField {i f} ht hf := by
        rw [hinput]
        rcases mem_types_withScalarCheck name check ht with ht | ⟨x, hx⟩
        · exact h.inputField ht hf
        · simp at hx
      directive {d a} hd ha := by
        rw [directives_withScalarCheck] at hd
        rw [hinput]
        exact h.directive hd ha
      builtin {n} hn := by
        have hany : ∀ x : Option TypeDef, x.isSome = x.any fun _ => true := by
          intro x
          cases x <;> rfl
        rw [hany, any_withScalarCheck name check (fun _ _ => rfl), ← hany]
        exact h.builtin hn
      root {kind o} ho := by
        rw [root_withScalarCheck] at ho
        exact object_withScalarCheck name check s (h.root ho) }

/-- What a schema may be that was loaded, whatever checks its scalars were given since. -/
inductive Loaded : Schema → Prop
  | read {source : String} {s : Schema} : Schema.read source = .ok s → Loaded s
  | withScalarCheck {s : Schema} (name : String) (check : LiteralCheck) :
    Loaded s → Loaded (s.withScalarCheck name check)

theorem Loaded.closed {s : Schema} (h : s.Loaded) : s.Closed := by
  induction h with
  | read h => exact closed_read h
  | withScalarCheck name check _ ih => exact ih.withScalarCheck name check

end Schema
end GraphQLCheck
