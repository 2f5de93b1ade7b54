import GraphQLCheck.Proofs.Schema.Rendering

/-!
Which texts are accepted. A text that writes declarations, no two types and no two directives of
one name, is a schema exactly if their references are closed, where of several members of one name
in a definition the last counts (`LastClosed`): the others are replaced before they are looked at.
Every other text has a token that does not fit, or declares something twice (`read_accepts`).
-/
namespace GraphQLCheck

theorem distinctFields_mergedFields (fields : List FieldDef) :
    DistinctFields (mergedFields fields) := by
  refine ⟨Named.nodup_ofList FieldDef.name _, fun f hf => ?_⟩
  obtain ⟨g, -, rfl⟩ := mem_mergedFields.1 hf
  exact Named.nodup_ofList InputDef.name g.arguments

theorem TypeDef.distinctMembers_merged (t : TypeDef) : t.merged.DistinctMembers := by
  cases t with
  | object o => exact distinctFields_mergedFields o.fields
  | interface i => exact distinctFields_mergedFields i.fields
  | enum e =>
    have hnodup := Named.nodup_ofList id e.values
    rwa [List.map_id] at hnodup
  | input i => exact Named.nodup_ofList InputDef.name i.fields
  | union _ => trivial
  | scalar _ => trivial

namespace Declarations

/-- The text is that of a tree that writes the declarations. -/
def WrittenIn (d : Declarations) (source : String) : Prop :=
  ∃ t : SchemaTree, t.Writes false d ∧ t.lexemes = Lexeme.scan source.toList

variable {d : Declarations} {source : String} {s : Schema}

theorem distinctMembers_merged (d : Declarations) : d.merged.DistinctMembers where
  types t ht := by
    obtain ⟨u, -, rfl⟩ := List.mem_map.1 ht
    exact u.distinctMembers_merged
  directives x hx := by
    obtain ⟨y, -, rfl⟩ := List.mem_map.1 hx
    exact Named.nodup_ofList InputDef.name y.arguments

theorem distinct_merged (hd : d.Distinct) : d.merged.Distinct where
  types := by
    have hnames : d.types.map (TypeDef.name ∘ TypeDef.merged) = d.types.map TypeDef.name :=
      List.map_congr_left fun t _ => t.name_merged
    rw [merged, List.map_map, hnames]
    exact hd.types
  directives := by
    rw [merged, List.map_map]
    exact hd.directives
  unlinked t ht := by
    obtain ⟨u, hu, rfl⟩ := List.mem_map.1 ht
    have hunlinked := hd.unlinked u hu
    cases u <;> exact hunlinked

/-! ### References of the last members -/

def LastFieldFits (d : Declarations) (f : FieldDef) : Prop :=
  (∃ t, d.Declares f.type.name t ∧ t.isOutput = true) ∧
    ∀ a, Named.IsLast InputDef.name f.arguments a → d.HasInputType a

def LastFits (d : Declarations) : TypeDef → Prop
  | .object o =>
    (∀ i ∈ o.interfaces, ∃ j, d.Declares i (.interface j)) ∧
      ∀ f, Named.IsLast FieldDef.name o.fields f → d.LastFieldFits f
  | .interface i =>
    (∀ j ∈ i.interfaces, ∃ k, d.Declares j (.interface k)) ∧
      ∀ f, Named.IsLast FieldDef.name i.fields f → d.LastFieldFits f
  | .union u => ∀ m ∈ u.possibleTypes, ∃ o, d.Declares m (.object o)
  | .input i => ∀ f, Named.IsLast InputDef.name i.fields f → d.HasInputType f
  | .scalar _ | .enum _ => True

/-- As `ReferenceClosed`, but of fields, arguments and input fields the last of a name counts. -/
structure LastClosed (d : Declarations) : Prop where
  types : ∀ t ∈ d.types, d.LastFits t
  directives : ∀ x ∈ d.directives, ∀ a, Named.IsLast InputDef.name x.arguments a →
    d.HasInputType a
  builtinDirectives : ∀ x ∈ Builtin.directives, (∀ y ∈ d.directives, y.name ≠ x.name) →
    ∀ a ∈ x.arguments, d.HasInputType a
  namedRoots : ∀ r, d.roots = some r → ∀ kind name, r.get? kind = some name →
    ∃ o, d.Declares name (.object o)
  defaultRoots : d.roots = none → ∀ (kind : OperationKind) t, d.Declares kind.defaultRoot t →
    ∃ o, t = .object o

theorem declares_merged {name : String} {t : TypeDef} :
    d.merged.Declares name t ↔ ∃ u, d.Declares name u ∧ t = u.merged := by
  constructor
  · rintro (⟨ht, hname⟩ | ⟨hname, hfree⟩)
    · obtain ⟨u, hu, rfl⟩ := List.mem_map.1 ht
      exact ⟨u, .declared hu (u.name_merged.symm.trans hname), rfl⟩
    · refine ⟨_, .builtin hname fun t ht => ?_, rfl⟩
      rw [← t.name_merged]
      exact hfree _ (List.mem_map_of_mem ht)
  · rintro ⟨u, ⟨hu, hname⟩ | ⟨hname, hfree⟩, rfl⟩
    · exact .declared (List.mem_map_of_mem hu) (u.name_merged.trans hname)
    · refine .builtin hname fun t ht => ?_
      obtain ⟨u, hu, rfl⟩ := List.mem_map.1 ht
      rw [u.name_merged]
      exact hfree u hu

theorem exists_declares_merged {p : TypeDef → Prop} (hp : ∀ t : TypeDef, p t.merged ↔ p t)
    (name : String) : (∃ t, d.merged.Declares name t ∧ p t) ↔ ∃ t, d.Declares name t ∧ p t := by
  simp only [declares_merged]
  constructor
  · rintro ⟨_, ⟨u, hu, rfl⟩, h⟩
    exact ⟨u, hu, (hp u).1 h⟩
  · rintro ⟨u, hu, h⟩
    exact ⟨_, ⟨u, hu, rfl⟩, (hp u).2 h⟩

theorem hasInputType_merged (i : InputDef) : d.merged.HasInputType i ↔ d.HasInputType i :=
  exists_declares_merged (fun t => by cases t <;> rfl) i.type.name

theorem output_merged (name : String) :
    (∃ t, d.merged.Declares name t ∧ t.isOutput = true) ↔
      ∃ t, d.Declares name t ∧ t.isOutput = true :=
  exists_declares_merged (fun t => by cases t <;> rfl) name

theorem kind_merged {α : Type} {build : α → TypeDef}
    (hbuild : ∀ t : TypeDef, (∃ a, t.merged = build a) ↔ ∃ a, t = build a) (name : String) :
    (∃ a, d.merged.Declares name (build a)) ↔ ∃ a, d.Declares name (build a) := by
  have hbuilt : ∀ e : Declarations,
      (∃ a, e.Declares name (build a)) ↔ ∃ t, e.Declares name t ∧ ∃ a, t = build a := by
    refine fun e => ⟨fun ⟨a, ha⟩ => ⟨_, ha, a, rfl⟩, ?_⟩
    rintro ⟨_, ha, a, rfl⟩
    exact ⟨a, ha⟩
  rw [hbuilt, hbuilt]
  exact exists_declares_merged hbuild name

theorem object_merged (name : String) :
    (∃ o, d.merged.Declares name (.object o)) ↔ ∃ o, d.Declares name (.object o) :=
  kind_merged (fun t => by cases t <;> simp [TypeDef.merged]) name

theorem interface_merged (name : String) :
    (∃ i, d.merged.Declares name (.interface i)) ↔ ∃ i, d.Declares name (.interface i) :=
  kind_merged (fun t => by cases t <;> simp [TypeDef.merged]) name

theorem inputs_merged (inputs : List InputDef) :
    (∀ a ∈ Named.ofList InputDef.name inputs, d.merged.HasInputType a) ↔
      ∀ a, Named.IsLast InputDef.name inputs a → d.HasInputType a := by
  simp only [Named.mem_ofList, hasInputType_merged]

theorem fields_merged (fields : List FieldDef) :
    (∀ f ∈ mergedFields fields, d.merged.FieldFits f) ↔
      ∀ f, Named.IsLast FieldDef.name fields f → d.LastFieldFits f := by
  have hfield : ∀ f : FieldDef, d.merged.FieldFits f.merged ↔ d.LastFieldFits f :=
    fun f => and_congr (output_merged f.type.name) (inputs_merged f.arguments)
  simp only [mem_mergedFields]
  constructor
  · exact fun h f hf => (hfield f).1 (h f.merged ⟨f, hf, rfl⟩)
  · rintro h _ ⟨f, hf, rfl⟩
    exact (hfield f).2 (h f hf)

theorem fits_merged (t : TypeDef) : d.merged.Fits t.merged ↔ d.LastFits t := by
  cases t with
  | object o =>
    refine and_congr ?_ (fields_merged o.fields)
    exact forall₂_congr fun i _ => interface_merged i
  | interface i =>
    refine and_congr ?_ (fields_merged i.fields)
    exact forall₂_congr fun j _ => interface_merged j
  | union u => exact forall₂_congr fun m _ => object_merged m
  | input i => exact inputs_merged i.fields
  | scalar x => exact Iff.rfl
  | enum e => exact Iff.rfl

theorem referenceClosed_merged : d.merged.ReferenceClosed ↔ d.LastClosed := by
  have hnames : ∀ name : String,
      (∀ y ∈ d.merged.directives, y.name ≠ name) ↔ ∀ y ∈ d.directives, y.name ≠ name :=
    fun _ => List.forall_mem_map
  constructor
  · intro h
    refine ⟨fun t ht => (fits_merged t).1 (h.types _ (List.mem_map_of_mem ht)),
      fun x hx => (inputs_merged x.arguments).1 (h.directives _ (List.mem_map_of_mem hx)),
      fun x hx hfree a ha => ?_, fun r hr kind name hname => ?_, fun hroots kind t ht => ?_⟩
    · exact (hasInputType_merged a).1 (h.builtinDirectives x hx ((hnames x.name).2 hfree) a ha)
    · exact (object_merged name).1 (h.namedRoots r hr kind name hname)
    · obtain ⟨o, ho⟩ := h.defaultRoots hroots kind _ (declares_merged.2 ⟨t, ht, rfl⟩)
      cases t <;> simp_all [TypeDef.merged]
  · intro h
    refine ⟨List.forall_mem_map.2 fun t ht => (fits_merged t).2 (h.types t ht),
      List.forall_mem_map.2 fun x hx => (inputs_merged x.arguments).2 (h.directives x hx),
      fun x hx hfree a ha => ?_, fun r hr kind name hname => ?_, fun hroots kind t ht => ?_⟩
    · exact (hasInputType_merged a).2 (h.builtinDirectives x hx ((hnames x.name).1 hfree) a ha)
    · exact (object_merged name).2 (h.namedRoots r hr kind name hname)
    · obtain ⟨u, hu, rfl⟩ := declares_merged.1 ht
      obtain ⟨o, rfl⟩ := h.defaultRoots hroots kind u hu
      exact ⟨_, rfl⟩

theorem lastClosed_iff (h : d.DistinctMembers) : d.LastClosed ↔ d.ReferenceClosed := by
  rw [← referenceClosed_merged, merged_eq_self h]

/-! ### Texts that write declarations -/

theorem WrittenIn.read_eq (h : d.WrittenIn source) (hd : d.Distinct) :
    Schema.read source = match d.merged.load with
      | .ok s => .ok s
      | .error fault =>
        .error (.plain ("Validation error: " ++ fault.message) (some .graphQL)) := by
  obtain ⟨t, hwrites, hlexemes⟩ := h
  obtain ⟨rest, hread⟩ := readDeclarations_eq_done.2 ⟨t, d, hlexemes, hwrites, hd, rfl⟩
  exact Schema.read_of_done hread

theorem WrittenIn.read_eq_ok_iff (h : d.WrittenIn source) (hd : d.Distinct) :
    Schema.read source = .ok s ↔ d.merged.load = .ok s := by
  rw [h.read_eq hd]
  cases d.merged.load <;> simp

theorem exists_writtenIn {a : Declarations} {rest : Cursor}
    (h : readDeclarations (.ofSource false source.toList) = .done a rest) :
    ∃ d : Declarations, d.Distinct ∧ d.WrittenIn source := by
  obtain ⟨t, d, hlexemes, hwrites, hd, -⟩ := readDeclarations_eq_done.1 ⟨rest, h⟩
  exact ⟨d, hd, t, hwrites, hlexemes⟩

end Declarations

namespace Schema

/-- A text that writes declarations of distinct names is a schema exactly if the last members of
each name lead to types of the kinds that are wanted, which are all members where their names are
distinct too. Its roots are then the objects that are named, and no others; else it fails for a
reference. A text that writes no such declarations has a token that does not fit, or declares a
type, a directive or a root twice. -/
theorem read_accepts (source : String) :
    (∀ d : Declarations, d.WrittenIn source → d.Distinct →
      ((∃ s, read source = .ok s) ↔ d.LastClosed) ∧
      (d.DistinctMembers → ((∃ s, read source = .ok s) ↔ d.ReferenceClosed)) ∧
      (∀ s, read source = .ok s → ∀ kind o, s.root? kind = some o ↔ d.merged.IsRoot kind o) ∧
      ∀ e, read source = .error e → e.kind = .graphQL) ∧
    ((∀ d : Declarations, d.WrittenIn source → ¬ d.Distinct) →
      ∃ (fault : SchemaFault) (l : Lexeme),
        (fault.isSyntactic = true ∨ fault.isSecond = true) ∧
          read source = .error (fault.error source.toList l)) := by
  refine ⟨fun d hwritten hd => ?_, fun hnone => ?_⟩
  · have hmerged := Declarations.distinct_merged hd
    have hloaded : (∃ s, read source = .ok s) ↔ d.LastClosed := by
      simp only [hwritten.read_eq_ok_iff hd]
      rw [Declarations.load_isOk hmerged, Declarations.referenceClosed_merged]
    refine ⟨hloaded, fun hmembers => ?_, fun s hs => ?_, fun e he => ?_⟩
    · rw [hloaded, Declarations.lastClosed_iff hmembers]
    · exact Declarations.root?_load hmerged ((hwritten.read_eq_ok_iff hd).1 hs)
    · rw [hwritten.read_eq hd] at he
      split at he
      · simp at he
      · obtain rfl := Except.error.inj he
        rfl
  · obtain ⟨f, rest, hf, hreason⟩ | ⟨a, rest, ha, -⟩ := readDeclarations_cases false source.toList
    · exact ⟨f, rest.head, hreason, read_of_failed hf⟩
    · obtain ⟨d, hd, hwritten⟩ := Declarations.exists_writtenIn ha
      exact absurd hd (hnone d hwritten)

def replacedField : Declarations :=
  ⟨[.object ⟨"Query", [⟨"a", .named "Nope", []⟩, ⟨"a", .named "Int", []⟩], []⟩], [], none⟩

def replacedFieldText : String := "type Query\x7ba:Nope a:Int\x7d"

def replacedFieldTree : SchemaTree :=
  let p := inFirstLine
  ⟨[⟨none, .type (.object (p 0 4) ⟨⟨"Query", p 5 10⟩, none, [], some ⟨p 10 11,
      [⟨none, ⟨"a", p 11 12⟩, none, p 12 13, .named ⟨"Nope", p 13 17⟩ none, []⟩,
        ⟨none, ⟨"a", p 18 19⟩, none, p 19 20, .named ⟨"Int", p 20 23⟩ none, []⟩],
      p 23 24⟩⟩)⟩], none⟩

theorem replacedField_writtenIn : replacedField.WrittenIn replacedFieldText :=
  ⟨replacedFieldTree, ⟨rfl, rfl, rfl⟩, by decide +kernel⟩

theorem distinct_replacedField : replacedField.Distinct := by
  refine ⟨by decide, by decide, ?_⟩
  simp [replacedField, TypeDef.Unlinked]

theorem load_replacedField : ∃ s, replacedField.merged.load = .ok s :=
  ⟨_, Declarations.load_of_fits (by decide +kernel) (by decide +kernel) rfl⟩

theorem read_accepts_replacedField :
    replacedField.WrittenIn replacedFieldText ∧ replacedField.Distinct ∧
      replacedField.LastClosed ∧ ∃ s, read replacedFieldText = .ok s ∧
        ∃ o, s.root? .query = some o ∧ o.fields = [⟨"a", .named "Int", []⟩] := by
  have hclosed : replacedField.LastClosed :=
    Declarations.referenceClosed_merged.1 ((Declarations.load_isOk
      (Declarations.distinct_merged distinct_replacedField)).1 load_replacedField)
  obtain ⟨haccepted, -, hroots, -⟩ :=
    (read_accepts replacedFieldText).1 _ replacedField_writtenIn distinct_replacedField
  obtain ⟨s, hs⟩ := haccepted.2 hclosed
  refine ⟨replacedField_writtenIn, distinct_replacedField, hclosed, s, hs,
    ⟨"Query", [⟨"a", .named "Int", []⟩], []⟩, (hroots s hs .query _).2 ?_, rfl⟩
  exact .inr ⟨rfl, .declared (List.mem_singleton_self _) rfl⟩

/-- A field that another one replaces may have any type. -/
theorem read_accepts_not_closed :
    replacedField.WrittenIn replacedFieldText ∧ replacedField.Distinct ∧
      (∃ s, read replacedFieldText = .ok s) ∧ ¬ replacedField.ReferenceClosed := by
  obtain ⟨s, hs⟩ := load_replacedField
  refine ⟨replacedField_writtenIn, distinct_replacedField,
    ⟨s, (replacedField_writtenIn.read_eq_ok_iff distinct_replacedField).2 hs⟩, fun h => ?_⟩
  obtain ⟨⟨t, ht, -⟩, -⟩ := (h.types _ (List.mem_singleton_self _)).2 _ List.mem_cons_self
  cases ht with
  | declared ht hname =>
    obtain rfl := List.mem_singleton.1 ht
    simp [TypeDef.name, TypeRef.name] at hname
  | builtin hname => simp [Builtin.scalarNames, TypeRef.name] at hname

end Schema
end GraphQLCheck
