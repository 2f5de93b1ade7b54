import GraphQLCheck.Proofs.Rules.CandidateOrder
import GraphQLCheck.Proofs.Schema.Redeclared

/-!
The types that are suggested where an abstract type has no field of a name. They are the right
ones: the objects that may stand for the type and have the field, and the interfaces of these
objects that have it too (`narrowerTypes?_exact`). An object that is listed twice is suggested
twice, however. Whether the order of the declarations shows hangs on whether the comparison is an
order (`narrowerTypes?_redeclared`).
-/
namespace GraphQLCheck

open Rules

namespace Schema

variable {s : Schema} {parent : TypeDef} {field : String}

/-- The object may stand for the type, and has the field. -/
structure Offers (s : Schema) (parent : TypeDef) (field : String) (o : ObjectType) : Prop where
  declared : .object o ∈ s.types
  possible : parent.isSubType (.object o) = true
  field : ((TypeDef.object o).field? field).isSome = true

structure Shares (s : Schema) (parent : TypeDef) (field : String) (i : InterfaceType) : Prop where
  declared : .interface i ∈ s.types
  implemented : ∃ o, s.Offers parent field o ∧ i.name ∈ o.interfaces
  field : ((TypeDef.interface i).field? field).isSome = true

theorem isAbstract_of_listed {listed : List String}
    (hlisted : parent.possibleTypes? = some listed) : parent.isAbstract = true := by
  cases parent with
  | interface _ => rfl
  | union _ => rfl
  | _ => exact absurd hlisted nofun

section
variable {source : String} (h : read source = .ok s) (hparent : parent ∈ s.types)
  {listed : List String} (hlisted : parent.possibleTypes? = some listed)
include h

theorem nodup_types : (s.types.map TypeDef.name).Nodup := by
  obtain ⟨d, rest, -, hdistinct, htypes⟩ := exists_declarations h
  exact htypes ▸ Declarations.nodup_types hdistinct

theorem type?_of_mem {t : TypeDef} (ht : t ∈ s.types) : s.type? t.name = some t :=
  (Named.find?_eq_some (nodup_types h)).2 ⟨ht, rfl⟩

include hparent hlisted

theorem isSubType_iff_listed {o : ObjectType} (ho : .object o ∈ s.types) :
    parent.isSubType (.object o) = true ↔ listed.contains o.name = true := by
  obtain ⟨d, rest, -, hdistinct, htypes⟩ := exists_declarations h
  rw [htypes] at hparent ho
  cases parent with
  | union u =>
    obtain rfl := Option.some.inj hlisted
    rfl
  | interface i =>
    obtain rfl := Option.some.inj hlisted
    obtain ⟨hpossible, -, -⟩ := Declarations.interface_mem_toSchema hdistinct hparent
    have hcount := Declarations.count_flatMap_of_nodup (f := TypeDef.objectNaming i.name)
      Declarations.mem_objectNaming hdistinct.types (Declarations.object_mem_toSchema ho)
    rw [← hpossible, TypeDef.objectNaming, TypeDef.name, List.count_replicate_self] at hcount
    rw [TypeDef.isSubType, List.contains_iff_mem, List.contains_iff_mem, ← List.count_pos_iff,
      ← hcount, List.count_pos_iff]
  | _ => cases hlisted

theorem mem_objectsWith {o : ObjectType} :
    o ∈ objectsWith s parent field ↔ s.Offers parent field o := by
  rw [objectsWith, List.mem_filter]
  constructor
  · rintro ⟨hpossible, hfield⟩
    have ho := (mem_of_type? (type?_of_possible (isAbstract_of_listed hlisted) hpossible)).1
    rw [mem_possibleObjects (nodup_types h) hlisted ho,
      ← isSubType_iff_listed h hparent hlisted ho] at hpossible
    exact ⟨ho, hpossible, hfield⟩
  · rintro ⟨ho, hpossible, hfield⟩
    rw [mem_possibleObjects (nodup_types h) hlisted ho,
      ← isSubType_iff_listed h hparent hlisted ho]
    exact ⟨hpossible, hfield⟩

theorem mem_mentions_iff {name : String} :
    name ∈ mentions s parent field ↔ ∃ i, s.Shares parent field i ∧ i.name = name := by
  simp only [mem_mentions, mem_objectsWith h hparent hlisted, interfaceWith?_eq_some]
  constructor
  · rintro ⟨⟨i, hi, hfield⟩, o, ho, hname⟩
    obtain ⟨hdeclared, rfl⟩ := mem_of_type? hi
    exact ⟨i, ⟨hdeclared, ⟨o, ho, hname⟩, hfield⟩, rfl⟩
  · rintro ⟨i, ⟨hi, ⟨o, ho, hname⟩, hfield⟩, rfl⟩
    exact ⟨⟨i, type?_of_mem h hi, hfield⟩, o, ho, hname⟩

theorem mem_candidateNames {name : String} :
    name ∈ candidateNames s parent field ↔ (∃ o, s.Offers parent field o ∧ o.name = name) ∨
      ∃ i, s.Shares parent field i ∧ i.name = name := by
  rw [candidateNames, List.mem_append, List.mem_map, List.mem_eraseDups,
    mem_mentions_iff h hparent hlisted]
  simp only [mem_objectsWith h hparent hlisted]

omit hparent hlisted in
theorem Offers.name_ne {o : ObjectType} (ho : s.Offers parent field o) {i : InterfaceType}
    (hi : s.Shares parent field i) : o.name ≠ i.name := by
  intro hname
  have hobject := type?_of_mem h ho.declared
  rw [show (TypeDef.object o).name = i.name from hname] at hobject
  exact absurd (hobject.symm.trans (type?_of_mem h hi.declared)) nofun

theorem Offers.count_candidateNames {o : ObjectType} (ho : s.Offers parent field o) :
    (candidateNames s parent field).count o.name = listed.count o.name := by
  have htype : s.type? o.name = some (.object o) := type?_of_mem h ho.declared
  have hnone : o.name ∉ (mentions s parent field).eraseDups := by
    rw [List.mem_eraseDups, mem_mentions_iff h hparent hlisted]
    rintro ⟨i, hi, hname⟩
    exact ho.name_ne h hi hname.symm
  rw [candidateNames, List.count_append, List.count_eq_zero.2 hnone, Nat.add_zero,
    objectsWith_names (isAbstract_of_listed hlisted), hlisted, Option.getD_some]
  refine List.count_filter ?_
  rw [object?_type?.2 htype]
  exact ho.field

theorem Shares.count_candidateNames {i : InterfaceType} (hi : s.Shares parent field i) :
    (candidateNames s parent field).count i.name = 1 := by
  have hnone : i.name ∉ (objectsWith s parent field).map ObjectType.name := by
    rw [List.mem_map]
    rintro ⟨o, ho, hname⟩
    exact ((mem_objectsWith h hparent hlisted).1 ho).name_ne h hi hname
  rw [candidateNames, List.count_append, List.count_eq_zero.2 hnone, Nat.zero_add]
  refine List.count_eq_one_of_mem (nodup_eraseDups _) ?_
  rw [List.mem_eraseDups, mem_mentions_iff h hparent hlisted]
  exact ⟨i, hi, rfl⟩

theorem nodup_candidateNames : (candidateNames s parent field).Nodup ↔
    ∀ o, s.Offers parent field o → listed.count o.name = 1 := by
  rw [List.nodup_iff_count_eq_one]
  constructor
  · intro hnodup o ho
    rw [← ho.count_candidateNames h hparent hlisted]
    exact hnodup o.name ((mem_candidateNames h hparent hlisted).2 (.inl ⟨o, ho, rfl⟩))
  · intro honce n hn
    obtain ⟨o, ho, rfl⟩ | ⟨i, hi, rfl⟩ := (mem_candidateNames h hparent hlisted).1 hn
    · exact (ho.count_candidateNames h hparent hlisted).trans (honce o ho)
    · exact hi.count_candidateNames h hparent hlisted

end

theorem named_candidates (s : Schema) (field : String) (hparent : parent.isAbstract = true) :
    Candidate.Named (candidates s parent field) := by
  intro a ha b hb hname
  have hfound := (collected s field hparent).found
  exact Option.some.inj ((hfound a ha).symm.trans (hname ▸ hfound b hb))

theorem narrowerTypes?_eq_some (hparent : parent.isAbstract = true) {names : List String} :
    narrowerTypes? s parent field = some names ↔
      ∃ cs, sortCandidates? (candidates s parent field) = some cs ∧
        cs.map (·.type.name) = names := by
  rw [narrowerTypes?, if_pos hparent, Option.map_eq_some_iff]

theorem narrowerTypes?_perm (hparent : parent.isAbstract = true) {names : List String}
    (h : narrowerTypes? s parent field = some names) :
    names.Perm (candidateNames s parent field) := by
  obtain ⟨cs, hcs, rfl⟩ := (narrowerTypes?_eq_some hparent).1 h
  exact ((Sorting.stable?_perm hcs).map _).trans (names_perm hparent)

/-- What is suggested is right. Interfaces are suggested once, and objects as often as they are
listed. There is a suggestion unless there are more than 20 candidates, and those in no order. -/
theorem narrowerTypes?_exact {source : String} (h : read source = .ok s)
    (hparent : parent ∈ s.types) {listed : List String}
    (hlisted : parent.possibleTypes? = some listed) (field : String) :
    (∀ names, narrowerTypes? s parent field = some names →
      (∀ n, n ∈ names ↔ (∃ o, s.Offers parent field o ∧ o.name = n) ∨
        ∃ i, s.Shares parent field i ∧ i.name = n) ∧
      (∀ o, s.Offers parent field o → names.count o.name = listed.count o.name) ∧
      (∀ i, s.Shares parent field i → names.count i.name = 1) ∧
      (names.Nodup ↔ ∀ o, s.Offers parent field o → listed.count o.name = 1)) ∧
    ((candidates s parent field).length ≤ 20 ∨
      Candidate.Ordered (candidates s parent field) →
        ∃ names, narrowerTypes? s parent field = some names) := by
  have habstract := isAbstract_of_listed hlisted
  refine ⟨fun names hnames => ?_, fun horder => ?_⟩
  · have hperm := narrowerTypes?_perm habstract hnames
    refine ⟨fun n => ?_, fun o ho => ?_, fun i hi => ?_, ?_⟩
    · rw [hperm.mem_iff, mem_candidateNames h hparent hlisted]
    · rw [hperm.count_eq, ho.count_candidateNames h hparent hlisted]
    · rw [hperm.count_eq, hi.count_candidateNames h hparent hlisted]
    · rw [hperm.nodup_iff, nodup_candidateNames h hparent hlisted]
  · obtain ⟨sorted, hsorted⟩ := Candidate.exists_sorted (named_candidates s field habstract) horder
    exact ⟨_, (narrowerTypes?_eq_some habstract).2 ⟨sorted, hsorted, rfl⟩⟩

def letters (interfaces members : List String) : Declarations :=
  let fields : List FieldDef := [⟨"f", .named "Int", []⟩]
  ⟨[.interface ⟨"Z", fields, [], [], []⟩, .object ⟨"M", fields, ["Z"]⟩,
    .object ⟨"N", fields, interfaces⟩, .union ⟨"U", members⟩], [], none⟩

def lettersText (interfaces members : String) : String :=
  "interface Z{f:Int} type M implements Z{f:Int} type N" ++ interfaces
    ++ "{f:Int} union U=" ++ members

theorem narrowerTypes?_exact_listedTwice :
    ∃ s parent, read (lettersText "" "M|N|M") = .ok s ∧ parent ∈ s.types ∧
      parent.possibleTypes? = some ["M", "N", "M"] ∧ (candidates s parent "f").length ≤ 20 ∧
      ∃ names, narrowerTypes? s parent "f" = some names ∧ names.count "M" = 2 ∧
        names.count "Z" = 1 ∧ ¬ names.Nodup := by
  have hread : readDeclarations.run SchemaFault.error false (lettersText "" "M|N|M") =
      .ok (letters [] ["M", "N", "M"]) := rfl
  have hschema := read_eq_ok hread (Declarations.load_of_fits (by decide +kernel)
    (by decide +kernel) rfl)
  have hparent : .union ⟨"U", ["M", "N", "M"]⟩ ∈ (letters [] ["M", "N", "M"]).toSchema.types :=
    List.mem_of_getElem? (i := 3) rfl
  have hshort : (candidates (letters [] ["M", "N", "M"]).toSchema
      (.union ⟨"U", ["M", "N", "M"]⟩) "f").length ≤ 20 := by decide +kernel
  obtain ⟨hexact, hexists⟩ := narrowerTypes?_exact hschema hparent rfl "f"
  obtain ⟨names, hnames⟩ := hexists (.inl hshort)
  obtain ⟨-, hobjects, hinterfaces, hnodup⟩ := hexact names hnames
  have hoffers : (letters [] ["M", "N", "M"]).toSchema.Offers (.union ⟨"U", ["M", "N", "M"]⟩) "f"
      ⟨"M", [⟨"f", .named "Int", []⟩], ["Z"]⟩ :=
    ⟨List.mem_of_getElem? (i := 1) rfl, rfl, rfl⟩
  have hshares := hinterfaces ⟨"Z", [⟨"f", .named "Int", []⟩], [], [], ["M"]⟩
    ⟨List.mem_cons_self, ⟨_, hoffers, List.mem_cons_self⟩, rfl⟩
  have hcount := hobjects _ hoffers
  refine ⟨_, _, hschema, hparent, rfl, hshort, names, hnames, hcount, hshares, fun h => ?_⟩
  exact absurd (hnodup.1 h _ hoffers) (by decide)

/-- Objects that are listed twice are suggested twice. -/
theorem narrowerTypes?_notDistinct :
    ∃ s parent, read (lettersText "" "M|M") = .ok s ∧ s.type? "U" = some parent ∧
      narrowerTypes? s parent "f" = some ["Z", "M", "M"] := by
  have hread : readDeclarations.run SchemaFault.error false (lettersText "" "M|M") =
      .ok (letters [] ["M", "M"]) := rfl
  have hschema := read_eq_ok hread (Declarations.load_of_fits (by decide +kernel)
    (by decide +kernel) rfl)
  exact ⟨_, .union ⟨"U", ["M", "M"]⟩, hschema, rfl, by decide +kernel⟩

end Schema
end GraphQLCheck
