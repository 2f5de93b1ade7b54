import GraphQLCheck.Proofs.Rules.NarrowerTypes
import GraphQLCheck.Proofs.Schema.Redeclared

/-!
Suggestions and the order of the declarations. Types that are declared in another order give the
same candidates in another order, so that the suggestions agree where the comparison is an order
on them (`narrowerTypes?_redeclared`). It need not be: an interface goes before what it stands for
whatever their names are, and with a third type in between that leads round in a circle.
-/
namespace GraphQLCheck

open Rules

/-- Every name stands for the same type, up to the order in which others are listed. -/
def Schema.Redeclared (s s' : Schema) : Prop :=
  ∀ name, Option.Rel TypeDef.Redeclared (s.type? name) (s'.type? name)

theorem Rules.tally_perm {s : Schema} {field : String} {names names' : List String}
    (h : names.Perm names') : (tally s field names).Perm (tally s field names') := by
  have hcount : ∀ n, names.count n = names'.count n := fun n => h.count_eq n
  have hfirsts : names.eraseDups.Perm names'.eraseDups :=
    (List.perm_ext_iff_of_nodup (nodup_eraseDups _) (nodup_eraseDups _)).2 fun n => by
      rw [List.mem_eraseDups, List.mem_eraseDups, h.mem_iff]
  rw [tally, tally, funext hcount]
  exact hfirsts.filterMap _

namespace Schema.Redeclared

variable {s s' : Schema} {parent parent' : TypeDef} {field : String} (h : s.Redeclared s')
include h

theorem object?_eq (name : String) :
    (s.type? name).bind TypeDef.object? = (s'.type? name).bind TypeDef.object? := by
  have hrel := h name
  generalize s.type? name = found, s'.type? name = found' at hrel
  cases hrel with
  | none => rfl
  | some htu => exact htu.object?_eq

theorem interfaceWith?_plain (field name : String) :
    (interfaceWith? s field name).map InterfaceType.plain =
      (interfaceWith? s' field name).map InterfaceType.plain := by
  have hrel := h name
  rw [interfaceWith?, interfaceWith?]
  generalize s.type? name = found, s'.type? name = found' at hrel
  cases hrel with
  | none => rfl
  | some htu =>
    cases htu with
    | same => rfl
    | union _ => rfl
    | @interface i interfaces types _ _ =>
      have hfield : (TypeDef.interface { i with
          possibleInterfaces := interfaces, possibleTypes := types }).field? field =
            (TypeDef.interface i).field? field := rfl
      rw [Option.bind_some, Option.bind_some, TypeDef.interface?, TypeDef.interface?,
        Option.filter_some, Option.filter_some, hfield]
      split <;> rfl

theorem tally_plain (names : List String) :
    (tally s field names).map Candidate.plain = (tally s' field names).map Candidate.plain := by
  have hcounted : ∀ (s : Schema) (n : String),
      (counted? s field (fun n => names.count n) n).map Candidate.plain =
        ((interfaceWith? s field n).map InterfaceType.plain).map fun i =>
          ⟨.interface i, names.count n⟩ := by
    intro s n
    rw [counted?, Option.map_map, Option.map_map]
    rfl
  rw [tally, tally, List.map_filterMap, List.map_filterMap]
  refine List.filterMap_congr fun n _ => ?_
  rw [hcounted, hcounted, h.interfaceWith?_plain]

section
variable (hparent : parent.Redeclared parent') (habstract : parent.isAbstract = true)
include hparent habstract

theorem objectsWith_perm :
    (objectsWith s parent field).Perm (objectsWith s' parent' field) := by
  rw [objectsWith, objectsWith, possibleObjects_eq habstract,
    possibleObjects_eq (hparent.isAbstract_eq ▸ habstract), funext h.object?_eq]
  exact (hparent.possibleTypes?_perm.filterMap _).filter _

theorem mentions_perm :
    (mentions s parent field).Perm (mentions s' parent' field) := by
  have hnames : ∀ o, (interfacesWith s field o).map InterfaceType.name =
      (interfacesWith s' field o).map InterfaceType.name := by
    intro o
    rw [interfacesWith_names, interfacesWith_names]
    refine List.filter_congr fun n _ => ?_
    have hplain := congrArg Option.isSome (h.interfaceWith?_plain field n)
    rwa [Option.isSome_map, Option.isSome_map] at hplain
  rw [mentions, mentions, funext hnames]
  exact (h.objectsWith_perm hparent habstract).flatMap_right _

theorem candidates_perm :
    ((candidates s parent field).map Candidate.plain).Perm
      ((candidates s' parent' field).map Candidate.plain) := by
  have hcandidates := (Rules.candidates_perm s field habstract).map
    Candidate.plain
  have hcandidates' := (Rules.candidates_perm s' field
    (hparent.isAbstract_eq ▸ habstract)).map Candidate.plain
  rw [List.map_append] at hcandidates hcandidates'
  refine hcandidates.trans (.trans (.append ?_ ?_) hcandidates'.symm)
  · exact ((h.objectsWith_perm hparent habstract).map _).map _
  · rw [h.tally_plain]
    exact (tally_perm (h.mentions_perm hparent habstract)).map _

theorem narrowerTypes?_eq (hclear : Candidate.Clear (candidates s parent field)) :
    ∃ names, narrowerTypes? s parent field = some names ∧
      narrowerTypes? s' parent' field = some names := by
  have hnamed := named_candidates s field habstract
  obtain ⟨sorted, hsorted, hsorted'⟩ := Candidate.sorted_of_perm hnamed.plain hclear.plain
    (h.candidates_perm hparent habstract)
  rw [Candidate.sortCandidates?_plain, Option.map_eq_some_iff] at hsorted hsorted'
  obtain ⟨cs, hcs, hplain⟩ := hsorted
  obtain ⟨cs', hcs', hplain'⟩ := hsorted'
  have hnames : ∀ cs : List Candidate,
      (cs.map Candidate.plain).map (·.type.name) = cs.map (·.type.name) := by
    intro cs
    rw [List.map_map]
    exact List.map_congr_left fun c _ => c.type.name_plain
  have hagree : cs'.map (·.type.name) = cs.map (·.type.name) := by
    rw [← hnames cs, hplain, ← hplain', hnames cs']
  exact ⟨cs.map (·.type.name), (narrowerTypes?_eq_some habstract).2 ⟨cs, hcs, rfl⟩,
    (narrowerTypes?_eq_some (hparent.isAbstract_eq ▸ habstract)).2 ⟨cs', hcs', hagree⟩⟩

end

end Schema.Redeclared

namespace Schema

variable {source source' : String} {s s' : Schema}

theorem redeclared_of_declarations (h : read source = .ok s) (h' : read source' = .ok s')
    {d d' : Declarations} {rest rest' : Cursor}
    (hd : readDeclarations (.ofSource false source.toList) = .done d rest)
    (hd' : readDeclarations (.ofSource false source'.toList) = .done d' rest')
    (hr : d.Redeclared d') : s.Redeclared s' := by
  obtain ⟨_, _, hread, hdistinct, htypes⟩ := exists_declarations h
  obtain ⟨_, _, hread', hdistinct', htypes'⟩ := exists_declarations h'
  cases hd.symm.trans hread
  cases hd'.symm.trans hread'
  intro name
  rw [type?, type?, htypes, htypes']
  exact hr.type? hdistinct hdistinct' name

theorem Redeclared.of_name (hr : s.Redeclared s') (h : read source = .ok s)
    (h' : read source' = .ok s') {t u : TypeDef} (ht : t ∈ s.types) (hu : u ∈ s'.types)
    (hname : u.name = t.name) : t.Redeclared u := by
  have hrel := hr t.name
  rw [type?_of_mem h ht, ← hname, type?_of_mem h' hu] at hrel
  cases hrel with
  | some htu => exact htu

/-- The comparison is an order on the candidates just where interfaces and names do not lead round
in a circle. Then there is a suggestion, and it is the same for every text that declares the types
in another order, or the members of unions. -/
theorem narrowerTypes?_redeclared (h : read source = .ok s)
    {d : Declarations} {rest : Cursor}
    (hd : readDeclarations (.ofSource false source.toList) = .done d rest) {parent : TypeDef}
    (hparent : parent ∈ s.types) (habstract : parent.isAbstract = true) (field : String) :
    (Candidate.Ordered (candidates s parent field) ↔
      Candidate.Clear (candidates s parent field)) ∧
    (Candidate.Ordered (candidates s parent field) →
      ∃ names, narrowerTypes? s parent field = some names ∧
        ∀ (source' : String) (s' : Schema) (d' : Declarations) (rest' : Cursor),
          read source' = .ok s' →
          readDeclarations (.ofSource false source'.toList) = .done d' rest' →
          d.Redeclared d' →
          ∀ parent' ∈ s'.types, parent'.name = parent.name →
            narrowerTypes? s' parent' field = some names) := by
  have hnamed := named_candidates s field habstract
  refine ⟨Candidate.ordered_iff_clear hnamed, fun hordered => ?_⟩
  obtain ⟨sorted, hsorted⟩ := Candidate.exists_sorted hnamed (.inr hordered)
  have hself := (narrowerTypes?_eq_some habstract).2 ⟨sorted, hsorted, rfl⟩
  refine ⟨_, hself, fun source' s' d' rest' h' hd' hr parent' hparent' hname => ?_⟩
  have hredeclared := redeclared_of_declarations h h' hd hd' hr
  obtain ⟨names, hnames, hnames'⟩ := hredeclared.narrowerTypes?_eq
    (hredeclared.of_name h h' hparent hparent' hname) habstract hordered.clear
  exact hnames'.trans (hnames.symm.trans hself)

def reversedText : String :=
  "union U=N|M type N implements Z{f:Int} type M implements Z{f:Int} "
    ++ "interface Z{f:Int}"

def reversedLetters : Declarations :=
  ⟨.union ⟨"U", ["N", "M"]⟩ :: ((letters ["Z"] []).types.take 3).reverse, [], none⟩

theorem narrowerTypes?_redeclared_reversed :
    ∃ s s' parent parent', read (lettersText " implements Z" "M|N") = .ok s ∧
      read reversedText = .ok s' ∧ parent ∈ s.types ∧ parent.isAbstract = true ∧
      parent' ∈ s'.types ∧ Candidate.Ordered (candidates s parent "f") ∧
      narrowerTypes? s' parent' "f" = narrowerTypes? s parent "f" := by
  obtain ⟨rest, hd⟩ : ∃ rest, readDeclarations (.ofSource false
      (lettersText " implements Z" "M|N").toList) = .done (letters ["Z"] ["M", "N"]) rest :=
    ⟨_, rfl⟩
  obtain ⟨rest', hd'⟩ : ∃ rest, readDeclarations (.ofSource false reversedText.toList) =
      .done reversedLetters rest := ⟨_, rfl⟩
  have hload : (letters ["Z"] ["M", "N"]).load = .ok (letters ["Z"] ["M", "N"]).toSchema :=
    Declarations.load_of_fits (by decide +kernel) (by decide +kernel) rfl
  have hload' : reversedLetters.load = .ok reversedLetters.toSchema :=
    Declarations.load_of_fits (by decide +kernel) (by decide +kernel) rfl
  have hschema : read (lettersText " implements Z" "M|N") =
      .ok (letters ["Z"] ["M", "N"]).toSchema := by rw [read_of_done hd, hload]
  have hschema' : read reversedText = .ok reversedLetters.toSchema := by
    rw [read_of_done hd', hload']
  have hparent : .union ⟨"U", ["M", "N"]⟩ ∈ (letters ["Z"] ["M", "N"]).toSchema.types :=
    List.mem_of_getElem? (i := 3) rfl
  have hordered : Candidate.Ordered (candidates (letters ["Z"] ["M", "N"]).toSchema
      (.union ⟨"U", ["M", "N"]⟩) "f") :=
    ⟨by decide +kernel, by decide +kernel, by decide +kernel⟩
  have hredeclared : (letters ["Z"] ["M", "N"]).Redeclared reversedLetters :=
    ⟨_, .cons (.same _) (.cons (.same _) (.cons (.same _) (.cons (.union "U" (.swap ..)) .nil))),
      (List.reverse_perm _).symm⟩
  obtain ⟨-, hsame⟩ := narrowerTypes?_redeclared hschema hd hparent rfl "f"
  obtain ⟨names, hnames, hothers⟩ := hsame hordered
  refine ⟨_, _, _, .union ⟨"U", ["N", "M"]⟩, hschema, hschema', hparent, rfl, List.mem_cons_self,
    hordered, ?_⟩
  rw [hnames]
  exact hothers _ _ _ _ hschema' hd' hredeclared _ List.mem_cons_self rfl

/-- `Z` goes before `M`, which implements it, `M` before `N` and `N` before `Z` by their names. So
the order of the members of the union shows. -/
theorem narrowerTypes?_circle :
    ∃ s s' parent parent', read (lettersText "" "M|N") = .ok s ∧
      read (lettersText "" "N|M") = .ok s' ∧ s.type? "U" = some parent ∧
      s'.type? "U" = some parent' ∧ ¬ Candidate.Ordered (candidates s parent "f") ∧
      narrowerTypes? s parent "f" = some ["Z", "M", "N"] ∧
      narrowerTypes? s' parent' "f" = some ["M", "N", "Z"] := by
  have hread : readDeclarations.run SchemaFault.error false (lettersText "" "M|N") =
      .ok (letters [] ["M", "N"]) := rfl
  have hread' : readDeclarations.run SchemaFault.error false (lettersText "" "N|M") =
      .ok (letters [] ["N", "M"]) := rfl
  have hschema := read_eq_ok hread (Declarations.load_of_fits (by decide +kernel)
    (by decide +kernel) rfl)
  have hschema' := read_eq_ok hread' (Declarations.load_of_fits (by decide +kernel)
    (by decide +kernel) rfl)
  exact ⟨_, _, .union ⟨"U", ["M", "N"]⟩, .union ⟨"U", ["N", "M"]⟩, hschema, hschema', rfl, rfl,
    fun h => absurd h.trans (by decide +kernel), by decide +kernel, by decide +kernel⟩

end Schema

end GraphQLCheck
