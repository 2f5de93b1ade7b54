import GraphQLCheck.Proofs.Rules.NarrowerTypes
import GraphQLCheck.Proofs.Typing.Scopes
import GraphQLCheck.Proofs.Validation.Interleaving
import GraphQLCheck.Proofs.Validation.SpotCalls

/-!
Fields where no field resolves. A provider that knows type conditions alone has all fields reported
that are selected on a type, each once, and no other field (`unresolvedFields_exact`): a field on a
field is selected on nothing, and so is one on a condition that names no composite type. There is a
report unless the comparison of the types to suggest is no order on them, which a long sort finds
out and the run then fails (`unresolvedFields_noOrder`).
-/
namespace GraphQLCheck

open Rules

structure ScopedField where
  steps : List Segment
  field : Field
  parent : TypeDef

/-- What the spot selects on a type, where no field resolves. -/
def Spot.scopedField? (s : Schema) (x : Spot) : Option ScopedField :=
  match x.node with
  | .field f => (s.scopedOn x.above).map (⟨x.steps, f, ·⟩)
  | _ => none

theorem Spot.scopedField?_eq_some {s : Schema} {x : Spot} {y : ScopedField} :
    x.scopedField? s = some y ↔
      x.node = .field y.field ∧ x.steps = y.steps ∧ s.scopedOn x.above = some y.parent := by
  obtain ⟨steps, above, n⟩ := x
  obtain ⟨ysteps, g, t⟩ := y
  cases n with
  | field f =>
    simp only [scopedField?, Option.map_eq_some_iff, ScopedField.mk.injEq, Node.field.injEq]
    constructor
    · rintro ⟨u, hu, rfl, rfl, rfl⟩
      exact ⟨rfl, rfl, hu⟩
    · rintro ⟨rfl, rfl, hu⟩
      exact ⟨t, hu, rfl, rfl, rfl⟩
  | _ => simp [scopedField?]

theorem Spot.classOf_of_scopedField? {s : Schema} {x : Spot} {y : ScopedField}
    (h : x.scopedField? s = some y) : x.node.classOf = .field := by
  rw [(scopedField?_eq_some.1 h).1]
  rfl

def Document.scopedFields (s : Schema) (d : Document) : List ScopedField :=
  d.spots.filterMap (Spot.scopedField? s)

namespace ScopedField

def report? (s : Schema) (x : ScopedField) : Option Diagnostic :=
  (narrowerTypes? s x.parent x.field.name).map fun narrower =>
    let near := if narrower.isEmpty then nearFields x.parent x.field.name else []
    .atLocations (.unknownField x.field.name x.parent.name narrower near) [x.field.loc]

def placedReport? (s : Schema) (paths : Bool) (x : ScopedField) : Option Diagnostic :=
  (x.report? s).map fun r => if paths then r.attachPath ⟨x.steps⟩ else r

theorem isSome_report? (s : Schema) (x : ScopedField)
    (h : x.parent.isAbstract = true → (candidates s x.parent x.field.name).length ≤ 20 ∨
      Candidate.Ordered (candidates s x.parent x.field.name)) :
    (x.report? s).isSome = true := by
  rw [report?, Option.isSome_map]
  by_cases habstract : x.parent.isAbstract = true
  · obtain ⟨sorted, hsorted⟩ := Candidate.exists_sorted
      (Schema.named_candidates s x.field.name habstract) (h habstract)
    rw [(Schema.narrowerTypes?_eq_some habstract).2 ⟨sorted, hsorted, rfl⟩]
    rfl
  · rw [narrowerTypes?, if_neg habstract]
    rfl

end ScopedField

namespace Document

variable {s : Schema} {d : Document}

theorem mem_scopedFields {x : ScopedField} :
    x ∈ d.scopedFields s ↔ ∃ above, Leads (.document d) x.steps above.reverse (.field x.field) ∧
      s.scopedOn above = some x.parent := by
  simp only [scopedFields, List.mem_filterMap, mem_spots, Spot.scopedField?_eq_some]
  constructor
  · rintro ⟨⟨steps, above, n⟩, hleads, rfl, rfl, ht⟩
    exact ⟨above, hleads, ht⟩
  · rintro ⟨above, hleads, ht⟩
    exact ⟨⟨x.steps, above, .field x.field⟩, hleads, rfl, rfl, ht⟩

theorem nodup_scopedFields (s : Schema) (d : Document) :
    ((d.scopedFields s).map ScopedField.steps).Nodup := by
  have hdistinct : d.spots.Pairwise fun x y => x.steps ≠ y.steps :=
    List.pairwise_map.1 d.nodup_spots
  refine List.pairwise_map.2 (List.pairwise_filterMap.2 (hdistinct.imp ?_))
  intro x y hxy a ha b hb
  rw [← (Spot.scopedField?_eq_some.1 ha).2.1, ← (Spot.scopedField?_eq_some.1 hb).2.1]
  exact hxy

end Document

namespace Rules

section
variable {s : Schema} {p : Provider} {d : Document}

theorem react_field {x : Spot} (hs : s.Closed) (hp : p.Fieldless s) (hx : x ∈ d.spots)
    (hclass : x.node.classOf = .field) :
    fieldsOnCorrectType.react (⟨s, d⟩ : Subject) (x.entering p s) () =
      match x.scopedField? s with
      | none => .next () []
      | some y => match y.report? s with
        | some r => .next () [r]
        | none => .fail () noOrder := by
  obtain ⟨steps, above, n⟩ := x
  cases n with
  | field f =>
    obtain ⟨hparent, hfield⟩ := Frame.field_along hs hp (Document.mem_spots.1 hx)
    simp only [fieldsOnCorrectType, Spot.entering, Run.visitAt, Run.visitNow, hparent, hfield,
      Spot.scopedField?]
    cases s.scopedOn above with
    | none => rfl
    | some t =>
      simp only [Option.map_some, ScopedField.report?]
      cases narrowerTypes? s t f.name <;> rfl
  | _ => cases hclass

theorem call_field {x : Spot} (hs : s.Closed) (hp : p.Fieldless s) (hx : x ∈ d.spots)
    (hclass : x.node.classOf = .field) (paths : Bool) :
    (Run.answer ⟨p, none, paths⟩ (⟨s, d⟩ : Subject) (x.entering p s)
        ⟨0, fieldsOnCorrectType, ()⟩).call =
      ⟨0, x.entering p s, ((x.scopedField? s).bind (·.placedReport? s paths)).toList,
        ((x.scopedField? s).filter fun y => (y.report? s).isNone).map fun _ => noOrder, false⟩ := by
  have hreact := react_field hs hp hx hclass
  rw [Run.answer, Run.respond]
  cases hy : x.scopedField? s with
  | none =>
    simp only [hy] at hreact
    rw [hreact]
    cases paths <;> rfl
  | some y =>
    have hsteps : x.steps = y.steps := (Spot.scopedField?_eq_some.1 hy).2.1
    simp only [hy] at hreact
    simp only [Option.bind_some, ScopedField.placedReport?, Option.filter_some, ← hsteps]
    cases hr : y.report? s with
    | none =>
      simp only [hr] at hreact
      rw [hreact]
      cases paths <;> rfl
    | some r =>
      simp only [hr] at hreact
      rw [hreact]
      cases paths <;> rfl

theorem trace_fields (hs : s.Closed) (hp : p.Fieldless s) (d : Document) (paths : Bool) :
    (Run.ofDocument ⟨p, none, paths⟩ ⟨s, d⟩ [fieldsOnCorrectType]).trace =
      (d.spots.filter fun x => x.node.classOf = .field).map fun x =>
        ⟨0, x.entering p s, ((x.scopedField? s).bind (·.placedReport? s paths)).toList,
          ((x.scopedField? s).filter fun y => (y.report? s).isNone).map fun _ => noOrder,
          false⟩ := by
  have : Subsingleton fieldsOnCorrectType.State := inferInstanceAs (Subsingleton Unit)
  have hhandlers : fieldsOnCorrectType.handlers = .entering [.field] := rfl
  have htrace := Run.trace_spots ⟨p, none, paths⟩ ⟨s, d⟩ hhandlers continues_fieldsOnCorrectType
    StandardRule.fieldsOnCorrectType.blind
  simp only [List.mem_singleton] at htrace
  refine htrace.trans (List.map_congr_left fun x hx => ?_)
  obtain ⟨hx, hclass⟩ := List.mem_filter.1 hx
  exact call_field hs hp hx (of_decide_eq_true hclass) paths

theorem reports_fields (hs : s.Closed) (hp : p.Fieldless s) (d : Document) (paths : Bool) :
    (Run.ofDocument ⟨p, none, paths⟩ ⟨s, d⟩ [fieldsOnCorrectType]).trace.flatMap Call.reports =
      (d.scopedFields s).filterMap (·.placedReport? s paths) := by
  have hothers : ∀ x : Spot, (if x.node.classOf = .field then
      (x.scopedField? s).bind (·.placedReport? s paths) else none) =
        (x.scopedField? s).bind (·.placedReport? s paths) := by
    intro x
    split
    · rfl
    · rename_i hclass
      cases hy : x.scopedField? s with
      | none => rfl
      | some y =>
        exact absurd (Spot.classOf_of_scopedField? hy) hclass
  rw [trace_fields hs hp, List.flatMap_map, ← List.filterMap_eq_flatMap_toList,
    List.filterMap_filter, Document.scopedFields, List.filterMap_filterMap]
  simp only [decide_eq_true_eq, hothers]

theorem exists_failure (hs : s.Closed) (hp : p.Fieldless s) (d : Document) (paths : Bool)
    {message : String} :
    (∃ c ∈ (Run.ofDocument ⟨p, none, paths⟩ ⟨s, d⟩ [fieldsOnCorrectType]).trace,
        c.failure = some message) ↔
      message = noOrder ∧ ∃ y ∈ d.scopedFields s, y.report? s = none := by
  rw [trace_fields hs hp]
  constructor
  · rintro ⟨c, hc, hmessage⟩
    obtain ⟨x, hx, rfl⟩ := List.mem_map.1 hc
    obtain ⟨y, hy, rfl⟩ := Option.map_eq_some_iff.1 hmessage
    obtain ⟨hy, hnone⟩ := Option.filter_eq_some_iff.1 hy
    exact ⟨rfl, y, List.mem_filterMap.2 ⟨x, (List.mem_filter.1 hx).1, hy⟩,
      Option.isNone_iff_eq_none.1 hnone⟩
  · rintro ⟨rfl, y, hy, hnone⟩
    obtain ⟨x, hx, hy⟩ := List.mem_filterMap.1 hy
    have hclass := decide_eq_true (Spot.classOf_of_scopedField? hy)
    have hfilter : (x.scopedField? s).filter (fun y => (y.report? s).isNone) = some y :=
      Option.filter_eq_some_iff.2 ⟨hy, Option.isNone_iff_eq_none.2 hnone⟩
    exact ⟨_, List.mem_map_of_mem (List.mem_filter.2 ⟨hx, hclass⟩),
      Option.map_eq_some_iff.2 ⟨y, hfilter, rfl⟩⟩

theorem map_eq_map_some {α β : Type} {f : α → Option β} {as : List α} {bs : List β} :
    as.map f = bs.map some ↔ (∀ a ∈ as, f a ≠ none) ∧ as.filterMap f = bs := by
  constructor
  · intro h
    have hsome : ∀ a ∈ as, f a ≠ none := by
      intro a ha
      obtain ⟨b, -, hb⟩ := List.mem_map.1 (h ▸ List.mem_map_of_mem (f := f) ha)
      simp [← hb]
    refine ⟨hsome, ?_⟩
    have hfilter := congrArg (List.filterMap id) h
    simpa [List.filterMap_map] using hfilter
  · rintro ⟨hsome, rfl⟩
    rw [List.map_filterMap_some_eq_filter_map_isSome, List.filter_eq_self.2]
    intro b hb
    obtain ⟨a, ha, rfl⟩ := List.mem_map.1 hb
    exact Option.isSome_iff_ne_none.2 (hsome a ha)

theorem placedReport?_ne_none {paths : Bool} {y : ScopedField} :
    y.placedReport? s paths ≠ none ↔ y.report? s ≠ none :=
  not_congr Option.map_eq_none_iff

theorem result_fields_ok (hs : s.Closed) (hp : p.Fieldless s) (d : Document) (paths : Bool)
    {E : List Diagnostic} :
    (Run.ofDocument ⟨p, none, paths⟩ ⟨s, d⟩ [fieldsOnCorrectType]).result = .ok E ↔
      (d.scopedFields s).map (·.placedReport? s paths) = E.map some := by
  have hfailure : (∀ c ∈ (Run.ofDocument ⟨p, none, paths⟩ ⟨s, d⟩ [fieldsOnCorrectType]).trace,
      c.failure = none) ↔ ∀ y ∈ d.scopedFields s, y.placedReport? s paths ≠ none := by
    simp only [placedReport?_ne_none]
    constructor
    · intro h y hy hnone
      obtain ⟨c, hc, hmessage⟩ := (exists_failure hs hp d paths).2 ⟨rfl, y, hy, hnone⟩
      exact absurd ((h c hc).symm.trans hmessage) nofun
    · intro h c hc
      by_contra hne
      obtain ⟨message, hmessage⟩ := Option.ne_none_iff_exists'.1 hne
      obtain ⟨-, y, hy, hnone⟩ := (exists_failure hs hp d paths).1 ⟨c, hc, hmessage⟩
      exact h y hy hnone
  have hdiagnostics := (Run.told_ofDocument ⟨p, none, paths⟩ ⟨s, d⟩
    [fieldsOnCorrectType]).diagnostics.trans (reports_fields hs hp d paths)
  rw [Run.result_eq_ok, hfailure, map_eq_map_some]
  exact and_congr_right fun _ => Eq.congr_left hdiagnostics

theorem result_fields_error (hs : s.Closed) (hp : p.Fieldless s) (d : Document) (paths : Bool) :
    (Run.ofDocument ⟨p, none, paths⟩ ⟨s, d⟩ [fieldsOnCorrectType]).result = .error noOrder ↔
      ∃ y ∈ d.scopedFields s, y.report? s = none := by
  rw [Run.result_eq_error]
  constructor
  · intro hfailure
    obtain ⟨c, hc, hmessage⟩ := List.exists_of_findSome?_eq_some hfailure
    exact ((exists_failure hs hp d paths).1 ⟨c, hc, hmessage⟩).2
  · rintro hnone
    obtain ⟨c, hc, hmessage⟩ := (exists_failure hs hp d paths).2 ⟨rfl, hnone⟩
    cases hfailure : (Run.ofDocument ⟨p, none, paths⟩ ⟨s, d⟩ [fieldsOnCorrectType]).failure? with
    | none =>
      exact absurd (List.findSome?_eq_none_iff.1 hfailure c hc) (by simp [hmessage])
    | some message =>
      -- The first failure is the same as all others.
      obtain ⟨c', hc', hmessage'⟩ := List.exists_of_findSome?_eq_some hfailure
      rw [((exists_failure hs hp d paths).1 ⟨c', hc', hmessage'⟩).1]

end

/-- Where conditions resolve and no field does, the fields that are selected on a type are reported,
each once and in the order of a traversal, and no others. The run fails where there is no report of
one of them, which takes more than 20 types to suggest, and those in no order. -/
theorem unresolvedFields_exact {s : Schema} (hs : s.Loaded) {p : Provider} (hp : p.Fieldless s)
    (d : Document) (paths : Bool) :
    (∀ x, x ∈ d.scopedFields s ↔ ∃ above,
      Leads (.document d) x.steps above.reverse (.field x.field) ∧
        s.scopedOn above = some x.parent) ∧
    ((d.scopedFields s).map ScopedField.steps).Nodup ∧
    (∀ E, (Run.ofDocument ⟨p, none, paths⟩ ⟨s, d⟩ [fieldsOnCorrectType]).result = .ok E ↔
      (d.scopedFields s).map (·.placedReport? s paths) = E.map some) ∧
    ((Run.ofDocument ⟨p, none, paths⟩ ⟨s, d⟩ [fieldsOnCorrectType]).result = .error noOrder ↔
      ∃ x ∈ d.scopedFields s, x.report? s = none) ∧
    ∀ x : ScopedField, (x.parent.isAbstract = true →
        (candidates s x.parent x.field.name).length ≤ 20 ∨
          Candidate.Ordered (candidates s x.parent x.field.name)) →
      x.report? s ≠ none :=
  ⟨fun _ => Document.mem_scopedFields, Document.nodup_scopedFields s d,
    fun _ => result_fields_ok hs.closed hp d paths, result_fields_error hs.closed hp d paths,
    fun x h => Option.isSome_iff_ne_none.1 (x.isSome_report? s h)⟩

/-- The document
`{ f { g } ... { h } ... on No { i ... on Query { j } } } mutation { k } fragment F on Query { l }`,
in which `f`, `h`, `j` and `l` are selected on a type. -/
def nestedScopes : Document :=
  let leaf (name : String) (column : Nat) : Selection :=
    .field ⟨none, name, [], [], [], some ⟨1, column⟩⟩
  ⟨[.operation ⟨.query, none, [], [],
      [.field ⟨none, "f", [], [], [leaf "g" 7], some ⟨1, 3⟩⟩,
        .inline ⟨none, [], [leaf "h" 17], some ⟨1, 11⟩⟩,
        .inline ⟨some ⟨"No", some ⟨1, 28⟩⟩, [], [leaf "i" 33,
          .inline ⟨some ⟨"Query", some ⟨1, 42⟩⟩, [], [leaf "j" 50], some ⟨1, 35⟩⟩],
          some ⟨1, 21⟩⟩], some ⟨1, 1⟩⟩,
    .operation ⟨.mutation, none, [], [], [leaf "k" 69], some ⟨1, 58⟩⟩,
    .fragment ⟨⟨"F", some ⟨1, 82⟩⟩, ⟨"Query", some ⟨1, 87⟩⟩, [], [leaf "l" 95], some ⟨1, 73⟩⟩], 97⟩

theorem unresolvedFields_nested :
    oneFieldSchema.Loaded ∧ Provider.conditionsOnly.Fieldless oneFieldSchema ∧
    (Run.ofDocument ⟨.conditionsOnly, none, false⟩ ⟨oneFieldSchema, nestedScopes⟩
      [fieldsOnCorrectType]).result =
        .ok ([("f", 3), ("h", 17), ("j", 50), ("l", 95)].map fun (name, column) =>
          .atLocations (.unknownField name "Query" [] ["f"]) [some ⟨1, column⟩]) ∧
    (nestedScopes.scopedFields oneFieldSchema).length = 4 := by
  have hrun : (Run.ofDocument ⟨.conditionsOnly, none, false⟩ ⟨oneFieldSchema, nestedScopes⟩
      [fieldsOnCorrectType]).result =
        .ok ([("f", 3), ("h", 17), ("j", 50), ("l", 95)].map fun (name, column) =>
          .atLocations (.unknownField name "Query" [] ["f"]) [some ⟨1, column⟩]) :=
    Run.result_eq_ok.2 ⟨by decide +kernel, by decide +kernel⟩
  obtain ⟨-, -, hreports, -, -⟩ := unresolvedFields_exact loaded_oneField
    (Provider.fieldless_conditionsOnly _) nestedScopes false
  have hlength := congrArg List.length ((hreports _).1 hrun)
  rw [List.length_map, List.length_map] at hlength
  exact ⟨loaded_oneField, Provider.fieldless_conditionsOnly _, hrun, hlength⟩

def crowd : List String := "M" :: List.replicate 19 "N"

def onCrowd : Document :=
  ⟨[.operation ⟨.query, none, [], [],
    [.inline ⟨some ⟨"U", some ⟨1, 10⟩⟩, [],
      [.field ⟨none, "f", [], [], [], some ⟨1, 14⟩⟩], some ⟨1, 3⟩⟩], some ⟨1, 1⟩⟩], 18⟩

set_option maxRecDepth 4000 in
theorem read_crowd :
    Schema.read (Schema.lettersText "" ("|".intercalate crowd)) =
      .ok (Schema.letters [] crowd).toSchema := by
  have hread : readDeclarations.run SchemaFault.error false
      (Schema.lettersText "" ("|".intercalate crowd)) = .ok (Schema.letters [] crowd) := rfl
  exact Schema.read_eq_ok hread (Declarations.load_of_fits (by decide +kernel)
    (by decide +kernel) rfl)

/-- A field on a union is not reported, since `Z` goes before `M`, which implements it, `M` before
`N` and `N` before `Z` by their names, and the sort of 21 candidates finds that out. -/
theorem unresolvedFields_noOrder :
    ∃ s, Schema.read (Schema.lettersText "" ("|".intercalate crowd)) = .ok s ∧
      Provider.conditionsOnly.Fieldless s ∧ (∃ x ∈ onCrowd.scopedFields s, x.report? s = none) ∧
      (Run.ofDocument ⟨.conditionsOnly, none, false⟩ ⟨s, onCrowd⟩ [fieldsOnCorrectType]).result =
        .error noOrder := by
  have hloaded : (Schema.letters [] crowd).toSchema.Loaded := .read read_crowd
  have hrun : (Run.ofDocument ⟨.conditionsOnly, none, false⟩
      ⟨(Schema.letters [] crowd).toSchema, onCrowd⟩ [fieldsOnCorrectType]).result =
        .error noOrder := Run.result_eq_error.2 (by decide +kernel)
  exact ⟨_, read_crowd, Provider.fieldless_conditionsOnly _,
    (result_fields_error hloaded.closed (Provider.fieldless_conditionsOnly _) onCrowd false).1 hrun, hrun⟩

end Rules
end GraphQLCheck
