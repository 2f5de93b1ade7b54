import GraphQLCheck.Proofs.Schema.Ordered
import GraphQLCheck.Proofs.Validation.Entering

/-!
Arguments are checked against their own owner. An argument belongs to the directive or the field in
which it is written, and what that resolves to hangs on the nodes above it. `unknownArgument` and
`missingArguments` say so of a node, and `argumentReports_exact` that both rules on arguments report
this and nothing else. A directive on a field does not take arguments from the field, be it known or
not, since each of both sets the owner of the arguments below it anew.
-/
namespace GraphQLCheck

namespace Rules

def unknownName (inputs : List InputDef) (a : Argument) (problem : List String → Problem) :
    Option Diagnostic :=
  if a.name ∈ inputs.map InputDef.name then none
  else some (.atLocations (problem (Suggestion.near a.name (inputs.map InputDef.name))) [a.loc])

def unknownArgument (s : Schema) (x : Spot) : Option Diagnostic :=
  match x.node, x.above with
  | .argument a, .field f :: above => do
    let t ← s.selectedOn above
    let d ← Provider.schemaField? s t f.name
    unknownName d.arguments a (.unknownFieldArgument a.name t.name d.name)
  | .argument a, .directive y :: _ => do
    let d ← s.directive? y.name
    unknownName d.arguments a (.unknownDirectiveArgument a.name d.name)
  | _, _ => none

def missingAmong (inputs : List InputDef) (passed : List Argument) (loc : Option Location)
    (problem : String → String → Problem) : List Diagnostic :=
  (missingInputs inputs (passed.map (·.name))).map fun i =>
    .atLocations (problem i.name i.type.print) [loc]

def missingArguments (s : Schema) (x : Spot) : List Diagnostic :=
  match x.node with
  | .field f => (s.fieldBelow x.above f).elim [] fun d =>
    missingAmong d.arguments f.arguments f.loc (.missingFieldArgument · · d.name)
  | .directive y => (s.directive? y.name).elim [] fun d =>
    missingAmong d.arguments y.arguments y.loc (.missingDirectiveArgument · · d.name)
  | _ => []

theorem missingInputs_perm (inputs : List InputDef) (given : List String) :
    (missingInputs inputs given).Perm
      (inputs.filter fun i => i.isRequired ∧ i.name ∉ given) := by
  have hfilter : (fun i : InputDef => i.isRequired && !given.contains i.name) =
      fun i => decide (i.isRequired ∧ i.name ∉ given) := by
    funext i
    simp
  rw [missingInputs, hfilter]
  exact (Named.sorted_perm InputDef.name inputs).filter _

theorem pairwise_missingInputs (inputs : List InputDef) (given : List String) :
    (missingInputs inputs given).Pairwise fun i j => i.name ≤ j.name :=
  ((Named.pairwise_sorted InputDef.name inputs).imp of_decide_eq_true).filter _

theorem find?_eq_none_iff {inputs : List InputDef} {name : String} :
    Named.find? InputDef.name name inputs = none ↔ name ∉ inputs.map InputDef.name := by
  simp [Named.find?]

theorem unknownName_eq {inputs : List InputDef} {a : Argument} (problem : List String → Problem) :
    unknownName inputs a problem = match Named.find? InputDef.name a.name inputs with
      | some _ => none
      | none => some (.atLocations
          (problem (Suggestion.near a.name (inputs.map InputDef.name))) [a.loc]) := by
  rw [unknownName]
  cases hfind : Named.find? InputDef.name a.name inputs with
  | none => rw [if_neg (find?_eq_none_iff.1 hfind)]
  | some i =>
    rw [if_pos]
    by_contra hname
    rw [find?_eq_none_iff.2 hname] at hfind
    exact absurd hfind nofun

theorem path_unknownName {inputs : List InputDef} {a : Argument} {problem : List String → Problem}
    {r : Diagnostic} (h : unknownName inputs a problem = some r) : r.path = none := by
  rw [unknownName] at h
  split at h
  · exact absurd h nofun
  · rw [← Option.some.inj h]
    rfl

theorem path_unknownArgument {s : Schema} {x : Spot} {r : Diagnostic}
    (h : unknownArgument s x = some r) : r.path = none := by
  simp only [unknownArgument, Option.bind_eq_bind] at h
  split at h
  · obtain ⟨t, -, h⟩ := Option.bind_eq_some_iff.1 h
    obtain ⟨d, -, h⟩ := Option.bind_eq_some_iff.1 h
    exact path_unknownName h
  · obtain ⟨d, -, h⟩ := Option.bind_eq_some_iff.1 h
    exact path_unknownName h
  · exact absurd h nofun

theorem path_missingAmong {inputs : List InputDef} {passed : List Argument} {loc : Option Location}
    {problem : String → String → Problem} {r : Diagnostic}
    (h : r ∈ missingAmong inputs passed loc problem) : r.path = none := by
  obtain ⟨i, -, rfl⟩ := List.mem_map.1 h
  rfl

theorem path_missingArguments {s : Schema} {x : Spot} {r : Diagnostic}
    (h : r ∈ missingArguments s x) : r.path = none := by
  rw [missingArguments] at h
  split at h
  · rename_i f _
    cases hd : s.fieldBelow x.above f with
    | none => simp [hd] at h
    | some d =>
      rw [hd, Option.elim_some] at h
      exact path_missingAmong h
  · rename_i y _
    cases hd : s.directive? y.name with
    | none => simp [hd] at h
    | some d =>
      rw [hd, Option.elim_some] at h
      exact path_missingAmong h
  · exact absurd h List.not_mem_nil

def unknownTo (parent : Option TypeDef) (a : Argument) : ArgumentOwner → Option Diagnostic
  | .field d => parent.bind fun t =>
    unknownName d.arguments a (.unknownFieldArgument a.name t.name d.name)
  | .directive d => unknownName d.arguments a (.unknownDirectiveArgument a.name d.name)

theorem reports_argument {F : Frame} {a : Argument} {o : Option ArgumentOwner}
    (howner : F.owner = o) (hargument : F.argument = o.bind (·.argument? a.name))
    (subject : Subject) (path : Path) (depth : Nat) :
    (knownArgumentNames.react subject ⟨.enter, .argument a, path, F, depth⟩ ()).reports =
      (o.bind (unknownTo F.parent a)).toList := by
  simp only [knownArgumentNames, Rule.stateless, Reaction.next, howner, hargument]
  cases o with
  | none => rfl
  | some owner =>
    cases owner with
    | field d =>
      simp only [Option.bind_some, ArgumentOwner.argument?, FieldDef.argument?, unknownTo,
        unknownName_eq]
      cases Named.find? InputDef.name a.name d.arguments with
      | some i => cases F.parent <;> rfl
      | none => cases F.parent <;> rfl
    | directive d =>
      simp only [Option.bind_some, ArgumentOwner.argument?, DirectiveDef.argument?, unknownTo,
        unknownName_eq]
      cases Named.find? InputDef.name a.name d.arguments <;> rfl

theorem expects_unknownArgument (s : Schema) (d : Document) :
    Rule.Expects s d [.argument]
      (fun subject visit => (knownArgumentNames.react subject visit ()).reports)
      fun x => (unknownArgument s x).toList where
  reports {x frame} path depth hfits := by
    obtain ⟨steps, above, n⟩ := x
    cases n with
    | argument a =>
      obtain ⟨howner, hargument, hparent⟩ := hfits
      refine (reports_argument howner hargument _ path depth).trans ?_
      cases above with
      | nil => rfl
      | cons m above =>
        cases m with
        | field f =>
          rw [hparent f above rfl]
          simp only [unknownArgument, Schema.ownerBelow, Schema.fieldBelow, Option.bind_eq_bind]
          cases s.selectedOn above with
          | none => rfl
          | some t =>
            simp only [Option.bind_some]
            cases Provider.schemaField? s t f.name with
            | none => rfl
            | some d => rfl
        | directive y =>
          simp only [unknownArgument, Schema.ownerBelow]
          cases s.directive? y.name <;> rfl
        | _ => rfl
    | _ => rfl
  called {x} hclass := by
    obtain ⟨steps, above, n⟩ := x
    cases n with
    | argument a => exact absurd List.mem_cons_self hclass
    | _ => rfl
  pathless hr := path_unknownArgument (Option.mem_toList.1 hr)

theorem expects_missingArguments (s : Schema) (d : Document) :
    Rule.Expects s d [.field, .directive]
      (fun subject visit => (providedRequiredArguments.react subject visit ()).reports)
      (missingArguments s) where
  reports {x frame} path depth hfits := by
    obtain ⟨steps, above, n⟩ := x
    cases n with
    | field f =>
      obtain ⟨-, -, hfield, -⟩ := hfits
      simp only [providedRequiredArguments, Rule.stateless, Reaction.next, missingArguments, hfield]
      cases s.fieldBelow above f <;> rfl
    | directive y =>
      obtain ⟨hdirective, -⟩ := hfits
      simp only [providedRequiredArguments, Rule.stateless, Reaction.next, missingArguments,
        hdirective]
      cases s.directive? y.name <;> rfl
    | _ => rfl
  called {x} hclass := by
    obtain ⟨steps, above, n⟩ := x
    cases n with
    | field f => exact absurd List.mem_cons_self hclass
    | directive y => exact absurd (List.mem_cons_of_mem _ List.mem_cons_self) hclass
    | _ => rfl
  pathless := path_missingArguments

/-- Both rules on arguments check each argument against the field or the directive in which it is
written, and each of these against the arguments that are written in it. -/
theorem argumentReports_exact {s : Schema} (hs : s.Loaded) (d : Document) (paths : Bool) :
    ((d.spots.map Spot.steps).Nodup ∧
      ∀ x, x ∈ d.spots ↔ Leads (.document d) x.steps x.above.reverse x.node) ∧
    (∃ E, (Run.ofDocument ⟨.standard, none, paths⟩ ⟨s, d⟩ [knownArgumentNames]).result = .ok E ∧
      E.map Diagnostic.withoutPath = d.spots.filterMap (unknownArgument s)) ∧
    (∃ E, (Run.ofDocument ⟨.standard, none, paths⟩ ⟨s, d⟩
        [providedRequiredArguments]).result = .ok E ∧
      E.map Diagnostic.withoutPath = d.spots.flatMap (missingArguments s)) ∧
    ∀ (inputs : List InputDef) (given : List String),
      (missingInputs inputs given).Perm
        (inputs.filter fun i => i.isRequired ∧ i.name ∉ given) ∧
      (missingInputs inputs given).Pairwise fun i j => i.name ≤ j.name := by
  refine ⟨⟨d.nodup_spots, fun x => Document.mem_spots⟩, ?_, ?_,
    fun inputs given => ⟨missingInputs_perm inputs given, pairwise_missingInputs inputs given⟩⟩
  · rw [List.filterMap_eq_flatMap_toList]
    exact Rule.result_entering hs.closed (expects_unknownArgument s d) paths
  · exact Rule.result_entering hs.closed (expects_missingArguments s d) paths

def unknownOwners : Document :=
  ⟨[.operation ⟨.query, none, [], [],
    [.field ⟨none, "f", [⟨"b", .int "1" (some ⟨1, 8⟩), some ⟨1, 5⟩⟩],
      [⟨"skip", [], some ⟨1, 11⟩⟩, ⟨"nope", [⟨"x", .int "2" (some ⟨1, 26⟩), some ⟨1, 23⟩⟩],
        some ⟨1, 17⟩⟩], [], some ⟨1, 3⟩⟩], some ⟨1, 1⟩⟩], 31⟩

theorem argumentReports_unknownOwners :
    oneFieldSchema.Loaded ∧
    (Run.ofDocument .standard ⟨oneFieldSchema, unknownOwners⟩ [knownArgumentNames]).result =
      .ok [.atLocations (.unknownFieldArgument "b" "Query" "f" ["a"]) [some ⟨1, 5⟩]] ∧
    (Run.ofDocument .standard ⟨oneFieldSchema, unknownOwners⟩ [providedRequiredArguments]).result =
      .ok [.atLocations (.missingFieldArgument "a" "Int!" "f") [some ⟨1, 3⟩],
        .atLocations (.missingDirectiveArgument "if" "Boolean!" "skip") [some ⟨1, 11⟩]] ∧
    unknownOwners.spots.filterMap (unknownArgument oneFieldSchema) =
      [.atLocations (.unknownFieldArgument "b" "Query" "f" ["a"]) [some ⟨1, 5⟩]] ∧
    unknownOwners.spots.flatMap (missingArguments oneFieldSchema) =
      [.atLocations (.missingFieldArgument "a" "Int!" "f") [some ⟨1, 3⟩],
        .atLocations (.missingDirectiveArgument "if" "Boolean!" "skip") [some ⟨1, 11⟩]] := by
  obtain ⟨-, ⟨E, hknown, hunknown⟩, ⟨E', hprovided, hmissing⟩, -⟩ :=
    argumentReports_exact loaded_oneField unknownOwners false
  have hrun : (Run.ofDocument .standard ⟨oneFieldSchema, unknownOwners⟩
      [knownArgumentNames]).result =
        .ok [.atLocations (.unknownFieldArgument "b" "Query" "f" ["a"]) [some ⟨1, 5⟩]] :=
    Run.result_eq_ok.2 ⟨by decide +kernel, by decide +kernel⟩
  have hrun' : (Run.ofDocument .standard ⟨oneFieldSchema, unknownOwners⟩
      [providedRequiredArguments]).result =
        .ok [.atLocations (.missingFieldArgument "a" "Int!" "f") [some ⟨1, 3⟩],
          .atLocations (.missingDirectiveArgument "if" "Boolean!" "skip") [some ⟨1, 11⟩]] :=
    Run.result_eq_ok.2 ⟨by decide +kernel, by decide +kernel⟩
  obtain rfl := Except.ok.inj (hknown.symm.trans hrun)
  obtain rfl := Except.ok.inj (hprovided.symm.trans hrun')
  exact ⟨loaded_oneField, hrun, hrun', hunknown.symm, hmissing.symm⟩

end Rules
end GraphQLCheck
