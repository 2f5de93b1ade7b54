import GraphQLCheck.Proofs.Rules.CycleSearch
import GraphQLCheck.Proofs.Validation.Outline

/-!
The rule on cycles of fragments searches from one definition after the other and remembers which
fragments were searched. It reports cycles, and none if and only if there are none.
-/
namespace GraphQLCheck

namespace Document

variable (d : Document)

inductive SearchesAll : List Fragment → List String → List Cycle → List String → Prop
  | done (searched : List String) : SearchesAll [] searched [] searched
  | passes {f : Fragment} {fs : List Fragment} {searched after : List String}
    {found : List Cycle} :
    f.name.text ∈ searched → SearchesAll fs searched found after →
    SearchesAll (f :: fs) searched found after
  | enters {f : Fragment} {fs : List Fragment} {hops : List Hop}
    {searched between after : List String} {inner found : List Cycle} :
    f.name.text ∉ searched → d.fragment? f.name.text = some f → d.HopsOf f hops →
    d.Searches [] hops (f.name.text :: searched) inner between →
    SearchesAll fs between found after →
    SearchesAll (f :: fs) searched (inner ++ found) after

variable {d}

namespace SearchesAll

variable {fs : List Fragment} {searched after : List String} {found : List Cycle}

theorem subset (h : d.SearchesAll fs searched found after) :
    searched ⊆ after ∧ ∀ f ∈ fs, f.name.text ∈ after := by
  induction h with
  | done => exact ⟨List.Subset.refl _, by simp⟩
  | passes hsearched _ ih =>
    exact ⟨ih.1, List.forall_mem_cons.2 ⟨ih.1 hsearched, ih.2⟩⟩
  | enters _ _ _ hinner _ ih =>
    obtain ⟨hname, hbetween⟩ := List.cons_subset.1 hinner.subset
    exact ⟨List.Subset.trans hbetween ih.1, List.forall_mem_cons.2 ⟨ih.1 hname, ih.2⟩⟩

theorem sound (h : d.SearchesAll fs searched found after) : ∀ c ∈ found, d.IsCycle c := by
  induction h with
  | done => simp
  | passes _ _ ih => exact ih
  | enters _ hf hhops hinner _ ih =>
    intro c hc
    rcases List.mem_append.1 hc with hc | hc
    · have hway : d.OnWay _ [] _ := ⟨⟨_, .stay _⟩, List.nodup_singleton _,
        fun y hy => ⟨hhops.hasHop y hy, hhops.source_eq hf y hy⟩⟩
      exact hinner.sound hway c hc
    · exact ih c hc

theorem closedIn (h : d.SearchesAll fs searched found after) :
    ∀ c ∈ found, ∃ y, c.hops.getLast? = some y ∧ y.source ∈ after ∧ y.source ∉ searched := by
  induction h with
  | done => simp
  | passes _ _ ih => exact ih
  | enters hnew hf hhops hinner hrest ih =>
    intro c hc
    rcases List.mem_append.1 hc with hc | hc
    · obtain ⟨y, hy, hwhere, hnot⟩ := (hinner.closedBy c hc).inside
        (hhops.source_eq hf) hinner.subset hnew
      exact ⟨y, hy, hrest.subset.1 hwhere, hnot⟩
    · obtain ⟨y, hy, hwhere, hnot⟩ := ih c hc
      exact ⟨y, hy, hwhere, fun hmem => hnot (hinner.subset (List.mem_cons_of_mem _ hmem))⟩

theorem nodup_closing (h : d.SearchesAll fs searched found after) :
    (found.map fun c => c.hops.getLast?).Nodup := by
  induction h with
  | done => exact .nil
  | passes _ _ ih => exact ih
  | enters hnew hf hhops hinner hrest ih =>
    rw [List.map_append, List.nodup_append']
    refine ⟨hinner.nodup_closing (hhops.source_eq hf) List.mem_cons_self hhops.nodup, ih,
      fun last hleft hright => ?_⟩
    obtain ⟨c, hc, rfl⟩ := List.mem_map.1 hleft
    obtain ⟨e, he, hsame⟩ := List.mem_map.1 hright
    obtain ⟨y, hy, hwhere, -⟩ :=
      (hinner.closedBy c hc).inside (hhops.source_eq hf) hinner.subset hnew
    obtain ⟨z, hz, -, hnot⟩ := hrest.closedIn e he
    obtain rfl : z = y := Option.some.inj (hz.symm.trans (hsame.trans hy))
    exact hnot hwhere

theorem grounded (h : d.SearchesAll fs searched found after) (hfound : found = [])
    (hsearched : ∀ b ∈ searched, d.Grounded b) : ∀ b ∈ after, d.Grounded b := by
  induction h with
  | done => exact hsearched
  | passes _ _ ih => exact ih hfound hsearched
  | @enters f fs hops searched between after inner found _ hf hhops hinner _ ih =>
    obtain ⟨rfl, rfl⟩ := List.append_eq_nil_iff.1 hfound
    have hway : ∀ b ∈ f.name.text :: searched, b ∈ [f.name.text] ∨ d.Grounded b := by
      intro b hb
      rcases List.mem_cons.1 hb with rfl | hb
      · exact .inl List.mem_cons_self
      · exact .inr (hsearched b hb)
    obtain ⟨hbelow, hbetween⟩ := hinner.grounded rfl (hhops.source_eq hf) hway
    have hleft := (Searches.grounded_of_hops [] hf hhops hbelow hbetween).2
    exact ih rfl fun b hb => (hleft b hb).resolve_left (by simp)

theorem found_eq_nil_iff (h : d.SearchesAll d.fragments [] found after) :
    found = [] ↔ d.Acyclic := by
  constructor
  · intro hfound
    exact acyclic_of_grounded fun f hf => h.grounded hfound (by simp) _ (h.subset.2 f hf)
  · intro hacyclic
    refine List.eq_nil_iff_forall_not_mem.2 fun c hc => ?_
    exact (h.sound c hc).not_acyclic hacyclic

end SearchesAll

theorem fragment?_of_new {before fs : List Fragment} {f : Fragment}
    (h : d.fragments = before ++ f :: fs) (hnew : f.name.text ∉ before.map (·.name.text)) :
    d.fragment? f.name.text = some f := by
  have hbefore : before.find? (·.name.text == f.name.text) = none := by
    refine List.find?_eq_none.2 fun g hg heq => hnew ?_
    exact List.mem_map.2 ⟨g, hg, by simpa using heq⟩
  rw [fragment?, h, List.find?_append, hbefore]
  simp

end Document

namespace Rules
open Document

theorem outlining_noFragmentCycles : noFragmentCycles.Outlining where
  asks slot h := by
    obtain ⟨phase, c⟩ := slot
    revert h
    cases phase <;> cases c <;> decide
  blind _ _ _ := rfl
  reads subject visit state := by
    obtain ⟨phase, node, path, frame, depth⟩ := visit
    cases phase <;> cases node <;> rfl
  idle subject visit state h := by
    obtain ⟨phase, node, path, frame, depth⟩ := visit
    have hfragment : noFragmentCycles.handlers.has ⟨.enter, .fragment⟩ ≠ false := by decide
    cases phase with
    | enter =>
      cases node with
      | fragment f => exact absurd h hfragment
      | _ => rfl
    | leave => rfl
  unfailing subject visit state := by
    obtain ⟨phase, node, path, frame, depth⟩ := visit
    cases phase <;> cases node <;> rfl

/-- At a definition the rule goes on as an execution of the search does, if the names of all
definitions in front of it were searched. -/
theorem react_fragment (s : Schema) (d : Document) {before fs : List Fragment} {f : Fragment}
    (hsplit : d.fragments = before ++ f :: fs) {searched : List String}
    (hbefore : before.map (·.name.text) ⊆ searched) :
    ∃ (inner : List Cycle) (between : List String),
      noFragmentCycles.react (⟨s, d⟩ : Subject) (.bare .enter (.fragment f)) searched =
        .next between (inner.map Cycle.diagnostic) ∧
      (before ++ [f]).map (·.name.text) ⊆ between ∧
      ∀ {cycles : List Cycle} {after : List String}, d.SearchesAll fs between cycles after →
        d.SearchesAll (f :: fs) searched (inner ++ cycles) after := by
  have hreact : noFragmentCycles.react (⟨s, d⟩ : Subject) (.bare .enter (.fragment f)) searched =
      .next (searchCycles d (d.fragments.length + 1) f [] [] ⟨searched, []⟩).searched
        (searchCycles d (d.fragments.length + 1) f [] [] ⟨searched, []⟩).found := rfl
  have hnames : (before ++ [f]).map (·.name.text) = before.map (·.name.text) ++ [f.name.text] := by
    simp
  rw [hreact, hnames]
  by_cases hnew : f.name.text ∈ searched
  · rw [searchCycles_of_mem d hnew]
    refine ⟨[], searched, rfl, List.append_subset.2 ⟨hbefore, ?_⟩, .passes hnew⟩
    exact List.cons_subset.2 ⟨hnew, List.nil_subset _⟩
  · have hfirst := fragment?_of_new hsplit fun hmem => hnew (hbefore hmem)
    obtain ⟨hops, hhops⟩ := exists_hops hfirst
    have hmarks : Marks [] (([] : List Hop).map Hop.source) := marks_nil
    have hfuel := Nat.le_succ_of_le (d.unmet_le searched)
    obtain ⟨inner, between, hinner, hrun⟩ := bounded d _ hfirst hnew hhops hmarks hfuel []
    obtain ⟨hname, hsearched⟩ := List.cons_subset.1 hinner.subset
    rw [List.map_nil] at hrun
    rw [hrun]
    refine ⟨inner, between, rfl, List.append_subset.2 ⟨List.Subset.trans hbefore hsearched, ?_⟩,
      .enters hnew hfirst hhops hinner⟩
    exact List.cons_subset.2 ⟨hname, List.nil_subset _⟩

theorem reported_noFragmentCycles (s : Schema) (d : Document) {xs : List Definition} (size : Nat)
    {before : List Fragment} (hsplit : d.fragments = before ++ Document.fragments ⟨xs, size⟩)
    {searched : List String} (hbefore : before.map (·.name.text) ⊆ searched) :
    ∃ cycles after, d.SearchesAll (Document.fragments ⟨xs, size⟩) searched cycles after ∧
      noFragmentCycles.reported ⟨s, d⟩ (xs.flatMap Definition.outline) searched =
        cycles.map Cycle.diagnostic := by
  have h := outlining_noFragmentCycles
  induction xs generalizing before searched with
  | nil => exact ⟨[], searched, .done searched, rfl⟩
  | cons x xs ih =>
    cases x with
    | operation o =>
      obtain ⟨cycles, after, hsearches, hreported⟩ := ih hsplit hbefore
      have henter : noFragmentCycles.react (⟨s, d⟩ : Subject) (.bare .enter (.operation o)) searched =
          .next searched [] := rfl
      have hcons := h.reported_cons_of_enter ⟨s, d⟩ (.operation o) xs henter rfl
      exact ⟨cycles, after, hsearches, hcons.trans hreported⟩
    | fragment f =>
      obtain ⟨inner, between, henter, hpassed, hsearchesAll⟩ := react_fragment s d hsplit hbefore
      have hlater : d.fragments = (before ++ [f]) ++ Document.fragments ⟨xs, size⟩ := by
        rw [List.append_assoc]
        exact hsplit
      obtain ⟨cycles, after, hsearches, hreported⟩ := ih hlater hpassed
      refine ⟨inner ++ cycles, after, hsearchesAll hsearches, ?_⟩
      rw [h.reported_cons_of_enter ⟨s, d⟩ (.fragment f) xs henter rfl, hreported, List.map_append]

/-- The search from all fragments of a document comes to an end. What is reported are cycles, each
by the spreads that lead around it; no two are closed by the same spread; and nothing is reported
if and only if no fragment leads back to itself. -/
theorem fragmentCycles_exact (settings : Settings) (s : Schema) (d : Document) :
    ∃ (E : List Diagnostic) (cycles : List Cycle) (searched : List String),
      (Run.ofDocument (settings.upTo none) ⟨s, d⟩ [noFragmentCycles]).result = .ok E ∧
      d.SearchesAll d.fragments [] cycles searched ∧
      E.map Diagnostic.withoutPath = cycles.map Cycle.diagnostic ∧
      (E = [] ↔ d.Acyclic) ∧
      (∀ c ∈ cycles, d.IsCycle c) ∧
      (cycles.map fun c => c.hops.getLast?).Nodup := by
  have h := outlining_noFragmentCycles
  obtain ⟨E, hresult, hreports⟩ := h.result_outline continues_noFragmentCycles settings ⟨s, d⟩
  have hnames : ([] : List Fragment).map (·.name.text) ⊆ [] := List.nil_subset []
  have hsplit : d.fragments = [] ++ Document.fragments ⟨d.definitions, d.size⟩ := rfl
  obtain ⟨cycles, searched, hsearches, hreported⟩ :=
    reported_noFragmentCycles s d d.size hsplit hnames
  have hdocument : noFragmentCycles.reported ⟨s, d⟩ d.outline noFragmentCycles.start =
      cycles.map Cycle.diagnostic := by
    refine (h.reported_document ⟨s, d⟩ d _).trans ?_
    exact (List.append_nil _).trans hreported
  have hpaths : E.map Diagnostic.withoutPath = cycles.map Cycle.diagnostic := by
    rw [hreports, hdocument, List.map_map]
    rfl
  refine ⟨E, cycles, searched, hresult, hsearches, hpaths, ?_, hsearches.sound,
    hsearches.nodup_closing⟩
  rw [← hsearches.found_eq_nil_iff, ← List.map_eq_nil_iff, hpaths, List.map_eq_nil_iff]

end Rules
end GraphQLCheck
