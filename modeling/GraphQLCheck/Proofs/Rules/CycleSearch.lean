import GraphQLCheck.Proofs.Document.FragmentCycle
import GraphQLCheck.Validation.Rules.Fragments

/-!
The search for cycles of fragments, in depth. `Searches` is an execution of it with nothing to
bound its depth: hops are followed in their order, and a hop closes a cycle where it names a
fragment on the way, is passed where there is nothing to search, and is entered otherwise. What is
found are cycles (`Searches.sound`), no two of which are closed by the same hop
(`Searches.nodup_closing`), and if nothing is found no walk from a fragment that was searched goes
on for ever (`Searches.grounded`). The bound that the search is given is never met (`bounded`).
-/
namespace GraphQLCheck

def Cycle.diagnostic (c : Cycle) : Diagnostic :=
  .atLocations (.fragmentCycle c.fragment (c.hops.dropLast.map Hop.target))
    (c.hops.map (·.spread.loc))

theorem Cycle.cycleDiagnostic_eq (name : String) (hops : List Hop) :
    Rules.cycleDiagnostic name (hops.map Hop.spread) = diagnostic ⟨name, hops⟩ := by
  rw [Rules.cycleDiagnostic, diagnostic, ← List.map_dropLast, List.map_map, List.map_map]
  rfl

namespace Document

variable (d : Document)

/-- `Searches trail pending searched found after`: the hops `trail` led to a fragment of which the
hops `pending` are still to be followed. -/
inductive Searches :
    List Hop → List Hop → List String → List Cycle → List String → Prop
  | done (trail : List Hop) (searched : List String) : Searches trail [] searched [] searched
  | closes {trail front hops pending : List Hop} {x y : Hop} {searched after : List String}
    {found : List Cycle} :
    trail ++ [x] = front ++ hops → hops.head? = some y → y.source = x.target →
    Searches trail pending searched found after →
    Searches trail (x :: pending) searched (⟨x.target, hops⟩ :: found) after
  | passes {trail pending : List Hop} {x : Hop} {searched after : List String}
    {found : List Cycle} :
    x.target ∉ (trail ++ [x]).map Hop.source →
    ((d.fragment? x.target).isSome → x.target ∈ searched) →
    Searches trail pending searched found after →
    Searches trail (x :: pending) searched found after
  | enters {trail hops pending : List Hop} {x : Hop} {f : Fragment}
    {searched between after : List String} {inner found : List Cycle} :
    x.target ∉ (trail ++ [x]).map Hop.source →
    x.target ∉ searched → d.fragment? x.target = some f → d.HopsOf f hops →
    Searches (trail ++ [x]) hops (x.target :: searched) inner between →
    Searches trail pending between found after →
    Searches trail (x :: pending) searched (inner ++ found) after

/-- The trail is a walk to the fragment `a` that comes to no fragment twice, and the pending hops
stand in `a`. -/
structure OnWay (a : String) (trail pending : List Hop) : Prop where
  walk : ∃ start, d.Walk start trail a
  distinct : (trail.map Hop.source ++ [a]).Nodup
  hops : ∀ x ∈ pending, d.HasHop x ∧ x.source = a

variable {d} {a : String} {trail pending : List Hop} {x : Hop}

section
variable {f : Fragment} {hops : List Hop}

theorem HopsOf.hasHop (h : d.HopsOf f hops) : ∀ y ∈ hops, d.HasHop y :=
  fun y hy => ((h.mem_iff y).1 hy).1

theorem HopsOf.source_eq (h : d.HopsOf f hops) (hf : d.fragment? a = some f) :
    ∀ y ∈ hops, y.source = a := by
  obtain ⟨-, rfl⟩ := fragment?_eq_some hf
  exact fun y hy => ((h.mem_iff y).1 hy).2

end

namespace OnWay

theorem rest (h : d.OnWay a trail (x :: pending)) : d.OnWay a trail pending :=
  ⟨h.walk, h.distinct, fun y hy => h.hops y (List.mem_cons_of_mem _ hy)⟩

theorem sources (h : d.OnWay a trail (x :: pending)) :
    (trail ++ [x]).map Hop.source = trail.map Hop.source ++ [a] := by
  simp [(h.hops x List.mem_cons_self).2]

theorem walk_concat (h : d.OnWay a trail (x :: pending)) :
    ∃ start, d.Walk start (trail ++ [x]) x.target := by
  obtain ⟨start, hwalk⟩ := h.walk
  obtain ⟨hx, hsource⟩ := h.hops x List.mem_cons_self
  exact ⟨start, hwalk.concat hx hsource⟩

theorem into (h : d.OnWay a trail (x :: pending))
    (hnew : x.target ∉ (trail ++ [x]).map Hop.source) {f : Fragment} {hops : List Hop}
    (hf : d.fragment? x.target = some f) (hhops : d.HopsOf f hops) :
    d.OnWay x.target (trail ++ [x]) hops where
  walk := h.walk_concat
  distinct := by
    rw [List.nodup_append']
    refine ⟨?_, List.nodup_singleton _, List.disjoint_singleton.2 hnew⟩
    rw [h.sources]
    exact h.distinct
  hops y hy := ⟨hhops.hasHop y hy, hhops.source_eq hf y hy⟩

end OnWay

namespace Searches

variable {searched after : List String} {found : List Cycle}

theorem subset (h : d.Searches trail pending searched found after) : searched ⊆ after := by
  induction h with
  | done => exact List.Subset.refl _
  | closes _ _ _ _ ih => exact ih
  | passes _ _ _ ih => exact ih
  | enters _ _ _ _ _ _ ihinner ih =>
    exact List.Subset.trans (List.cons_subset.1 ihinner).2 ih

theorem sound (h : d.Searches trail pending searched found after) (hway : d.OnWay a trail pending) :
    ∀ c ∈ found, d.IsCycle c := by
  induction h generalizing a with
  | done => simp
  | @closes trail front hops pending x y searched after found hsplit hfirst hclosed _ ih =>
    intro c hc
    rcases List.mem_cons.1 hc with rfl | hc
    · obtain ⟨start, hwalk⟩ := hway.walk_concat
      have hdistinct := hway.distinct
      rw [← hway.sources] at hdistinct
      rw [hsplit] at hwalk hdistinct
      rw [List.map_append] at hdistinct
      refine ⟨?_, hclosed ▸ hwalk.drop hfirst, hdistinct.of_append_right⟩
      rintro rfl
      simp at hfirst
    · exact ih hway.rest c hc
  | passes _ _ _ ih => exact ih hway.rest
  | enters hnew _ hf hhops _ _ ihinner ih =>
    intro c hc
    rcases List.mem_append.1 hc with hc | hc
    · exact ihinner (hway.into hnew hf hhops) c hc
    · exact ih hway.rest c hc

theorem last_of_split {trail front hops : List Hop} {x y : Hop}
    (hsplit : trail ++ [x] = front ++ hops) (hfirst : hops.head? = some y) :
    hops.getLast? = some x := by
  have hends := congrArg List.getLast? hsplit
  rw [List.getLast?_concat, List.getLast?_append_of_ne_nil] at hends
  · exact hends.symm
  · rintro rfl
    simp at hfirst

/-- The hop that closes a cycle stands in the fragment at hand, or in one that was not searched
before. -/
def ClosedBy (pending : List Hop) (searched after : List String) (c : Cycle) : Prop :=
  ∃ x, c.hops.getLast? = some x ∧ (x ∈ pending ∨ x.source ∈ after ∧ x.source ∉ searched)

theorem ClosedBy.mono {c : Cycle} {between : List String} (h : ClosedBy pending between after c)
    (hsearched : searched ⊆ between) : ClosedBy (x :: pending) searched after c := by
  obtain ⟨y, hy, hwhere⟩ := h
  refine ⟨y, hy, hwhere.imp (List.mem_cons_of_mem _) fun hwhere => ⟨hwhere.1, fun hmem => ?_⟩⟩
  exact hwhere.2 (hsearched hmem)

theorem ClosedBy.inside {hops : List Hop} {c : Cycle} {between : List String}
    (h : ClosedBy hops (a :: searched) between c) (hhops : ∀ y ∈ hops, y.source = a)
    (hsubset : a :: searched ⊆ between) (hunsearched : a ∉ searched) :
    ∃ y, c.hops.getLast? = some y ∧ y.source ∈ between ∧ y.source ∉ searched := by
  obtain ⟨y, hy, hwhere⟩ := h
  refine ⟨y, hy, ?_⟩
  rcases hwhere with hwhere | ⟨hwhere, hnot⟩
  · rw [hhops y hwhere]
    exact ⟨hsubset List.mem_cons_self, hunsearched⟩
  · exact ⟨hwhere, fun hmem => hnot (List.mem_cons_of_mem _ hmem)⟩

theorem closedBy (h : d.Searches trail pending searched found after) :
    ∀ c ∈ found, ClosedBy pending searched after c := by
  induction h with
  | done => simp
  | closes hsplit hfirst _ _ ih =>
    intro c hc
    rcases List.mem_cons.1 hc with rfl | hc
    · exact ⟨_, last_of_split hsplit hfirst, .inl List.mem_cons_self⟩
    · exact (ih c hc).mono (List.Subset.refl _)
  | passes _ _ _ ih => exact fun c hc => (ih c hc).mono (List.Subset.refl _)
  | enters _ hunsearched hf hhops hinner hrest ihinner ih =>
    intro c hc
    rcases List.mem_append.1 hc with hc | hc
    · obtain ⟨y, hy, hwhere, hnot⟩ :=
        (ihinner c hc).inside (hhops.source_eq hf) hinner.subset hunsearched
      exact ⟨y, hy, .inr ⟨hrest.subset hwhere, hnot⟩⟩
    · exact (ih c hc).mono (List.cons_subset.1 hinner.subset).2

theorem nodup_closing (h : d.Searches trail pending searched found after)
    (hpending : ∀ x ∈ pending, x.source = a) (ha : a ∈ searched) (hnodup : pending.Nodup) :
    (found.map fun c => c.hops.getLast?).Nodup := by
  induction h generalizing a with
  | done => exact .nil
  | @closes trail front hops pending x y searched after found hsplit hfirst _ hrest ih =>
    obtain ⟨hx, hpending⟩ := List.forall_mem_cons.1 hpending
    obtain ⟨hxnew, hnodup⟩ := List.nodup_cons.1 hnodup
    refine List.nodup_cons.2 ⟨fun hmem => ?_, ih hpending ha hnodup⟩
    obtain ⟨c, hc, hsame⟩ := List.mem_map.1 hmem
    obtain ⟨z, hz, hwhere⟩ := hrest.closedBy c hc
    have hlast := last_of_split hsplit hfirst
    obtain rfl : z = x := Option.some.inj (hz.symm.trans (hsame.trans hlast))
    rcases hwhere with hwhere | ⟨-, hwhere⟩
    · exact hxnew hwhere
    · exact hwhere (hx ▸ ha)
  | passes _ _ _ ih =>
    exact ih (List.forall_mem_cons.1 hpending).2 ha (List.nodup_cons.1 hnodup).2
  | enters _ hunsearched hf hhops hinner hrest ihinner ih =>
    obtain ⟨hx, hpending⟩ := List.forall_mem_cons.1 hpending
    have hbetween := (List.cons_subset.1 hinner.subset).2
    rw [List.map_append, List.nodup_append']
    refine ⟨ihinner (hhops.source_eq hf) List.mem_cons_self hhops.nodup,
      ih hpending (hbetween ha) (List.nodup_cons.1 hnodup).2, fun last hleft hright => ?_⟩
    obtain ⟨c, hc, rfl⟩ := List.mem_map.1 hleft
    obtain ⟨e, he, hsame⟩ := List.mem_map.1 hright
    obtain ⟨y, hy, hwhere, hnot⟩ :=
      (hinner.closedBy c hc).inside (hhops.source_eq hf) hinner.subset hunsearched
    obtain ⟨z, hz, hother⟩ := hrest.closedBy e he
    obtain rfl : z = y := Option.some.inj (hz.symm.trans (hsame.trans hy))
    rcases hother with hother | ⟨-, hother⟩
    · exact hnot (hpending z hother ▸ ha)
    · exact hother hwhere

theorem grounded_of_hops (names : List String) {f : Fragment} {hops : List Hop}
    {between : List String} (hf : d.fragment? a = some f) (hhops : d.HopsOf f hops)
    (hbelow : ∀ y ∈ hops, (d.fragment? y.target).isSome → d.Grounded y.target)
    (hbetween : ∀ b ∈ between, b ∈ names ++ [a] ∨ d.Grounded b) :
    d.Grounded a ∧ ∀ b ∈ between, b ∈ names ∨ d.Grounded b := by
  have hground : d.Grounded a := by
    obtain ⟨-, rfl⟩ := fragment?_eq_some hf
    refine .intro _ fun b hlink => ?_
    obtain ⟨hdefined, y, hy, rfl⟩ := hhops.links_iff.1 hlink
    exact hbelow y hy hdefined
  refine ⟨hground, fun b hb => ?_⟩
  rcases hbetween b hb with hb | hb
  · rcases List.mem_append.1 hb with hb | hb
    · exact .inl hb
    · exact .inr (List.mem_singleton.1 hb ▸ hground)
  · exact .inr hb

theorem grounded (h : d.Searches trail pending searched found after) (hfound : found = [])
    (hpending : ∀ x ∈ pending, x.source = a)
    (hsearched : ∀ b ∈ searched, b ∈ trail.map Hop.source ++ [a] ∨ d.Grounded b) :
    (∀ x ∈ pending, (d.fragment? x.target).isSome → d.Grounded x.target) ∧
      ∀ b ∈ after, b ∈ trail.map Hop.source ++ [a] ∨ d.Grounded b := by
  induction h generalizing a with
  | done => exact ⟨by simp, hsearched⟩
  | closes => simp at hfound
  | @passes trail pending x searched after found hnew hdone _ ih =>
    obtain ⟨hx, hpending⟩ := List.forall_mem_cons.1 hpending
    obtain ⟨htargets, hafter⟩ := ih hfound hpending hsearched
    rw [List.map_append, List.map_singleton, hx] at hnew
    refine ⟨List.forall_mem_cons.2 ⟨fun hdefined => ?_, htargets⟩, hafter⟩
    exact (hsearched _ (hdone hdefined)).resolve_left hnew
  | @enters trail hops pending x f searched between after inner found _ _ hf hhops _ _ ihinner ih =>
    obtain ⟨hx, hpending⟩ := List.forall_mem_cons.1 hpending
    obtain ⟨rfl, rfl⟩ := List.append_eq_nil_iff.1 hfound
    have hnames : (trail ++ [x]).map Hop.source = trail.map Hop.source ++ [a] := by simp [hx]
    have hway : ∀ b ∈ x.target :: searched,
        b ∈ (trail ++ [x]).map Hop.source ++ [x.target] ∨ d.Grounded b := by
      intro b hb
      rcases List.mem_cons.1 hb with rfl | hb
      · exact .inl (List.mem_append_right _ (List.mem_singleton.2 rfl))
      · rw [hnames]
        exact (hsearched b hb).imp_left (List.mem_append_left _)
    obtain ⟨hbelow, hbetween⟩ := ihinner rfl (hhops.source_eq hf) hway
    rw [hnames] at hbetween
    obtain ⟨hground, hleft⟩ := grounded_of_hops _ hf hhops hbelow hbetween
    obtain ⟨hothers, hafter⟩ := ih rfl hpending hleft
    exact ⟨List.forall_mem_cons.2 ⟨fun _ => hground, hothers⟩, hafter⟩

end Searches

end Document

namespace Rules
open Document

def Marks (starts : List (String × Nat)) (names : List String) : Prop :=
  ∀ name k, (name, k) ∈ starts ↔ names[k]? = some name

section
variable {starts : List (String × Nat)} {names : List String} {name : String}

theorem marks_nil : Marks [] [] := by
  intro name k
  simp

theorem Marks.push (h : Marks starts names) (name : String) :
    Marks ((name, names.length) :: starts) (names ++ [name]) := by
  intro other k
  rw [List.mem_cons, h other k, List.getElem?_append]
  by_cases hk : k < names.length
  · rw [if_pos hk]
    exact or_iff_right fun heq => absurd (Prod.mk.inj heq).2 (Nat.ne_of_lt hk)
  · rw [if_neg hk, List.getElem?_eq_none (Nat.le_of_not_lt hk)]
    by_cases hlast : k = names.length
    · subst hlast
      simp [eq_comm]
    · have hout : [name][k - names.length]? = none := List.getElem?_eq_none (by simp; omega)
      simp [hout, hlast]

theorem Marks.find?_eq_none (h : Marks starts names) :
    starts.find? (·.1 == name) = none ↔ name ∉ names := by
  rw [List.find?_eq_none, List.mem_iff_getElem?]
  constructor
  · rintro hnone ⟨k, hk⟩
    exact hnone _ ((h name k).2 hk) (by simp)
  · rintro hnone ⟨other, k⟩ hmem heq
    obtain rfl : other = name := by simpa using heq
    exact hnone ⟨k, (h other k).1 hmem⟩

theorem Marks.find?_eq_some (h : Marks starts names) {other : String} {k : Nat}
    (hfind : starts.find? (·.1 == name) = some (other, k)) : names[k]? = some name := by
  obtain rfl : other = name := by simpa using List.find?_some hfind
  exact (h other k).1 (List.mem_of_find?_eq_some hfind)

end

variable (d : Document)

def searchSpread (n : Nat) (trail : List FragmentSpread) (starts : List (String × Nat))
    (c : CycleSearch) (s : FragmentSpread) : CycleSearch :=
  match starts.find? (·.1 == s.name.text) with
  | some (_, start) =>
    { c with found := c.found ++ [cycleDiagnostic s.name.text ((trail ++ [s]).drop start)] }
  | none =>
    match d.fragment? s.name.text with
    | some g => searchCycles d n g (trail ++ [s]) starts c
    | none => c

theorem searchCycles_of_mem {n : Nat} {f : Fragment} {trail : List FragmentSpread}
    {starts : List (String × Nat)} {c : CycleSearch} (h : f.name.text ∈ c.searched) :
    searchCycles d n f trail starts c = c := by
  cases n with
  | zero => rfl
  | succ n => simp [searchCycles, h]

theorem searchCycles_of_not_mem {n : Nat} {f : Fragment} {trail : List FragmentSpread}
    {starts : List (String × Nat)} {c : CycleSearch} (h : f.name.text ∉ c.searched) :
    searchCycles d (n + 1) f trail starts c =
      (Selection.spreads f.selections).foldl
        (searchSpread d n trail ((f.name.text, trail.length) :: starts))
        { c with searched := f.name.text :: c.searched } := by
  rw [searchCycles]
  simp only [List.contains_eq_mem, h, decide_false, Bool.false_eq_true, if_false]
  rfl

/-- A search from a fragment that was not searched before is an execution, if its bound leaves room
for all fragments that are still to be searched. -/
def Bounded (n : Nat) : Prop :=
  ∀ {f : Fragment} {trail hops : List Hop} {starts : List (String × Nat)} {searched : List String},
    d.fragment? f.name.text = some f → f.name.text ∉ searched → d.HopsOf f hops →
    Marks starts (trail.map Hop.source) → d.unmet searched ≤ n → ∀ found : List Diagnostic,
    ∃ cycles after, d.Searches trail hops (f.name.text :: searched) cycles after ∧
      searchCycles d n f (trail.map Hop.spread) starts ⟨searched, found⟩ =
        ⟨after, found ++ cycles.map Cycle.diagnostic⟩

/-- At one spread the search goes on as an execution does. -/
theorem searchSpread_step {n : Nat} (hbounded : Bounded d n) {trail : List Hop} {x : Hop}
    {starts : List (String × Nat)} (hmarks : Marks starts ((trail ++ [x]).map Hop.source))
    {searched : List String} (hfuel : d.unmet searched ≤ n) (found : List Diagnostic) :
    ∃ inner between,
      searchSpread d n (trail.map Hop.spread) starts ⟨searched, found⟩ x.spread =
        ⟨between, found ++ inner.map Cycle.diagnostic⟩ ∧
      searched ⊆ between ∧
      ∀ {pending : List Hop} {cycles : List Cycle} {after : List String},
        d.Searches trail pending between cycles after →
        d.Searches trail (x :: pending) searched (inner ++ cycles) after := by
  have hspreads : trail.map Hop.spread ++ [x.spread] = (trail ++ [x]).map Hop.spread := by simp
  have hname : x.spread.name.text = x.target := rfl
  rw [searchSpread, hspreads, hname]
  cases hfind : starts.find? (·.1 == x.target) with
  | some start =>
    obtain ⟨other, k⟩ := start
    have hk := hmarks.find?_eq_some hfind
    rw [List.getElem?_map] at hk
    obtain ⟨y, hy, hsource⟩ := Option.map_eq_some_iff.1 hk
    have hfirst : ((trail ++ [x]).drop k).head? = some y := by rw [List.head?_drop, hy]
    have hsplit := (List.take_append_drop k (trail ++ [x])).symm
    refine ⟨[⟨x.target, (trail ++ [x]).drop k⟩], searched, ?_, List.Subset.refl _,
      .closes hsplit hfirst hsource⟩
    simp only [← List.map_drop, Cycle.cycleDiagnostic_eq]
    rfl
  | none =>
    have hnew := hmarks.find?_eq_none.1 hfind
    have hpassed : found ++ ([] : List Cycle).map Cycle.diagnostic = found := List.append_nil _
    cases hf : d.fragment? x.target with
    | none =>
      refine ⟨[], searched, ?_, List.Subset.refl _, .passes hnew (by simp [hf])⟩
      rw [hpassed]
    | some f =>
      obtain ⟨-, hfname⟩ := fragment?_eq_some hf
      by_cases hsearched : x.target ∈ searched
      · refine ⟨[], searched, ?_, List.Subset.refl _, .passes hnew fun _ => hsearched⟩
        rw [hpassed]
        exact searchCycles_of_mem d (hfname ▸ hsearched)
      · have hfirst : d.fragment? f.name.text = some f := by rw [hfname, hf]
        obtain ⟨hops, hhops⟩ := exists_hops hfirst
        obtain ⟨inner, between, hinner, hrun⟩ :=
          hbounded hfirst (hfname ▸ hsearched) hhops hmarks hfuel found
        rw [hfname] at hinner
        exact ⟨inner, between, hrun, (List.cons_subset.1 hinner.subset).2,
          .enters hnew hsearched hf hhops hinner⟩

theorem searchSpread_run {n : Nat} (hbounded : Bounded d n) {a : String} {trail pending : List Hop}
    {starts : List (String × Nat)} (hpending : ∀ x ∈ pending, x.source = a)
    (hmarks : Marks starts (trail.map Hop.source ++ [a])) {searched : List String}
    (hfuel : d.unmet searched ≤ n) (found : List Diagnostic) :
    ∃ cycles after, d.Searches trail pending searched cycles after ∧
      (pending.map Hop.spread).foldl (searchSpread d n (trail.map Hop.spread) starts)
        ⟨searched, found⟩ = ⟨after, found ++ cycles.map Cycle.diagnostic⟩ := by
  induction pending generalizing searched found with
  | nil => exact ⟨[], searched, .done trail searched, by simp⟩
  | cons x pending ih =>
    obtain ⟨hx, hpending⟩ := List.forall_mem_cons.1 hpending
    have hnames : (trail ++ [x]).map Hop.source = trail.map Hop.source ++ [a] := by simp [hx]
    obtain ⟨inner, between, hstep, hbetween, hsearchesAfter⟩ :=
      searchSpread_step d hbounded (hnames ▸ hmarks) hfuel found
    obtain ⟨cycles, after, hsearches, hrun⟩ := ih hpending
      (Nat.le_trans (unmet_mono hbetween) hfuel) (found ++ inner.map Cycle.diagnostic)
    refine ⟨inner ++ cycles, after, hsearchesAfter hsearches, ?_⟩
    rw [List.map_cons, List.foldl_cons, hstep, hrun, List.map_append, List.append_assoc]

theorem bounded (n : Nat) : Bounded d n := by
  induction n with
  | zero =>
    intro f trail hops starts searched hf hnew _ _ hfuel found
    have hless := unmet_cons hf hnew
    omega
  | succ n ih =>
    intro f trail hops starts searched hf hnew hhops hmarks hfuel found
    have hless := unmet_cons hf hnew
    have hpush := hmarks.push f.name.text
    rw [List.length_map] at hpush
    obtain ⟨cycles, after, hsearches, hrun⟩ := searchSpread_run d ih (hhops.source_eq hf) hpush
      (Nat.le_of_succ_le_succ (Nat.le_trans hless hfuel)) found
    refine ⟨cycles, after, hsearches, ?_⟩
    rw [searchCycles_of_not_mem d hnew, ← hhops.spreads, List.length_map]
    exact hrun

end Rules
end GraphQLCheck
