import GraphQLCheck.Proofs.Document.Occurrences
import Mathlib.Data.List.Perm.Basic
import Mathlib.Logic.Relation

/-!
Fragments as a graph. The nodes are names, each with its first definition, and an edge is a place
in a fragment where another fragment is spread. What an operation reaches is the least set of
names that has the fragments it spreads and that is closed under the edges.
-/
namespace GraphQLCheck

structure Hop where
  source : String
  path : List Segment
  spread : FragmentSpread

def Hop.target (x : Hop) : String := x.spread.name.text

namespace Document

variable (d : Document)

def HasHop (x : Hop) : Prop :=
  ∃ f above, d.fragment? x.source = some f ∧
    Leads (.fragment f) x.path above (.fragmentSpread x.spread)

def Links (a b : String) : Prop :=
  (d.fragment? b).isSome ∧ ∃ x, d.HasHop x ∧ x.source = a ∧ x.target = b

def Acyclic : Prop := ∀ a, ¬ Relation.TransGen d.Links a a

inductive Reaches (o : Operation) : String → Prop
  | spread {p : List Segment} {above : List Node} {s : FragmentSpread} :
    Leads (.operation o) p above (.fragmentSpread s) → (d.fragment? s.name.text).isSome →
    Reaches o s.name.text
  | link {a b : String} : Reaches o a → d.Links a b → Reaches o b

variable {d}

theorem fragment?_eq_some {name : String} {f : Fragment} (h : d.fragment? name = some f) :
    f ∈ d.fragments ∧ f.name.text = name :=
  ⟨List.mem_of_find?_eq_some h, by simpa using List.find?_some h⟩

theorem Reaches.isSome {o : Operation} {a : String} (h : d.Reaches o a) :
    (d.fragment? a).isSome := by
  cases h with
  | spread _ h => exact h
  | link _ h => exact h.1

variable (d) in
structure HopsOf (f : Fragment) (hops : List Hop) : Prop where
  spreads : hops.map Hop.spread = Selection.spreads f.selections
  nodup : hops.Nodup
  mem_iff : ∀ x, x ∈ hops ↔ d.HasHop x ∧ x.source = f.name.text

theorem exists_hops {f : Fragment} (h : d.fragment? f.name.text = some f) :
    ∃ hops, d.HopsOf f hops := by
  -- The hops from the top down, and then in the order of the spreads that are collected.
  let hops : List Hop := ((Node.fragment f).finds Node.spread?).map fun x => ⟨f.name.text, x.1, x.2⟩
  have hspreads : hops.map Hop.spread = (Node.fragment f).picks Node.spread? := by
    rw [← Node.map_snd_finds]
    simp [hops]
  have hnodup : hops.Nodup := by
    have hsteps := Node.nodup_steps_finds Node.spread? (.fragment f)
    have hpaths : hops.map Hop.path = ((Node.fragment f).finds Node.spread?).map Prod.fst := by
      simp [hops]
    exact (hpaths ▸ hsteps).of_map
  have hmem : ∀ x, x ∈ hops ↔ d.HasHop x ∧ x.source = f.name.text := by
    intro x
    constructor
    · intro hx
      obtain ⟨⟨p, s⟩, hs, rfl⟩ := List.mem_map.1 hx
      obtain ⟨above, hleads⟩ := Node.mem_finds_spread.1 hs
      exact ⟨⟨f, above, h, hleads⟩, rfl⟩
    · obtain ⟨source, p, s⟩ := x
      rintro ⟨⟨g, above, hg, hleads⟩, rfl⟩
      obtain rfl : f = g := Option.some.inj (h.symm.trans hg)
      exact List.mem_map.2 ⟨(p, s), Node.mem_finds_spread.2 ⟨above, hleads⟩, rfl⟩
  have hperm : (Selection.spreads f.selections).Perm (hops.map Hop.spread) := by
    rw [hspreads]
    exact (Node.perm_spreads_fragment f).symm
  have hordered : Relation.Comp (· = List.map Hop.spread ·) List.Perm
      (Selection.spreads f.selections) hops := by
    rw [List.eq_map_comp_perm]
    exact hperm
  obtain ⟨ordered, heq, hreordered⟩ := hordered
  exact ⟨ordered, heq.symm, hreordered.nodup_iff.2 hnodup,
    fun x => hreordered.mem_iff.trans (hmem x)⟩

theorem mem_spreads_operation {o : Operation} {s : FragmentSpread} :
    s ∈ Selection.spreads o.selections ↔
      ∃ p above, Leads (.operation o) p above (.fragmentSpread s) := by
  rw [← (Node.perm_spreads_operation o).mem_iff, ← Node.map_snd_finds, List.mem_map]
  constructor
  · rintro ⟨⟨p, x⟩, hx, rfl⟩
    obtain ⟨above, hleads⟩ := Node.mem_finds_spread.1 hx
    exact ⟨p, above, hleads⟩
  · rintro ⟨p, above, hleads⟩
    exact ⟨(p, s), Node.mem_finds_spread.2 ⟨above, hleads⟩, rfl⟩

theorem HopsOf.links_iff {f : Fragment} {hops : List Hop} (h : d.HopsOf f hops) {b : String} :
    d.Links f.name.text b ↔ (d.fragment? b).isSome ∧ ∃ x ∈ hops, x.target = b := by
  refine and_congr_right fun _ => exists_congr fun x => ?_
  rw [h.mem_iff x, and_assoc]

theorem mem_targets {f : Fragment} (hf : d.fragment? f.name.text = some f) {b : String} :
    d.Links f.name.text b ↔
      (d.fragment? b).isSome ∧ b ∈ (Selection.spreads f.selections).map (·.name.text) := by
  obtain ⟨hops, hhops⟩ := exists_hops hf
  rw [hhops.links_iff, ← hhops.spreads]
  simp [Hop.target]

variable (d) in
def unmet (names : List String) : Nat := d.fragments.countP fun f => !names.contains f.name.text

theorem unmet_mono {names more : List String} (h : names ⊆ more) :
    d.unmet more ≤ d.unmet names := by
  refine List.countP_mono_left fun f _ hf => ?_
  simp only [Bool.not_eq_true', List.contains_eq_mem, decide_eq_false_iff_not] at hf ⊢
  exact fun hmem => hf (h hmem)

theorem unmet_cons {names : List String} {name : String} {f : Fragment}
    (hf : d.fragment? name = some f) (hname : name ∉ names) :
    d.unmet (name :: names) + 1 ≤ d.unmet names := by
  obtain ⟨hmem, rfl⟩ := fragment?_eq_some hf
  obtain ⟨before, after, hfragments⟩ := List.append_of_mem hmem
  have hmono : ∀ fs : List Fragment,
      (fs.countP fun g => !(f.name.text :: names).contains g.name.text) ≤
        fs.countP fun g => !names.contains g.name.text := by
    intro fs
    refine List.countP_mono_left fun g _ hg => ?_
    simp only [Bool.not_eq_true', List.contains_eq_mem, decide_eq_false_iff_not,
      List.mem_cons, not_or] at hg ⊢
    exact hg.2
  have hbefore := hmono before
  have hafter := hmono after
  rw [unmet, unmet, hfragments, List.countP_append, List.countP_append, List.countP_cons_of_neg,
    List.countP_cons_of_pos]
  · omega
  · simpa using hname
  · simp

theorem unmet_le (names : List String) : d.unmet names ≤ d.fragments.length := List.countP_le_length

end Document
end GraphQLCheck
