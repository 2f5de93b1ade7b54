import GraphQLCheck.Proofs.Document.FragmentGraph

/-!
Cycles of fragments. A walk is a list of hops, each in the fragment that the hop before it names;
a cycle is a walk back to where it began that comes to no fragment twice. Where there is a cycle
the graph is not acyclic, and where no walk goes on for ever it is.
-/
namespace GraphQLCheck

structure Cycle where
  fragment : String
  hops : List Hop

namespace Document

variable (d : Document)

inductive Walk : String → List Hop → String → Prop
  | stay (a : String) : Walk a [] a
  | hop {x : Hop} {xs : List Hop} {b : String} :
    d.HasHop x → Walk x.target xs b → Walk x.source (x :: xs) b

structure IsCycle (c : Cycle) : Prop where
  nonempty : c.hops ≠ []
  walk : d.Walk c.fragment c.hops c.fragment
  distinct : (c.hops.map Hop.source).Nodup

variable {d} {a b : String} {xs ys : List Hop}

theorem HasHop.isSome {x : Hop} (h : d.HasHop x) : (d.fragment? x.source).isSome := by
  obtain ⟨f, above, hf, -⟩ := h
  exact Option.isSome_iff_exists.2 ⟨f, hf⟩

theorem Walk.concat (h : d.Walk a xs b) {x : Hop} (hx : d.HasHop x) (hsource : x.source = b) :
    d.Walk a (xs ++ [x]) x.target := by
  induction h with
  | stay a =>
    subst hsource
    exact .hop hx (.stay _)
  | hop hy _ ih => exact .hop hy (ih hsource)

theorem Walk.drop (h : d.Walk a (xs ++ ys) b) {y : Hop} (hy : ys.head? = some y) :
    d.Walk y.source ys b := by
  induction xs generalizing a with
  | nil =>
    cases h with
    | stay => simp at hy
    | hop hx hwalk =>
      obtain rfl := Option.some.inj hy
      exact .hop hx hwalk
  | cons x xs ih =>
    cases h with
    | hop _ hwalk => exact ih hwalk

theorem Walk.eq_of_nil (h : d.Walk a [] b) : a = b := by
  cases h
  rfl

theorem Walk.isSome (h : d.Walk a xs b) (hxs : xs ≠ []) : (d.fragment? a).isSome := by
  cases h with
  | stay => exact absurd rfl hxs
  | hop hx _ => exact hx.isSome

theorem Walk.transGen (h : d.Walk a xs b) (hxs : xs ≠ []) (hb : (d.fragment? b).isSome) :
    Relation.TransGen d.Links a b := by
  induction h with
  | stay => exact absurd rfl hxs
  | @hop x xs b hx hwalk ih =>
    by_cases hend : xs = []
    · subst hend
      exact .single ⟨hb, x, hx, rfl, hwalk.eq_of_nil⟩
    · exact .head ⟨hwalk.isSome hend, x, hx, rfl, rfl⟩ (ih hend hb)

theorem IsCycle.not_acyclic {c : Cycle} (h : d.IsCycle c) : ¬ d.Acyclic := by
  intro hacyclic
  have hdefined := h.walk.isSome h.nonempty
  exact hacyclic c.fragment (h.walk.transGen h.nonempty hdefined)

/-- From here walks do not go on for ever. -/
def Grounded (a : String) : Prop := Acc (fun b a => d.Links a b) a

theorem Grounded.not_transGen (h : d.Grounded a) : ¬ Relation.TransGen d.Links a a := by
  induction h with
  | intro a _ ih =>
    intro hloop
    obtain ⟨b, hlink, hback⟩ := Relation.TransGen.head'_iff.1 hloop
    exact ih b hlink (Relation.TransGen.tail' hback hlink)

theorem isSome_of_transGen (h : Relation.TransGen d.Links a b) : (d.fragment? b).isSome := by
  cases h with
  | single hlink => exact hlink.1
  | tail _ hlink => exact hlink.1

theorem acyclic_of_grounded (h : ∀ f ∈ d.fragments, d.Grounded f.name.text) : d.Acyclic := by
  intro a hloop
  obtain ⟨f, hf⟩ := Option.isSome_iff_exists.1 (isSome_of_transGen hloop)
  obtain ⟨hmem, rfl⟩ := fragment?_eq_some hf
  exact (h f hmem).not_transGen hloop

end Document
end GraphQLCheck
