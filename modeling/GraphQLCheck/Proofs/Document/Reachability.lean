import GraphQLCheck.Proofs.Document.FragmentGraph

/-!
Searching for the fragments that an operation references. `Collects` is an execution of the search
with nothing to bound it; the bound that the search is given is never met (`collects_reachWithin`),
as every selection set that has to wait is that of a fragment met for the first time. What is
collected is reached (`Collects.sound`), and what is reached is collected, since the names seen in
the end are closed under the edges of the graph (`Collects.closed`).
-/
namespace GraphQLCheck
namespace Document

variable {d : Document}

def targets (ss : List FragmentSpread) : List String := ss.map (·.name.text)

section
variable (d)

theorem unseen_cons_of_mem {seen : List String} {s : FragmentSpread} (h : s.name.text ∈ seen)
    (rest : List FragmentSpread) : d.unseen seen (s :: rest) = d.unseen seen rest := by
  simp [unseen, h]

theorem unseen_cons_of_not_mem {seen : List String} {s : FragmentSpread}
    (h : s.name.text ∉ seen) (rest : List FragmentSpread) :
    d.unseen seen (s :: rest) =
      ((d.fragment? s.name.text).toList ++ (d.unseen (s.name.text :: seen) rest).1,
        (d.unseen (s.name.text :: seen) rest).2) := by
  rw [unseen]
  simp only [List.contains_eq_mem, h, decide_false, Bool.false_eq_true, if_false]
  cases d.fragment? s.name.text <;> rfl

theorem mem_unseen_snd (seen : List String) (ss : List FragmentSpread) (b : String) :
    b ∈ (d.unseen seen ss).2 ↔ b ∈ seen ∨ b ∈ targets ss := by
  induction ss generalizing seen with
  | nil => simp [unseen, targets]
  | cons s ss ih =>
    by_cases h : s.name.text ∈ seen
    · rw [unseen_cons_of_mem d h, ih]
      simp only [targets, List.map_cons, List.mem_cons]
      grind
    · rw [unseen_cons_of_not_mem d h]
      simp only [ih, targets, List.map_cons, List.mem_cons]
      grind

theorem mem_unseen_fst (seen : List String) (ss : List FragmentSpread) (f : Fragment) :
    f ∈ (d.unseen seen ss).1 ↔
      d.fragment? f.name.text = some f ∧ f.name.text ∈ targets ss ∧ f.name.text ∉ seen := by
  induction ss generalizing seen with
  | nil => simp [unseen, targets]
  | cons s ss ih =>
    by_cases h : s.name.text ∈ seen
    · rw [unseen_cons_of_mem d h, ih]
      simp only [targets, List.map_cons, List.mem_cons]
      grind
    · have hfirst : f ∈ (d.fragment? s.name.text).toList ↔
          d.fragment? f.name.text = some f ∧ f.name.text = s.name.text := by
        rw [Option.mem_toList]
        constructor
        · intro hf
          have hname := (fragment?_eq_some hf).2
          exact ⟨hname ▸ hf, hname⟩
        · rintro ⟨hf, hname⟩
          exact hname ▸ hf
      rw [unseen_cons_of_not_mem d h]
      simp only [List.mem_append, hfirst, ih, targets, List.map_cons, List.mem_cons]
      grind

theorem nodup_unseen (seen : List String) (ss : List FragmentSpread) :
    ((d.unseen seen ss).1.map (·.name.text)).Nodup := by
  induction ss generalizing seen with
  | nil => simp [unseen]
  | cons s ss ih =>
    by_cases h : s.name.text ∈ seen
    · rw [unseen_cons_of_mem d h]
      exact ih seen
    · rw [unseen_cons_of_not_mem d h]
      have hrest := ih (s.name.text :: seen)
      cases hf : d.fragment? s.name.text with
      | none => exact hrest
      | some f =>
        have hname := (fragment?_eq_some hf).2
        refine List.nodup_cons.2 ⟨fun hmem => ?_, hrest⟩
        obtain ⟨g, hg, hgf⟩ := List.mem_map.1 hmem
        have hnew := ((mem_unseen_fst d _ _ g).1 hg).2.2
        simp [hgf, hname] at hnew

theorem unmet_unseen (seen : List String) (ss : List FragmentSpread) :
    d.unmet (d.unseen seen ss).2 + (d.unseen seen ss).1.length ≤ d.unmet seen := by
  induction ss generalizing seen with
  | nil => simp [unseen]
  | cons s ss ih =>
    by_cases h : s.name.text ∈ seen
    · rw [unseen_cons_of_mem d h]
      exact ih seen
    · have hrest := ih (s.name.text :: seen)
      rw [unseen_cons_of_not_mem d h]
      cases hf : d.fragment? s.name.text with
      | none =>
        have hmono := unmet_mono (d := d) (List.subset_cons_self s.name.text seen)
        simp only [Option.toList_none, List.nil_append]
        omega
      | some f =>
        have hone := unmet_cons hf h
        simp only [Option.toList_some, List.singleton_append, List.length_cons]
        omega

/-- An execution of the search for fragments: from the names seen and the selection sets that
wait, it ends and has found these fragments. -/
inductive Collects : List String → List (List Selection) → List Fragment → Prop
  | done (seen : List String) : Collects seen [] []
  | next {seen : List String} {set : List Selection} {waiting : List (List Selection)}
    {more : List Fragment} :
    Collects (d.unseen seen (Selection.spreads set)).2
      ((d.unseen seen (Selection.spreads set)).1.reverse.map (·.selections) ++ waiting) more →
    Collects seen (set :: waiting) ((d.unseen seen (Selection.spreads set)).1 ++ more)

end

theorem collects_reachWithin {n : Nat} {seen : List String} {waiting : List (List Selection)}
    (h : waiting.length + d.unmet seen ≤ n) :
    d.Collects seen waiting (d.reachWithin n seen waiting) := by
  induction n generalizing seen waiting with
  | zero =>
    have hnil : waiting = [] := List.length_eq_zero_iff.1 (by omega)
    subst hnil
    exact .done seen
  | succ n ih =>
    cases waiting with
    | nil => exact .done seen
    | cons set waiting =>
      have hunmet := unmet_unseen d seen (Selection.spreads set)
      rw [reachWithin]
      refine .next (ih ?_)
      simp only [List.length_append, List.length_map, List.length_reverse, List.length_cons] at h ⊢
      omega

theorem collects_referencedFragments (d : Document) (o : Operation) :
    d.Collects [] [o.selections] (d.referencedFragments o) := by
  refine collects_reachWithin ?_
  have hle := d.unmet_le []
  simp only [List.length_singleton]
  omega

namespace Collects

variable {seen : List String} {waiting : List (List Selection)} {fs : List Fragment}

theorem new (h : d.Collects seen waiting fs) {f : Fragment} (hf : f ∈ fs) :
    d.fragment? f.name.text = some f ∧ f.name.text ∉ seen := by
  induction h with
  | done => simp at hf
  | @next seen set waiting more _ ih =>
    rcases List.mem_append.1 hf with hf | hf
    · have hfound := (mem_unseen_fst d _ _ f).1 hf
      exact ⟨hfound.1, hfound.2.2⟩
    · have hmore := ih hf
      rw [mem_unseen_snd, not_or] at hmore
      exact ⟨hmore.1, hmore.2.1⟩

theorem nodup (h : d.Collects seen waiting fs) : (fs.map (·.name.text)).Nodup := by
  induction h with
  | done => exact .nil
  | @next seen set waiting more hmore ih =>
    rw [List.map_append, List.nodup_append']
    refine ⟨nodup_unseen d seen _, ih, fun name hfound hlater => ?_⟩
    obtain ⟨f, hf, rfl⟩ := List.mem_map.1 hfound
    obtain ⟨g, hg, hname⟩ := List.mem_map.1 hlater
    have hseen := (hmore.new hg).2
    rw [mem_unseen_snd, not_or, hname] at hseen
    exact hseen.2 ((mem_unseen_fst d _ _ f).1 hf).2.1

theorem sound (h : d.Collects seen waiting fs) {reached : String → Prop}
    (hlinks : ∀ a b, reached a → d.Links a b → reached b)
    (hwaiting : ∀ set ∈ waiting, ∀ b ∈ targets (Selection.spreads set),
      (d.fragment? b).isSome → reached b) :
    ∀ f ∈ fs, reached f.name.text := by
  induction h with
  | done => simp
  | @next seen set waiting more _ ih =>
    have hfound : ∀ f ∈ (d.unseen seen (Selection.spreads set)).1, reached f.name.text := by
      intro f hf
      obtain ⟨hfirst, htarget, -⟩ := (mem_unseen_fst d _ _ f).1 hf
      exact hwaiting set List.mem_cons_self _ htarget (by simp [hfirst])
    intro f hf
    rcases List.mem_append.1 hf with hf | hf
    · exact hfound f hf
    · refine ih (fun other hother b hb hdefined => ?_) f hf
      rcases List.mem_append.1 hother with hother | hother
      · obtain ⟨g, hg, rfl⟩ := List.mem_map.1 hother
        have hg := List.mem_reverse.1 hg
        have hfirst := ((mem_unseen_fst d _ _ g).1 hg).1
        exact hlinks _ b (hfound g hg) ((mem_targets hfirst).2 ⟨hdefined, hb⟩)
      · exact hwaiting other (List.mem_cons_of_mem _ hother) b hb hdefined

theorem closed (h : d.Collects seen waiting fs) {set : List Selection}
    (hset : set ∈ waiting ∨ ∃ f ∈ fs, f.selections = set) {b : String}
    (hb : b ∈ targets (Selection.spreads set)) {g : Fragment} (hg : d.fragment? b = some g) :
    b ∈ seen ∨ g ∈ fs := by
  induction h with
  | done => simp at hset
  | @next seen first waiting more _ ih =>
    obtain ⟨-, rfl⟩ := fragment?_eq_some hg
    have hthen : set ∈ (d.unseen seen (Selection.spreads first)).1.reverse.map (·.selections)
          ++ waiting ∨ (∃ f ∈ more, f.selections = set) →
        g.name.text ∈ seen ∨ g ∈ (d.unseen seen (Selection.spreads first)).1 ++ more := by
      intro hlater
      rcases ih hlater with hseen | hmore
      · rcases (mem_unseen_snd d _ _ _).1 hseen with hseen | htarget
        · exact .inl hseen
        · by_cases hold : g.name.text ∈ seen
          · exact .inl hold
          · exact .inr (List.mem_append_left _ ((mem_unseen_fst d _ _ g).2 ⟨hg, htarget, hold⟩))
      · exact .inr (List.mem_append_right _ hmore)
    rcases hset with hset | ⟨f, hf, rfl⟩
    · rcases List.mem_cons.1 hset with rfl | hset
      · by_cases hold : g.name.text ∈ seen
        · exact .inl hold
        · exact .inr (List.mem_append_left _ ((mem_unseen_fst d _ _ g).2 ⟨hg, hb, hold⟩))
      · exact hthen (.inl (List.mem_append_right _ hset))
    · rcases List.mem_append.1 hf with hf | hf
      · refine hthen (.inl (List.mem_append_left _ ?_))
        exact List.mem_map_of_mem (List.mem_reverse.2 hf)
      · exact hthen (.inr ⟨f, hf, rfl⟩)

end Collects

theorem mem_targets_operation {o : Operation} {b : String} :
    b ∈ targets (Selection.spreads o.selections) ↔
      ∃ p above s, Leads (.operation o) p above (.fragmentSpread s) ∧ s.name.text = b := by
  rw [targets, List.mem_map]
  constructor
  · rintro ⟨s, hs, rfl⟩
    obtain ⟨p, above, hleads⟩ := mem_spreads_operation.1 hs
    exact ⟨p, above, s, hleads, rfl⟩
  · rintro ⟨p, above, s, hleads, rfl⟩
    exact ⟨s, mem_spreads_operation.2 ⟨p, above, hleads⟩, rfl⟩

theorem mem_referencedFragments {o : Operation} {f : Fragment} :
    f ∈ d.referencedFragments o ↔
      d.Reaches o f.name.text ∧ d.fragment? f.name.text = some f := by
  have h := collects_referencedFragments d o
  constructor
  · intro hf
    refine ⟨h.sound (fun _ _ => .link) (fun set hset b hb hdefined => ?_) f hf, (h.new hf).1⟩
    obtain rfl := List.mem_singleton.1 hset
    obtain ⟨p, above, s, hleads, rfl⟩ := mem_targets_operation.1 hb
    exact .spread hleads hdefined
  · rintro ⟨hreaches, hf⟩
    generalize ha : f.name.text = a at hreaches hf
    induction hreaches generalizing f with
    | spread hleads _ =>
      have htarget := mem_targets_operation.2 ⟨_, _, _, hleads, rfl⟩
      exact (h.closed (.inl List.mem_cons_self) htarget hf).resolve_left (by simp)
    | @link a b hreaches hlink ih =>
      obtain ⟨g, hg⟩ := Option.isSome_iff_exists.1 hreaches.isSome
      obtain ⟨-, rfl⟩ := fragment?_eq_some hg
      have hfound := ih rfl hg
      have htarget := ((mem_targets hg).1 hlink).2
      exact (h.closed (.inr ⟨g, hfound, rfl⟩) htarget hf).resolve_left (by simp)

theorem reaches_iff {o : Operation} {name : String} :
    d.Reaches o name ↔ name ∈ (d.referencedFragments o).map (·.name.text) := by
  rw [List.mem_map]
  constructor
  · intro hreaches
    obtain ⟨f, hf⟩ := Option.isSome_iff_exists.1 hreaches.isSome
    obtain ⟨-, rfl⟩ := fragment?_eq_some hf
    exact ⟨f, mem_referencedFragments.2 ⟨hreaches, hf⟩, rfl⟩
  · rintro ⟨f, hf, rfl⟩
    exact (mem_referencedFragments.1 hf).1

instance (o : Operation) (name : String) : Decidable (d.Reaches o name) :=
  decidable_of_iff _ reaches_iff.symm

end Document
end GraphQLCheck
