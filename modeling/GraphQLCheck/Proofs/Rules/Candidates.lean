import GraphQLCheck.Proofs.Schema.Implementors
import GraphQLCheck.Validation.Rules.Fields
import Mathlib.Data.List.Basic
import Mathlib.Data.List.Induction

/-!
What a fragment could narrow an abstract type to. The candidates are collected object by object,
but in the end they are the objects that have the field, each as often as it is possible, and the
interfaces of theirs that have it too, each once with the number of times that it was met
(`candidates_perm`).
-/
namespace GraphQLCheck.Rules

variable {s : Schema} {parent : TypeDef} {field : String}

def interfaceWith? (s : Schema) (field name : String) : Option InterfaceType :=
  ((s.type? name).bind TypeDef.interface?).filter fun i =>
    ((TypeDef.interface i).field? field).isSome

def objectsWith (s : Schema) (parent : TypeDef) (field : String) : List ObjectType :=
  (s.possibleObjects parent).filter fun o => ((TypeDef.object o).field? field).isSome

def interfacesWith (s : Schema) (field : String) (o : ObjectType) : List InterfaceType :=
  o.interfaces.filterMap (interfaceWith? s field)

def mentions (s : Schema) (parent : TypeDef) (field : String) : List String :=
  (objectsWith s parent field).flatMap fun o => (interfacesWith s field o).map InterfaceType.name

def Candidate.ofObject (o : ObjectType) : Candidate := ⟨.object o, 1⟩

def counted? (s : Schema) (field : String) (count : String → Nat) (name : String) :
    Option Candidate :=
  (interfaceWith? s field name).map fun i => ⟨.interface i, count name⟩

def tally (s : Schema) (field : String) (names : List String) : List Candidate :=
  names.eraseDups.filterMap (counted? s field fun n => names.count n)

theorem interfaceWith?_eq_some {name : String} {i : InterfaceType} :
    interfaceWith? s field name = some i ↔
      s.type? name = some (.interface i) ∧ ((TypeDef.interface i).field? field).isSome = true := by
  rw [interfaceWith?, Option.filter_eq_some_iff, Option.bind_eq_some_iff]
  refine and_congr_left fun _ => ⟨?_, fun h => ⟨_, h, rfl⟩⟩
  rintro ⟨t, ht, hi⟩
  cases t with
  | interface j => rwa [← Option.some.inj hi]
  | _ => exact absurd hi nofun

theorem name_of_interfaceWith? {name : String} {i : InterfaceType}
    (h : interfaceWith? s field name = some i) : i.name = name :=
  (Schema.mem_of_type? (interfaceWith?_eq_some.1 h).1).2

/-! ### Counting -/

theorem name_of_counted? {count : String → Nat} {name : String} {c : Candidate}
    (h : counted? s field count name = some c) : c.type.name = name := by
  obtain ⟨i, hi, rfl⟩ := Option.map_eq_some_iff.1 h
  exact name_of_interfaceWith? hi

theorem countInterface_of_absent {i : InterfaceType} {cs : List Candidate}
    (h : ∀ c ∈ cs, c.type.name ≠ i.name) : countInterface i cs = cs ++ [⟨.interface i, 1⟩] := by
  induction cs with
  | nil => rfl
  | cons c cs ih =>
    obtain ⟨hc, hcs⟩ := List.forall_mem_cons.1 h
    rw [countInterface, if_neg hc, ih hcs, List.cons_append]

theorem countInterface_of_mem {i : InterfaceType} (hi : interfaceWith? s field i.name = some i)
    {count count' : String → Nat} (hself : count' i.name = count i.name + 1)
    (hother : ∀ n, n ≠ i.name → count' n = count n) {names : List String} (hnodup : names.Nodup)
    (hmem : i.name ∈ names) :
    countInterface i (names.filterMap (counted? s field count)) =
      names.filterMap (counted? s field count') := by
  have hkept : ∀ n, n ≠ i.name → counted? s field count' n = counted? s field count n := by
    intro n hn
    rw [counted?, counted?, hother n hn]
  induction names with
  | nil => exact absurd hmem List.not_mem_nil
  | cons n names ih =>
    obtain ⟨hn, hnames⟩ := List.nodup_cons.1 hnodup
    by_cases hname : n = i.name
    · subst hname
      have hrest := List.filterMap_congr fun m hm => hkept m fun h => hn (h ▸ hm)
      rw [List.filterMap_cons, List.filterMap_cons, hrest, counted?, counted?, hi, hself]
      exact if_pos rfl
    · have ih := ih hnames (List.mem_of_ne_of_mem (Ne.symm hname) hmem)
      rw [List.filterMap_cons, List.filterMap_cons, hkept n hname]
      cases hc : counted? s field count n with
      | none => exact ih
      | some c =>
        have hname : c.type.name ≠ i.name := name_of_counted? hc ▸ hname
        rw [countInterface, if_neg hname, ih]

theorem nodup_eraseDups (names : List String) : names.eraseDups.Nodup := by
  induction names using List.reverseRecOn with
  | nil => exact .nil
  | append_singleton names n ih =>
    rw [List.eraseDups_append]
    by_cases hn : n ∈ names
    · simpa [List.removeAll, hn] using ih
    · have hfresh : ∀ a ∈ names, a ≠ n := fun a ha h => hn (h ▸ ha)
      simpa [List.removeAll, hn, List.eraseDups_cons, List.nodup_append, ih] using hfresh

theorem countInterface_tally {i : InterfaceType} (hi : interfaceWith? s field i.name = some i)
    (names : List String) :
    countInterface i (tally s field names) = tally s field (names ++ [i.name]) := by
  have hother : ∀ n, n ≠ i.name → (names ++ [i.name]).count n = names.count n := by
    intro n hn
    rw [List.count_append, List.count_singleton, if_neg (by simpa using Ne.symm hn), Nat.add_zero]
  have hself : (names ++ [i.name]).count i.name = names.count i.name + 1 := by
    rw [List.count_append, List.count_singleton_self]
  rw [tally, tally, List.eraseDups_append]
  by_cases hmem : i.name ∈ names
  · rw [countInterface_of_mem hi hself hother (nodup_eraseDups _) (List.mem_eraseDups.2 hmem)]
    simp [List.removeAll, hmem]
  · have hkept : ∀ n ∈ names.eraseDups,
        counted? s field (fun n => (names ++ [i.name]).count n) n =
          counted? s field (fun n => names.count n) n := by
      intro n hn
      have hne : n ≠ i.name := fun h => hmem (h ▸ List.mem_eraseDups.1 hn)
      rw [counted?, counted?, hother n hne]
    have habsent : ∀ c ∈ names.eraseDups.filterMap (counted? s field fun n => names.count n),
        c.type.name ≠ i.name := by
      intro c hc h
      obtain ⟨n, hn, hcounted⟩ := List.mem_filterMap.1 hc
      exact hmem (h ▸ name_of_counted? hcounted ▸ List.mem_eraseDups.1 hn)
    have hnew : ([i.name].removeAll names).eraseDups = [i.name] := by
      simp [List.removeAll, hmem, List.eraseDups_cons]
    have hfirst : counted? s field (fun n => (names ++ [i.name]).count n) i.name =
        some ⟨.interface i, 1⟩ := by
      rw [counted?, hi, Option.map_some, hself, List.count_eq_zero.2 hmem]
    rw [countInterface_of_absent habsent, hnew, List.filterMap_append, List.filterMap_congr hkept,
      List.filterMap_cons_some hfirst, List.filterMap_nil]

/-! ### Objects and interfaces -/

def Candidate.isInterface (c : Candidate) : Bool := c.type.interface?.isSome

structure Collected (s : Schema) (field : String) (objects : List ObjectType)
    (names : List String) (cs : List Candidate) : Prop where
  found : ∀ c ∈ cs, s.type? c.type.name = some c.type
  objects : (cs.filter fun c => !c.isInterface) = objects.map Candidate.ofObject
  interfaces : cs.filter Candidate.isInterface = tally s field names

theorem mem_countInterface {i : InterfaceType} {cs : List Candidate} {c : Candidate}
    (hc : c ∈ countInterface i cs) : c.type = .interface i ∨ ∃ c' ∈ cs, c'.type = c.type := by
  induction cs with
  | nil => exact .inl (List.mem_singleton.1 hc ▸ rfl)
  | cons c' cs ih =>
    rw [countInterface] at hc
    split at hc
    · obtain rfl | hc := List.mem_cons.1 hc
      · exact .inr ⟨c', List.mem_cons_self, rfl⟩
      · exact .inr ⟨c, List.mem_cons_of_mem c' hc, rfl⟩
    · obtain rfl | hc := List.mem_cons.1 hc
      · exact .inr ⟨c, List.mem_cons_self, rfl⟩
      · exact (ih hc).imp_right fun ⟨d, hd, htype⟩ => ⟨d, List.mem_cons_of_mem c' hd, htype⟩

theorem countInterface_filter {i : InterfaceType} {cs : List Candidate}
    (h : ∀ c ∈ cs, c.type.name = i.name → c.isInterface = true) :
    ((countInterface i cs).filter fun c => !c.isInterface) = cs.filter (fun c => !c.isInterface) ∧
      (countInterface i cs).filter Candidate.isInterface =
        countInterface i (cs.filter Candidate.isInterface) := by
  induction cs with
  | nil => exact ⟨rfl, rfl⟩
  | cons c cs ih =>
    obtain ⟨hc, hcs⟩ := List.forall_mem_cons.1 h
    obtain ⟨hobjects, hinterfaces⟩ := ih hcs
    rw [countInterface]
    by_cases hname : c.type.name = i.name
    · have hself := hc hname
      have hnext : Candidate.isInterface { c with count := c.count + 1 } = true := hself
      rw [if_pos hname, List.filter_cons_of_pos hnext, List.filter_cons_of_pos hself,
        countInterface, if_pos hname, List.filter_cons_of_neg (by simp [hnext]),
        List.filter_cons_of_neg (by simp [hself])]
      exact ⟨rfl, rfl⟩
    · rw [if_neg hname]
      cases hself : c.isInterface with
      | true =>
        rw [List.filter_cons_of_neg (by simp [hself]), List.filter_cons_of_neg (by simp [hself]),
          List.filter_cons_of_pos hself, List.filter_cons_of_pos hself, countInterface,
          if_neg hname, hinterfaces]
        exact ⟨hobjects, rfl⟩
      | false =>
        rw [List.filter_cons_of_pos (by simp [hself]), List.filter_cons_of_pos (by simp [hself]),
          List.filter_cons_of_neg (by simp [hself]), List.filter_cons_of_neg (by simp [hself]),
          hobjects]
        exact ⟨rfl, hinterfaces⟩

namespace Collected

variable {objects : List ObjectType} {names : List String} {cs : List Candidate}

theorem start : Collected s field [] [] [] where
  found _ hc := absurd hc List.not_mem_nil
  objects := rfl
  interfaces := rfl

theorem object (h : Collected s field objects names cs) {o : ObjectType}
    (ho : s.type? o.name = some (.object o)) :
    Collected s field (objects ++ [o]) names (cs ++ [⟨.object o, 1⟩]) where
  found := List.forall_mem_append.2 ⟨h.found, List.forall_mem_singleton.2 ho⟩
  objects := by
    rw [List.filter_append, h.objects, List.map_append]
    rfl
  interfaces := by
    rw [List.filter_append, h.interfaces]
    exact List.append_nil _

theorem interface (h : Collected s field objects names cs) {i : InterfaceType}
    (hi : interfaceWith? s field i.name = some i) :
    Collected s field objects (names ++ [i.name]) (countInterface i cs) := by
  have htype := (interfaceWith?_eq_some.1 hi).1
  have hsame : ∀ c ∈ cs, c.type.name = i.name → c.isInterface = true := by
    intro c hc hname
    have hfound := h.found c hc
    rw [hname, htype] at hfound
    rw [Candidate.isInterface, ← Option.some.inj hfound]
    rfl
  obtain ⟨hobjects, hinterfaces⟩ := countInterface_filter hsame
  refine ⟨fun c hc => ?_, hobjects.trans h.objects, ?_⟩
  · obtain heq | ⟨c', hc', heq⟩ := mem_countInterface hc
    · rw [heq]
      exact htype
    · exact heq ▸ h.found c' hc'
  · rw [hinterfaces, h.interfaces, countInterface_tally hi]

theorem allInterfaces (h : Collected s field objects names cs) {is : List InterfaceType}
    (his : ∀ i ∈ is, interfaceWith? s field i.name = some i) :
    Collected s field objects (names ++ is.map InterfaceType.name)
      (is.foldl (fun cs i => countInterface i cs) cs) := by
  induction is generalizing names cs with
  | nil => simpa using h
  | cons i is ih =>
    obtain ⟨hi, his⟩ := List.forall_mem_cons.1 his
    rw [List.map_cons, List.foldl_cons, ← List.singleton_append, ← List.append_assoc]
    exact ih (h.interface hi) his

end Collected

theorem countInterfaces_eq (o : ObjectType) (cs : List Candidate) :
    countInterfaces s field o cs =
      (interfacesWith s field o).foldl (fun cs i => countInterface i cs) cs := by
  rw [countInterfaces, interfacesWith, List.foldl_filterMap]
  refine congrArg (List.foldl · cs o.interfaces) ?_
  funext cs n
  rw [interfaceWith?]
  cases (s.type? n).bind TypeDef.interface? with
  | none => rfl
  | some i =>
    simp only [Option.filter]
    split <;> rfl

theorem interfaceWith?_self {o : ObjectType} {i : InterfaceType}
    (hi : i ∈ interfacesWith s field o) : interfaceWith? s field i.name = some i := by
  obtain ⟨n, -, hn⟩ := List.mem_filterMap.1 hi
  rwa [name_of_interfaceWith? hn]

theorem possibleObjects_eq (hparent : parent.isAbstract = true) :
    s.possibleObjects parent = (parent.possibleTypes?.getD []).filterMap
      fun n => (s.type? n).bind TypeDef.object? := by
  cases parent with
  | object o => exact absurd hparent nofun
  | _ => rfl

theorem object?_type? {name : String} {o : ObjectType} :
    (s.type? name).bind TypeDef.object? = some o ↔ s.type? name = some (.object o) := by
  rw [Option.bind_eq_some_iff]
  refine ⟨?_, fun h => ⟨_, h, rfl⟩⟩
  rintro ⟨t, ht, hobject⟩
  cases t with
  | object p => rwa [← Option.some.inj hobject]
  | _ => exact absurd hobject nofun

theorem type?_of_possible (hparent : parent.isAbstract = true) {o : ObjectType}
    (ho : o ∈ s.possibleObjects parent) : s.type? o.name = some (.object o) := by
  rw [possibleObjects_eq hparent] at ho
  obtain ⟨n, -, hn⟩ := List.mem_filterMap.1 ho
  have htype := object?_type?.1 hn
  rwa [show o.name = n from (Schema.mem_of_type? htype).2]

theorem Collected.all {objects all : List ObjectType} {names : List String} {cs : List Candidate}
    (h : Collected s field objects names cs)
    (hall : ∀ o ∈ all, s.type? o.name = some (.object o)) :
    Collected s field (objects ++ all)
      (names ++ all.flatMap fun o => (interfacesWith s field o).map InterfaceType.name)
      (all.foldl (fun cs o => countInterfaces s field o (cs ++ [⟨.object o, 1⟩])) cs) := by
  induction all generalizing objects names cs with
  | nil => simpa using h
  | cons o all ih =>
    obtain ⟨ho, hrest⟩ := List.forall_mem_cons.1 hall
    have hnext := (h.object ho).allInterfaces fun i hi => interfaceWith?_self (o := o) hi
    rw [← countInterfaces_eq] at hnext
    rw [List.foldl_cons, List.flatMap_cons, ← List.append_assoc, ← List.singleton_append,
      ← List.append_assoc]
    exact ih hnext hrest

theorem collected (s : Schema) (field : String) (hparent : parent.isAbstract = true) :
    Collected s field (objectsWith s parent field) (mentions s parent field)
      (candidates s parent field) := by
  have hcandidates : candidates s parent field = (objectsWith s parent field).foldl
      (fun cs o => countInterfaces s field o (cs ++ [⟨.object o, 1⟩])) [] := by
    rw [objectsWith, List.foldl_filter, candidates]
  rw [hcandidates]
  exact Collected.start.all fun o ho => type?_of_possible hparent (List.mem_filter.1 ho).1

theorem candidates_perm (s : Schema) (field : String) (hparent : parent.isAbstract = true) :
    (candidates s parent field).Perm
      ((objectsWith s parent field).map Candidate.ofObject ++
        tally s field (mentions s parent field)) := by
  have h := collected s field hparent
  rw [← h.objects, ← h.interfaces]
  exact (List.filter_append_perm Candidate.isInterface _).symm.trans List.perm_append_comm

/-! ### Names -/

theorem objectsWith_names (hparent : parent.isAbstract = true) :
    (objectsWith s parent field).map ObjectType.name =
      (parent.possibleTypes?.getD []).filter fun n => ((s.type? n).bind TypeDef.object?).any
        fun o => ((TypeDef.object o).field? field).isSome := by
  rw [objectsWith, possibleObjects_eq hparent]
  induction parent.possibleTypes?.getD [] with
  | nil => rfl
  | cons n names ih =>
    rw [List.filterMap_cons, List.filter_cons]
    cases hn : (s.type? n).bind TypeDef.object? with
    | none => simpa using ih
    | some o =>
      have hname : o.name = n := (Schema.mem_of_type? (object?_type?.1 hn)).2
      simp only [Option.any_some, List.filter_cons]
      by_cases hfield : ((TypeDef.object o).field? field).isSome = true
      · rw [if_pos hfield, if_pos hfield, List.map_cons, ih, hname]
      · rw [if_neg hfield, if_neg hfield, ih]

theorem interfacesWith_names (o : ObjectType) :
    (interfacesWith s field o).map InterfaceType.name =
      o.interfaces.filter fun n => (interfaceWith? s field n).isSome := by
  rw [interfacesWith, List.map_filterMap, ← List.filterMap_eq_filter]
  refine List.filterMap_congr fun n _ => ?_
  cases hn : interfaceWith? s field n with
  | none => simp [Option.guard, hn]
  | some i => simp [Option.guard, hn, name_of_interfaceWith? hn]

theorem mem_mentions {name : String} :
    name ∈ mentions s parent field ↔ (∃ i, interfaceWith? s field name = some i) ∧
      ∃ o ∈ objectsWith s parent field, name ∈ o.interfaces := by
  simp only [mentions, List.mem_flatMap, interfacesWith_names, List.mem_filter,
    Option.isSome_iff_exists]
  constructor
  · rintro ⟨o, ho, hname, hi⟩
    exact ⟨hi, o, ho, hname⟩
  · rintro ⟨hi, o, ho, hname⟩
    exact ⟨o, ho, hname, hi⟩

theorem tally_names {names : List String}
    (h : ∀ n ∈ names, ∃ i, interfaceWith? s field n = some i) :
    (tally s field names).map (·.type.name) = names.eraseDups := by
  have hself : ∀ n ∈ names.eraseDups,
      (counted? s field (fun n => names.count n) n).map (·.type.name) = some n := by
    intro n hn
    obtain ⟨i, hi⟩ := h n (List.mem_eraseDups.1 hn)
    rw [counted?, hi]
    exact congrArg some (name_of_interfaceWith? hi)
  rw [tally, List.map_filterMap, List.filterMap_congr hself, List.filterMap_some]

/-- The names of the candidates: each object as often as it is possible, each interface once. -/
def candidateNames (s : Schema) (parent : TypeDef) (field : String) : List String :=
  (objectsWith s parent field).map ObjectType.name ++ (mentions s parent field).eraseDups

theorem names_perm (hparent : parent.isAbstract = true) :
    ((candidates s parent field).map (·.type.name)).Perm (candidateNames s parent field) := by
  have h := (candidates_perm s field hparent).map (·.type.name)
  rw [List.map_append, tally_names fun n hn => (mem_mentions.1 hn).1, List.map_map] at h
  exact h

end GraphQLCheck.Rules
