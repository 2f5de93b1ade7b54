/-!
Cutting a text at every occurrence of a character. There is always one more piece than
occurrences (`length_split`), no piece holds the character (`not_mem_of_mem_split`), and putting
it between the pieces gives the text back (`intercalate_split`). Pieces that do not hold it are
found again in the text that they make (`split_intercalate`).
-/
namespace GraphQLCheck.Text

def split (separator : Char) : List Char → List (List Char)
  | [] => [[]]
  | c :: cs =>
    if c = separator then [] :: split separator cs
    else match split separator cs with
      | [] => [[c]]
      | piece :: pieces => (c :: piece) :: pieces

theorem split_separator (c : Char) (cs : List Char) : split c (c :: cs) = [] :: split c cs :=
  if_pos rfl

theorem split_ne_nil (c : Char) (cs : List Char) : split c cs ≠ [] := by
  cases cs with
  | nil => exact List.cons_ne_nil _ _
  | cons d ds =>
    rw [split]
    split
    · simp
    · split <;> simp

theorem split_cons {c d : Char} (h : d ≠ c) (ds : List Char) :
    ∃ p ps, split c ds = p :: ps ∧ split c (d :: ds) = (d :: p) :: ps := by
  obtain ⟨p, ps, hp⟩ := List.exists_cons_of_ne_nil (split_ne_nil c ds)
  exact ⟨p, ps, hp, by rw [split, if_neg h, hp]⟩

theorem length_split (c : Char) (cs : List Char) :
    (split c cs).length = cs.count c + 1 := by
  induction cs with
  | nil => rfl
  | cons d ds ih =>
    by_cases h : d = c
    · rw [h, split_separator, List.length_cons, ih, List.count_cons_self]
    · obtain ⟨p, ps, hp, hs⟩ := split_cons h ds
      rw [hs, List.count_cons_of_ne h, ← ih, hp]
      rfl

theorem intercalate_split (c : Char) (cs : List Char) : [c].intercalate (split c cs) = cs := by
  induction cs with
  | nil => rfl
  | cons d ds ih =>
    by_cases h : d = c
    · obtain ⟨p, ps, hp⟩ := List.exists_cons_of_ne_nil (split_ne_nil c ds)
      rw [h, split_separator, hp]
      exact congrArg (c :: ·) (hp ▸ ih)
    · obtain ⟨p, ps, hp, hs⟩ := split_cons h ds
      rw [hp] at ih
      rw [hs, ← ih]
      cases ps <;> rfl

theorem not_mem_of_mem_split {c : Char} {cs p : List Char} (h : p ∈ split c cs) : c ∉ p := by
  induction cs generalizing p with
  | nil =>
    obtain rfl := List.mem_singleton.1 h
    exact List.not_mem_nil
  | cons d ds ih =>
    by_cases hd : d = c
    · rw [hd, split_separator, List.mem_cons] at h
      rcases h with rfl | h
      · exact List.not_mem_nil
      · exact ih h
    · obtain ⟨q, qs, hq, hs⟩ := split_cons hd ds
      rw [hs, List.mem_cons] at h
      rcases h with rfl | h
      · have hc : c ∉ q := ih (hq ▸ List.mem_cons_self ..)
        simp [hc, Ne.symm hd]
      · exact ih (hq ▸ List.mem_cons_of_mem _ h)

theorem split_of_not_mem {c : Char} {xs : List Char} (h : c ∉ xs) : split c xs = [xs] := by
  induction xs with
  | nil => rfl
  | cons x xs ih =>
    obtain ⟨hx, hxs⟩ := not_or.1 (mt List.mem_cons.2 h)
    obtain ⟨p, ps, hp, hs⟩ := split_cons (Ne.symm hx) xs
    obtain ⟨rfl, rfl⟩ := List.cons.inj ((ih hxs).symm.trans hp)
    exact hs

theorem split_append_split (c : Char) (xs ys : List Char) :
    split c (xs ++ ys) = (split c xs).dropLast ++
      ((split c xs).getLastD [] ++ (split c ys).headD []) :: (split c ys).tail := by
  induction xs with
  | nil =>
    obtain ⟨p, ps, hp⟩ := List.exists_cons_of_ne_nil (split_ne_nil c ys)
    rw [List.nil_append, hp]
    rfl
  | cons x xs ih =>
    by_cases hx : x = c
    · obtain ⟨p, ps, hp⟩ := List.exists_cons_of_ne_nil (split_ne_nil c xs)
      rw [hx, List.cons_append, split_separator, split_separator, ih, hp]
      rfl
    · obtain ⟨p, ps, hp, hs⟩ := split_cons hx xs
      obtain ⟨q, qs, hq, hs'⟩ := split_cons hx (xs ++ ys)
      rw [hp, hq] at ih
      rw [List.cons_append, hs', hs]
      cases ps with
      | nil =>
        obtain ⟨rfl, rfl⟩ := List.cons.inj ih
        rfl
      | cons r rs =>
        obtain ⟨rfl, rfl⟩ := List.cons.inj ih
        rfl

theorem split_append_separator (c : Char) (xs ys : List Char) :
    split c (xs ++ c :: ys) = split c xs ++ split c ys := by
  rw [split_append_split, split_separator, List.headD_cons, List.append_nil, List.tail_cons,
    List.append_cons, List.getLastD_eq_getLast?,
    List.getLast?_eq_some_getLast (split_ne_nil c xs), Option.getD_some,
    List.dropLast_concat_getLast]

theorem getLastD_split (c : Char) (xs : List Char) :
    (split c xs).getLastD [] = (xs.reverse.takeWhile (· ≠ c)).reverse := by
  induction h : xs.reverse generalizing xs with
  | nil =>
    rw [List.reverse_eq_nil_iff.1 h]
    rfl
  | cons d ds ih =>
    obtain rfl : xs = ds.reverse ++ [d] := by simpa using congrArg List.reverse h
    by_cases hd : d = c
    · have hs : split c [c] = [[], []] := split_separator c []
      simp [split_append_split, hs, hd]
    · have hs : split c [d] = [[d]] := split_of_not_mem (by simpa using Ne.symm hd)
      simpa [split_append_split, hs, hd] using ih ds.reverse (List.reverse_reverse ds)

theorem split_intercalate {c : Char} {pieces : List (List Char)} (hne : pieces ≠ [])
    (h : ∀ piece ∈ pieces, c ∉ piece) : split c ([c].intercalate pieces) = pieces := by
  induction pieces with
  | nil => exact absurd rfl hne
  | cons piece pieces ih =>
    obtain ⟨hpiece, hpieces⟩ := List.forall_mem_cons.1 h
    cases pieces with
    | nil => simpa using split_of_not_mem hpiece
    | cons next pieces =>
      rw [List.intercalate_cons_cons, List.append_assoc, List.singleton_append,
        split_append_separator, split_of_not_mem hpiece, ih (List.cons_ne_nil _ _) hpieces,
        List.singleton_append]

end GraphQLCheck.Text
