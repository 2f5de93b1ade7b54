/-!
Collections of things that have names, no two of them the same name. A thing that is put into a
collection takes the place of the one that had its name (`find?_put_self`, `find?_put_of_ne`,
`nodup_ofList`). Where order shows it is by name.
-/
namespace GraphQLCheck
namespace Named

variable {α : Type} (nameOf : α → String)

def put (a : α) : List α → List α
  | [] => [a]
  | b :: bs => if nameOf b = nameOf a then a :: bs else b :: put a bs

def ofList (as : List α) : List α := as.foldl (fun bs a => put nameOf a bs) []

def find? (name : String) (as : List α) : Option α := as.find? (nameOf · == name)

def without (taken as : List α) : List α :=
  as.filter fun a => !taken.any (nameOf · == nameOf a)

/-- The same names, and what has a name in one is the `same` as what has it in the other. -/
def agree (same : α → α → Bool) (as bs : List α) : Bool :=
  as.length == bs.length && as.all fun a => (find? nameOf (nameOf a) bs).any (same a)

def sorted (as : List α) : List α := as.mergeSort fun a b => nameOf a ≤ nameOf b

theorem find?_put_self (a : α) (as : List α) :
    find? nameOf (nameOf a) (put nameOf a as) = some a := by
  induction as with
  | nil => simp [put, find?]
  | cons b bs ih =>
    by_cases h : nameOf b = nameOf a
    · simp [put, find?, h]
    · simpa [put, find?, h] using ih

theorem find?_put_of_ne (a : α) {name : String} (h : name ≠ nameOf a) (as : List α) :
    find? nameOf name (put nameOf a as) = find? nameOf name as := by
  induction as with
  | nil => simp [put, find?, Ne.symm h]
  | cons b bs ih =>
    by_cases hb : nameOf b = nameOf a
    · simp [put, find?, hb, Ne.symm h]
    · by_cases hn : nameOf b = name
      · simp [put, find?, hn, h]
      · simpa [put, find?, hb, hn] using ih

theorem mem_of_mem_put {a b : α} {as : List α} (h : b ∈ put nameOf a as) : b = a ∨ b ∈ as := by
  induction as with
  | nil => simpa [put] using h
  | cons c cs ih =>
    by_cases hc : nameOf c = nameOf a
    · simp only [put, hc, if_true, List.mem_cons] at h
      exact h.imp_right (List.mem_cons_of_mem c)
    · simp only [put, hc, if_false, List.mem_cons] at h
      rcases h with rfl | h
      · exact .inr List.mem_cons_self
      · exact (ih h).imp_right (List.mem_cons_of_mem c)

theorem name_mem_put (a : α) (name : String) (as : List α) :
    name ∈ (put nameOf a as).map nameOf ↔ name = nameOf a ∨ name ∈ as.map nameOf := by
  induction as with
  | nil => simp [put]
  | cons b bs ih =>
    by_cases h : nameOf b = nameOf a
    · simp [put, h]
    · simp only [put, h, if_false, List.map_cons, List.mem_cons, ih]
      grind

theorem nodup_put (a : α) {as : List α} (h : (as.map nameOf).Nodup) :
    ((put nameOf a as).map nameOf).Nodup := by
  induction as with
  | nil => simp [put]
  | cons b bs ih =>
    by_cases hb : nameOf b = nameOf a
    · simpa [put, hb] using h
    · simp only [put, hb, if_false, List.map_cons, List.nodup_cons, name_mem_put] at h ⊢
      exact ⟨by simp [h.1], ih h.2⟩

theorem nodup_ofList (as : List α) : ((ofList nameOf as).map nameOf).Nodup := by
  suffices h : ∀ bs : List α, (bs.map nameOf).Nodup →
      ((as.foldl (fun bs a => put nameOf a bs) bs).map nameOf).Nodup from h [] (by simp)
  induction as with
  | nil => exact fun _ h => h
  | cons a as ih => exact fun bs h => ih _ (nodup_put nameOf a h)

theorem mem_sorted {a : α} {as : List α} : a ∈ sorted nameOf as ↔ a ∈ as :=
  (List.mergeSort_perm as _).mem_iff

end Named

def sortedNames (names : List String) : List String := names.mergeSort (· ≤ ·)

end GraphQLCheck
