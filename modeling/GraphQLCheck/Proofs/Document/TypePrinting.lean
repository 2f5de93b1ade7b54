import GraphQLCheck.Proofs.Document.Unplaced
import GraphQLCheck.Schema.TypeRef

/-!
Types that are printed are read back. A type that was read has no non-null wrapper right around
another, and its print has no characters but those of names and its wrappers. Reading the print
finds tokens of a tree of the same shape (`TypeTree.rescans`). A reference that a type is
converted to has the same print and the same parts (`TypeExpr.readNode_print`).
-/
namespace GraphQLCheck

namespace TypeExpr

/-- Whether no non-null wrapper is right around another. -/
def isProper : TypeExpr → Bool
  | named _ => true
  | list t => t.isProper
  | nonNull t => !t.isNonNull && t.isProper

def nullable : TypeExpr → TypeExpr
  | nonNull t => t
  | t => t

end TypeExpr

namespace TypeTree

section
variable {x y : Option Place} {t : TypeExpr}

theorem required_congr (h : y.isSome = x.isSome) (t : TypeExpr) : required y t = required x t := by
  rw [required, required, h]

def mark (x : Option Place) : List Char := if x.isSome then ['!'] else []

theorem toList_required (x : Option Place) (t : TypeExpr) :
    (required x t).print.toList = t.print.toList ++ mark x := by
  cases x with
  | none => exact (List.append_nil _).symm
  | some q => exact String.toList_append

theorem isProper_required (x : Option Place) (h : t.isNonNull = false) :
    (required x t).isProper = t.isProper := by
  cases x with
  | none => rfl
  | some q => simp [required, TypeExpr.isProper, h]

theorem unplaced_required (x : Option Place) (t : TypeExpr) :
    (required x t).unplaced = required x t.unplaced := by
  cases x <;> rfl

end

theorem isProper_type (tracked : Bool) (t : TypeTree) : (t.type tracked).isProper = true := by
  induction t with
  | named n x => exact isProper_required x rfl
  | list o t c x ih => exact (isProper_required x rfl).trans ih

theorem unplaced_type (tracked : Bool) (t : TypeTree) : (t.type tracked).unplaced = t.type false := by
  induction t with
  | named n x => exact unplaced_required x _
  | list o t c x ih =>
    rw [type, unplaced_required, TypeExpr.unplaced, ih]
    rfl

theorem toList_list (tracked : Bool) (o : Place) (t : TypeTree) (c : Place) (x : Option Place) :
    ((TypeTree.list o t c x).type tracked).print.toList =
      '[' :: ((t.type tracked).print.toList ++ ']' :: mark x) := by
  rw [type, toList_required, TypeExpr.print, String.toList_append, String.toList_append]
  simp

def isTypeChar (c : Char) : Bool := isNameChar c || ['[', ']', '!'].contains c

theorem isTypeChar_mark {x : Option Place} : ∀ c ∈ mark x, isTypeChar c = true := by
  intro c hc
  cases x with
  | none => exact absurd hc List.not_mem_nil
  | some q =>
    obtain rfl := List.mem_singleton.1 hc
    rfl

theorem isTypeChar_print (tracked : Bool) {t : TypeTree} (h : AllSpelled t.lexemes) :
    ∀ c ∈ (t.type tracked).print.toList, isTypeChar c = true := by
  induction t with
  | named n x =>
    have hn : IsName n.text.toList := (allSpelled_cons.1 h).1
    intro c hc
    rw [type, toList_required, List.mem_append] at hc
    obtain hc | hc := hc
    · rw [isTypeChar, hn.isNameChar c hc, Bool.true_or]
    · exact isTypeChar_mark c hc
  | list o t q x ih =>
    have ht : AllSpelled t.lexemes := (allSpelled_append.1 (allSpelled_cons.1 h).2).1
    rw [toList_list, List.forall_mem_cons, List.forall_mem_append, List.forall_mem_cons]
    exact ⟨rfl, ih ht, rfl, isTypeChar_mark⟩

theorem exists_scan_mark (x : Option Place) (r : List Char) (p : Position) :
    ∃ (y : Option Place) (p' : Position), y.isSome = x.isSome ∧
      Lexeme.scanAt p (mark x ++ r) =
        optionalLexemes (fun q : Place => [q.lexeme .exclam]) y ++ Lexeme.scanAt p' r := by
  cases x with
  | none => exact ⟨none, p, rfl, rfl⟩
  | some q =>
    have hexclam : ScansTo .exclam ['!'] r := scansTo_first rfl rfl
    obtain ⟨y, p', hscan⟩ := hexclam p
    exact ⟨some y, p', rfl, hscan⟩

theorem endsRun_mark (x : Option Place) {r : List Char} (hr : EndsRun isNameChar r) :
    EndsRun isNameChar (mark x ++ r) := by
  cases x with
  | none => exact hr
  | some q => simp [mark, EndsRun, isNameChar]

theorem rescans (tracked : Bool) {t : TypeTree} (h : AllSpelled t.lexemes) {r : List Char}
    (hr : EndsRun isNameChar r) (p : Position) :
    ∃ (u : TypeTree) (p' : Position), u.type false = t.type false ∧
      Lexeme.scanAt p ((t.type tracked).print.toList ++ r) = u.lexemes ++ Lexeme.scanAt p' r := by
  induction t generalizing r p with
  | named n x =>
    have hn : IsName n.text.toList := (allSpelled_cons.1 h).1
    have hname := scansTo_wholeName hn (endsRun_mark x hr)
    obtain ⟨q, p₁, hscan₁⟩ := hname p
    obtain ⟨y, p₂, hy, hscan₂⟩ := exists_scan_mark x r p₁
    refine ⟨.named ⟨n.text, q⟩ y, p₂, required_congr hy _, ?_⟩
    rw [type, toList_required, TypeExpr.print, NameTree.name, List.append_assoc, hscan₁, hscan₂,
      String.ofList_toList]
    rfl
  | list o t c x ih =>
    have ht : AllSpelled t.lexemes := (allSpelled_append.1 (allSpelled_cons.1 h).2).1
    have hopening : ScansTo .bracketOpen ['['] ((t.type tracked).print.toList ++
        ']' :: (mark x ++ r)) := scansTo_first rfl rfl
    have hclosing : ScansTo .bracketClose [']'] (mark x ++ r) := scansTo_first rfl rfl
    obtain ⟨q₁, p₁, hscan₁⟩ := hopening p
    obtain ⟨u, p₂, hu, hscan₂⟩ := ih ht (r := ']' :: (mark x ++ r))
      (by simp [EndsRun, isNameChar]) p₁
    obtain ⟨q₂, p₃, hscan₃⟩ := hclosing p₂
    obtain ⟨y, p₄, hy, hscan₄⟩ := exists_scan_mark x r p₃
    refine ⟨.list q₁ u q₂ y, p₄, ?_, ?_⟩
    · rw [type, type, hu, required_congr hy]
    · simp only [toList_list, List.cons_append, List.append_assoc, List.nil_append, lexemes]
        at hscan₁ hscan₃ ⊢
      rw [hscan₁, hscan₂, hscan₃, hscan₄]

end TypeTree

namespace TypeExpr

theorem exists_typeTree {tracked : Bool} {source : String} {t : TypeExpr}
    (h : readNode read tracked source = .ok t) :
    ∃ u : TypeTree, AllSpelled u.lexemes ∧ t = u.type tracked := by
  obtain ⟨rest, hread⟩ := readNode_eq_ok.1 h
  obtain ⟨u, -, hc, rfl⟩ := sound_read _ _ _ hread
  obtain ⟨hscan, -, htracked⟩ := Cursor.mk.inj hc
  refine ⟨u, fun l hl => ?_, by rw [htracked]⟩
  have hmem : l ∈ Lexeme.scan source.toList := hscan ▸ List.mem_append_left _ hl
  exact Lexeme.spelled_of_mem_scan hmem

theorem nullable_ofExpr (t : TypeExpr) :
    (TypeRef.ofExpr t).nullable = TypeRef.ofExpr t.nullable := by
  cases t <;> rfl

theorem listItem?_ofExpr (t : TypeExpr) :
    (TypeRef.ofExpr t).listItem? = match t.nullable with
      | list item => some (.ofExpr item)
      | _ => none := by
  cases t with
  | nonNull t => cases t <;> rfl
  | _ => rfl

/-- A type that was read has single non-null wrappers. It is read again from its print, up to the
places, and nothing of the print is left over or passed over. The reference that it is converted
to has the same print, name and wrappers. -/
theorem readNode_print {tracked : Bool} {source : String} {t : TypeExpr}
    (h : readNode read tracked source = .ok t) :
    t.isProper = true ∧
    (∀ again : Bool, ∃ (u : TypeExpr) (rest : Cursor),
      readNode read again t.print = .ok u ∧
      read (.ofSource again t.print.toList) = .done u rest ∧ rest.ahead = [] ∧
      u.unplaced = t.unplaced) ∧
    (∀ c ∈ t.print.toList, TypeTree.isTypeChar c = true) ∧
    (TypeRef.ofExpr t).print = t.print ∧ (TypeRef.ofExpr t).name = t.name.text ∧
    (TypeRef.ofExpr t).isNonNull = t.isNonNull ∧
    (TypeRef.ofExpr t).nullable = .ofExpr t.nullable ∧
    (TypeRef.ofExpr t).listItem? = match t.nullable with
      | list item => some (.ofExpr item)
      | _ => none := by
  obtain ⟨v, hspelled, rfl⟩ := exists_typeTree h
  refine ⟨v.isProper_type tracked, fun again => ?_, TypeTree.isTypeChar_print tracked hspelled,
    TypeRef.print_ofExpr _, TypeRef.name_ofExpr _, TypeRef.isNonNull_ofExpr _, nullable_ofExpr _,
    listItem?_ofExpr _⟩
  obtain ⟨u, p, hu, hscan⟩ := TypeTree.rescans tracked hspelled (r := []) nofun .start
  have hcursor : Cursor.ofSource again (v.type tracked).print.toList =
      (Cursor.ofSource again (v.type tracked).print.toList).before (u.lexemes ++ []) := by
    rw [List.append_nil, Lexeme.scanAt_nil, List.append_nil] at hscan
    rw [List.append_nil, ← hscan]
    rfl
  have hdone : read (.ofSource again (v.type tracked).print.toList) =
      .done (u.type again)
        ((Cursor.ofSource again (v.type tracked).print.toList).before []) := by
    rw [hcursor]
    exact complete_read _ u [] trivial (Nat.le_of_ble_eq_true rfl)
  refine ⟨_, _, readNode_eq_ok.2 ⟨_, hdone⟩, hdone, rfl, ?_⟩
  rw [TypeTree.unplaced_type, TypeTree.unplaced_type, hu]

/-- A list of lists that is required, with blanks and a comma in it. -/
theorem readNode_print_nested :
    readNode read false "[ [Int,!] ]! rest" =
        .ok (nonNull (list (list (nonNull (named ⟨"Int", none⟩))))) ∧
      (∃ u, readNode read true "[[Int!]]!" = .ok u ∧
        u.unplaced = nonNull (list (list (nonNull (named ⟨"Int", none⟩))))) ∧
      (TypeRef.ofExpr (nonNull (list (list (nonNull (named ⟨"Int", none⟩)))))).listItem? =
        some (.ofExpr (list (nonNull (named ⟨"Int", none⟩)))) := by
  have hread : readNode read false "[ [Int,!] ]! rest" =
      .ok (nonNull (list (list (nonNull (named ⟨"Int", none⟩))))) := rfl
  obtain ⟨-, hagain, -, -, -, -, -, hitem⟩ := readNode_print hread
  obtain ⟨u, -, hu, -, -, hsame⟩ := hagain true
  exact ⟨hread, ⟨u, hu, hsame⟩, hitem⟩

end TypeExpr
end GraphQLCheck
