import GraphQLCheck.Document.Reader
import GraphQLCheck.Proofs.Document.Unambiguous

/-!
The readers of documents against their grammar: each takes the tokens of a derivation tree and
yields the node that the tree stands for (`sound_…`), and it does so for every tree as long as the
token behind it cannot go on with what the tree leaves out (`complete_…`). A bound on the depth of
nesting is large enough if it exceeds the number of tokens.
-/
namespace GraphQLCheck
open Reader

/-- At the end of a tree a token of rank `k` or more may stand. -/
def EndsAt (k : Nat) (t : Token) : Prop := k ≤ t.rank

theorem EndsAt.peek_ne {k : Nat} {rest : List Lexeme} (h : EndsAt k (headToken rest)) {t : Token}
    (ht : t.rank < k) (c : Cursor) : (c.before rest).peek ≠ t := by
  rintro rfl
  rw [Cursor.peek_before] at ht
  exact absurd h (Nat.not_le_of_lt ht)

theorem sound_skip {α : Type} {c d : Cursor} {t : Token} (hpeek : c.peek = t) (ht : t ≠ .finish)
    {f : Option Location → α} {a : α}
    (h : (skip >>= fun _ => pure (f c.mark) : NodeReader α) c = .done a d) :
    ∃ q : Place, c = d.before (q.lexeme t :: d.ahead) ∧ a = f (q.mark d.tracked) := by
  simp only [bind_eq_done, skip_eq_done, pure_eq_done] at h
  obtain ⟨_, _, rfl, rfl, rfl⟩ := h
  obtain ⟨q, hq⟩ := Cursor.exists_place (hpeek ▸ ht)
  rw [hpeek] at hq
  exact ⟨q, hq, by rw [hq]; rfl⟩

theorem length_le_of_mem_flatMap {α : Type} (lexemes : α → List Lexeme) {a : α} {as : List α}
    (h : a ∈ as) : (lexemes a).length ≤ (as.flatMap lexemes).length := by
  obtain ⟨bs, cs, rfl⟩ := List.append_of_mem h
  simp only [List.flatMap_append, List.flatMap_cons, List.length_append]
  omega

theorem sound_readName (c : Cursor) (a : Name) (d : Cursor) (h : readName c = .done a d) :
    ∃ n : NameTree, c = d.before (n.lexeme :: d.ahead) ∧ a = n.name d.tracked := by
  simp only [readName, bind_eq_done, mark_eq_done, takeName_eq_done, pure_eq_done] at h
  obtain ⟨_, _, ⟨rfl, rfl⟩, text, m, ⟨p, rfl⟩, rfl, rfl⟩ := h
  exact ⟨⟨text, p⟩, rfl, rfl⟩

theorem complete_readName (c : Cursor) (n : NameTree) (rest : List Lexeme) :
    readName (c.before (n.lexeme :: rest)) = .done (n.name c.tracked) (c.before rest) := by
  rw [readName, bind_done mark_apply, NameTree.lexeme, bind_done (takeName_done _ _ _)]
  rfl

namespace Value

def Admits (constant : Bool) (v : ValueTree) : Prop := constant = true → v.isConstant = true

section
variable {value : NodeReader Value} {p : ValueTree → Prop} {ends : Token → Prop}

theorem sound_readEntry {kind : NodeKind} (hvalue : Sound value ValueTree.lexemes ValueTree.value p)
    (c : Cursor) (a : String × Value × Option Location) (d : Cursor)
    (h : readEntry kind value c = .done a d) :
    ∃ e : EntryTree, p e.value ∧ c = d.before (e.lexemes ++ d.ahead) ∧
      a = (e.name.text, e.value.value d.tracked, e.name.place.mark d.tracked) := by
  simp only [readEntry, bind_eq_done, mark_eq_done, takeName_eq_done,
    expect_eq_done (t := .colon) (by simp), pure_eq_done] at h
  obtain ⟨_, _, ⟨rfl, rfl⟩, text, _, ⟨n, rfl⟩, _, m, ⟨q, rfl⟩, v, _, hv, rfl, rfl⟩ := h
  obtain ⟨t, ht, rfl, rfl⟩ := hvalue _ _ _ hv
  exact ⟨⟨⟨text, n⟩, q, t⟩, ht, rfl, rfl⟩

theorem complete_readEntry {kind : NodeKind}
    (hvalue : Complete value ValueTree.lexemes ValueTree.value ends p) (c : Cursor)
    (e : EntryTree) (rest : List Lexeme) (he : p e.value) (hrest : ends (headToken rest)) :
    readEntry kind value (c.before (e.lexemes ++ rest)) =
      .done (e.name.text, e.value.value c.tracked, e.name.place.mark c.tracked)
        (c.before rest) := by
  obtain ⟨n, q, v⟩ := e
  rw [readEntry, bind_done mark_apply]
  simp only [EntryTree.lexemes, NameTree.lexeme, List.cons_append]
  rw [bind_done (takeName_done _ _ _), bind_done (expect_done _ _),
    bind_done (hvalue c v rest he hrest)]
  rfl

theorem sound_readListOf (hvalue : Sound value ValueTree.lexemes ValueTree.value p) {c : Cursor}
    {a : Value} {d : Cursor} (h : readListOf value c = .done a d) :
    ∃ o vs q, (∀ v ∈ vs, p v) ∧ c = d.before ((ValueTree.list o vs q).lexemes ++ d.ahead) ∧
      a = (ValueTree.list o vs q).value d.tracked := by
  simp only [readListOf, bind_eq_done, mark_eq_done, expect_eq_done (t := .bracketOpen) (by simp),
    pure_eq_done] at h
  obtain ⟨_, _, ⟨rfl, rfl⟩, _, m, ⟨o, rfl⟩, as, _, has, rfl, rfl⟩ := h
  obtain ⟨vs, q, hvs, rfl, rfl⟩ := sound_itemsUntil (by simp) hvalue has
  refine ⟨o, vs, q, hvs, ?_, ?_⟩
  · simp [ValueTree.lexemes, ValueTree.lexemesAll_eq]
  · simp [ValueTree.value, ValueTree.values_eq]

theorem sound_readObjectField (hvalue : Sound value ValueTree.lexemes ValueTree.value p) :
    Sound (readObjectField value) EntryTree.lexemes EntryTree.field (fun e => p e.value) := by
  intro c a d h
  simp only [readObjectField, bind_eq_done, pure_eq_done] at h
  obtain ⟨x, m, hx, rfl, rfl⟩ := h
  obtain ⟨e, he, hc, rfl⟩ := sound_readEntry hvalue _ _ _ hx
  exact ⟨e, he, hc, (e.field_eq _).symm⟩

theorem sound_readObjectOf (hvalue : Sound value ValueTree.lexemes ValueTree.value p) {c : Cursor}
    {a : Value} {d : Cursor} (h : readObjectOf value c = .done a d) :
    ∃ o es q, (∀ e ∈ es, p (EntryTree.value e)) ∧
      c = d.before ((ValueTree.object o es q).lexemes ++ d.ahead) ∧
      a = (ValueTree.object o es q).value d.tracked := by
  simp only [readObjectOf, bind_eq_done, mark_eq_done, expect_eq_done (t := .braceOpen) (by simp),
    pure_eq_done] at h
  obtain ⟨_, _, ⟨rfl, rfl⟩, _, m, ⟨o, rfl⟩, as, _, has, rfl, rfl⟩ := h
  obtain ⟨es, q, hes, rfl, rfl⟩ := sound_itemsUntil (by simp) (sound_readObjectField hvalue) has
  refine ⟨o, es, q, hes, ?_, ?_⟩
  · simp [ValueTree.lexemes, EntryTree.lexemesAll_eq]
  · simp [ValueTree.value, EntryTree.fields_eq]

theorem complete_readListOf (hvalue : Complete value ValueTree.lexemes ValueTree.value (EndsAt 0) p)
    (c : Cursor) (o : Place) {vs : List ValueTree} (q : Place) (rest : List Lexeme)
    (hvs : ∀ v ∈ vs, p v) :
    readListOf value (c.before ((ValueTree.list o vs q).lexemes ++ rest)) =
      .done ((ValueTree.list o vs q).value c.tracked) (c.before rest) := by
  have hitems := complete_itemsUntil .bracketClose hvalue ValueTree.lexemes_ne_nil
    (fun v _ r => ⟨(v.headToken_lexemes r).symm ▸ v.head_ne, Nat.zero_le _⟩) (Nat.zero_le _)
    hvs c q rest
  rw [readListOf, bind_done mark_apply]
  simp only [ValueTree.lexemes, ValueTree.lexemesAll_eq, List.cons_append, List.append_assoc,
    List.nil_append]
  rw [bind_done (expect_done _ _), bind_done hitems, pure_apply, ValueTree.value,
    ValueTree.values_eq, Cursor.mark_before]

theorem complete_readObjectOf
    (hvalue : Complete value ValueTree.lexemes ValueTree.value (EndsAt 0) p)
    (c : Cursor) (o : Place) {es : List EntryTree} (q : Place) (rest : List Lexeme)
    (hes : ∀ e ∈ es, p e.value) :
    readObjectOf value (c.before ((ValueTree.object o es q).lexemes ++ rest)) =
      .done ((ValueTree.object o es q).value c.tracked) (c.before rest) := by
  have hfield : Complete (readObjectField value) EntryTree.lexemes EntryTree.field (EndsAt 0)
      (fun e => p e.value) := by
    intro c e rest he hrest
    rw [readObjectField, bind_done (complete_readEntry hvalue c e rest he hrest), e.field_eq]
    rfl
  have hitems := complete_itemsUntil .braceClose hfield EntryTree.lexemes_ne_nil
    (fun e _ r => ⟨by simp [e.headToken_lexemes r], Nat.zero_le _⟩) (Nat.zero_le _) hes c q rest
  rw [readObjectOf, bind_done mark_apply]
  simp only [ValueTree.lexemes, EntryTree.lexemesAll_eq, List.cons_append, List.append_assoc,
    List.nil_append]
  rw [bind_done (expect_done _ _), bind_done hitems, pure_apply, ValueTree.value,
    EntryTree.fields_eq, Cursor.mark_before]

end

theorem sound_readWithin (constant : Bool) (n : Nat) :
    Sound (readWithin constant n) ValueTree.lexemes ValueTree.value (Admits constant) := by
  induction n with
  | zero => exact fun c a d h => absurd h unfinished_ne_done
  | succ n ih =>
    intro c a d h
    rw [readWithin, bind_done mark_apply, bind_done peek_apply] at h
    cases hpeek : c.peek with
    | variableName name =>
      simp only [hpeek] at h
      by_cases hconstant : constant = true
      · rw [if_pos hconstant] at h
        exact absurd h fail_ne_done
      · rw [if_neg hconstant] at h
        obtain ⟨q, hc, ha⟩ := sound_skip (f := fun l => Value.variable ⟨name, l⟩) hpeek (by simp) h
        exact ⟨.var q name, fun h => absurd h hconstant, hc, ha⟩
    | name text =>
      simp only [hpeek] at h
      obtain ⟨q, hc, ha⟩ := sound_skip (f := fun l => ofName text l) hpeek (by simp) h
      exact ⟨.name ⟨text, q⟩, fun _ => rfl, hc, ha⟩
    | float digits =>
      simp only [hpeek] at h
      obtain ⟨q, hc, ha⟩ := sound_skip (f := fun l => float digits l) hpeek (by simp) h
      exact ⟨.float q digits, fun _ => rfl, hc, ha⟩
    | integer digits =>
      simp only [hpeek] at h
      obtain ⟨q, hc, ha⟩ := sound_skip (f := fun l => int digits l) hpeek (by simp) h
      exact ⟨.int q digits, fun _ => rfl, hc, ha⟩
    | string text =>
      simp only [hpeek] at h
      obtain ⟨q, hc, ha⟩ := sound_skip (f := fun l => string text l) hpeek (by simp) h
      exact ⟨.string q text, fun _ => rfl, hc, ha⟩
    | bracketOpen =>
      simp only [hpeek] at h
      obtain ⟨o, vs, q, hvs, hc, ha⟩ := sound_readListOf ih h
      refine ⟨.list o vs q, fun hconstant => ?_, hc, ha⟩
      rw [ValueTree.isConstant, ValueTree.allConstant_eq, List.all_eq_true]
      exact fun v hv => hvs v hv hconstant
    | braceOpen =>
      simp only [hpeek] at h
      obtain ⟨o, es, q, hes, hc, ha⟩ := sound_readObjectOf ih h
      refine ⟨.object o es q, fun hconstant => ?_, hc, ha⟩
      rw [ValueTree.isConstant, EntryTree.allConstant_eq, List.all_eq_true]
      exact fun e he => e.isConstant_eq ▸ hes e he hconstant
    | _ =>
      simp only [hpeek] at h
      exact absurd h fail_ne_done

theorem complete_readWithin (constant : Bool) (n : Nat) :
    Complete (readWithin constant n) ValueTree.lexemes ValueTree.value (EndsAt 0)
      (fun v => Admits constant v ∧ v.lexemes.length < n) := by
  induction n with
  | zero => exact fun c v rest h _ => absurd h.2 (Nat.not_lt_zero _)
  | succ n ih =>
    intro c v rest ⟨hconstant, hn⟩ _
    rw [readWithin, bind_done mark_apply, bind_done peek_apply, Cursor.peek_before,
      v.headToken_lexemes]
    cases v with
    | var q name =>
      have hvariable : ¬ constant = true :=
        fun h => by simpa [ValueTree.isConstant] using hconstant h
      simp only [ValueTree.head, if_neg hvariable]
      rfl
    | list o vs q =>
      refine complete_readListOf ih c o q rest fun v hv => ⟨fun h => ?_, ?_⟩
      · have hall := hconstant h
        rw [ValueTree.isConstant, ValueTree.allConstant_eq, List.all_eq_true] at hall
        exact hall v hv
      · have hle := length_le_of_mem_flatMap ValueTree.lexemes hv
        simp only [ValueTree.lexemes, ValueTree.lexemesAll_eq, List.length_cons,
          List.length_append] at hn
        omega
    | object o es q =>
      refine complete_readObjectOf ih c o q rest fun e he => ⟨fun h => ?_, ?_⟩
      · have hall := hconstant h
        rw [ValueTree.isConstant, EntryTree.allConstant_eq, List.all_eq_true] at hall
        exact e.isConstant_eq ▸ hall e he
      · have hle := length_le_of_mem_flatMap EntryTree.lexemes he
        have hvalue : e.value.lexemes.length ≤ e.lexemes.length := by
          obtain ⟨m, r, v⟩ := e
          simp only [EntryTree.lexemes, List.length_cons]
          omega
        simp only [ValueTree.lexemes, EntryTree.lexemesAll_eq, List.length_cons,
          List.length_append] at hn
        omega
    | _ => rfl

theorem sound_read (constant : Bool) :
    Sound (read constant) ValueTree.lexemes ValueTree.value (Admits constant) :=
  fun c => sound_readWithin constant _ c

theorem complete_read (constant : Bool) :
    Complete (read constant) ValueTree.lexemes ValueTree.value (EndsAt 0) (Admits constant) := by
  intro c v rest hv hrest
  refine complete_readWithin constant _ c v rest ⟨hv, ?_⟩ hrest
  rw [Cursor.ahead_before, List.length_append]
  omega

end Value

theorem sound_readArgument :
    Sound readArgument EntryTree.lexemes EntryTree.argument (Value.Admits false ∘ (·.value)) := by
  intro c a d h
  simp only [readArgument, bind_eq_done, pure_eq_done] at h
  obtain ⟨x, m, hx, rfl, rfl⟩ := h
  obtain ⟨e, he, hc, rfl⟩ := Value.sound_readEntry (Value.sound_read false) _ _ _ hx
  exact ⟨e, he, hc, rfl⟩

theorem Value.admits_false (v : ValueTree) : Value.Admits false v := by
  simp [Value.Admits]

theorem complete_readArgument :
    Complete readArgument EntryTree.lexemes EntryTree.argument (EndsAt 0) Always := by
  intro c e rest _ hrest
  rw [readArgument, bind_done (Value.complete_readEntry (Value.complete_read false) c e rest
    (Value.admits_false _) hrest)]
  rfl

theorem sound_readArguments :
    Sound readArguments (optionalLexemes ArgumentsTree.lexemes) ArgumentsTree.arguments
      Always := by
  intro c a d h
  simp only [readArguments, bind_eq_done, optional_eq_done (t := .parenOpen) (by simp)] at h
  obtain ⟨b, m, ⟨rfl, o, rfl⟩ | ⟨rfl, -, rfl⟩, h⟩ := h
  · obtain ⟨es, q, -, rfl, rfl⟩ := sound_itemsUntil (by simp) sound_readArgument h
    refine ⟨some ⟨o, es, q⟩, trivial, ?_, rfl⟩
    simp [optionalLexemes, ArgumentsTree.lexemes]
  · simp only [Bool.false_eq_true, if_false, pure_eq_done] at h
    obtain ⟨rfl, rfl⟩ := h
    exact ⟨none, trivial, rfl, rfl⟩

theorem complete_readArguments_of_ne :
    Complete readArguments (optionalLexemes ArgumentsTree.lexemes) ArgumentsTree.arguments
      (· ≠ .parenOpen) Always := by
  intro c a rest _ hrest
  cases a with
  | none =>
    exact bind_done (optional_of_ne (by rwa [Cursor.peek_before]))
  | some a =>
    obtain ⟨o, es, q⟩ := a
    have hes : ∀ e ∈ es, Always e := fun _ _ => trivial
    have hitems := complete_itemsUntil .parenClose complete_readArgument EntryTree.lexemes_ne_nil
      (fun e _ r => ⟨by simp [e.headToken_lexemes r], Nat.zero_le _⟩) (Nat.zero_le _) hes c q rest
    simp only [readArguments, optionalLexemes, Option.map_some, Option.getD_some,
      ArgumentsTree.lexemes, List.cons_append, List.append_assoc, List.nil_append]
    rw [bind_done (optional_done _ _)]
    exact hitems

theorem EndsAt.ne {k : Nat} {t u : Token} (h : EndsAt k t) (hu : u.rank < k) : t ≠ u := by
  rintro rfl
  exact absurd h (Nat.not_le_of_lt hu)

theorem complete_readArguments :
    Complete readArguments (optionalLexemes ArgumentsTree.lexemes) ArgumentsTree.arguments
      (EndsAt 4) Always :=
  fun c a rest ha hrest =>
    complete_readArguments_of_ne c a rest ha (hrest.ne (by simp [Token.rank]))

theorem sound_readDirective :
    Sound readDirective DirectiveTree.lexemes DirectiveTree.directive Always := by
  intro c a d h
  simp only [readDirective, bind_eq_done, mark_eq_done, pure_eq_done] at h
  obtain ⟨_, _, ⟨rfl, rfl⟩, name, m, hname, as, _, has, rfl, rfl⟩ := h
  obtain ⟨as, -, rfl, rfl⟩ := sound_readArguments _ _ _ has
  obtain ⟨q, t, ht, rfl⟩ := (take_eq_done rfl).1 hname
  cases t with
  | directiveName n =>
    obtain rfl := Option.some.inj ht
    exact ⟨⟨q, n, as⟩, trivial, rfl, rfl⟩
  | _ => simp at ht

theorem complete_readDirective :
    Complete readDirective DirectiveTree.lexemes DirectiveTree.directive (· ≠ .parenOpen)
      Always := by
  intro c x rest _ hrest
  obtain ⟨q, n, as⟩ := x
  rw [readDirective, bind_done mark_apply]
  simp only [DirectiveTree.lexemes, List.cons_append]
  rw [bind_done (take_done (by rfl) _ _),
    bind_done (complete_readArguments_of_ne c as rest trivial hrest)]
  rfl

theorem sound_readDirectives :
    Sound readDirectives (List.flatMap DirectiveTree.lexemes)
      (fun tracked => List.map (DirectiveTree.directive tracked)) Always := by
  intro c a d h
  obtain ⟨ds, -, hc, ha, -⟩ := sound_itemsWithin sound_readDirective _ h
  exact ⟨ds, trivial, hc, ha⟩

theorem DirectiveTree.lexemes_ne_nil (d : DirectiveTree) : d.lexemes ≠ [] := by
  simp [lexemes]

def EndsDirectives (t : Token) : Prop := t ≠ .parenOpen ∧ ∀ name, t ≠ .directiveName name

theorem EndsAt.endsDirectives {t : Token} (h : EndsAt 5 t) : EndsDirectives t :=
  ⟨h.ne (by simp [Token.rank]), fun _ => h.ne (by simp [Token.rank])⟩

theorem complete_readDirectives_of_ends :
    Complete readDirectives (List.flatMap DirectiveTree.lexemes)
      (fun tracked => List.map (DirectiveTree.directive tracked)) EndsDirectives Always := by
  intro c ds rest _ hrest
  refine complete_itemsWhile _ complete_readDirective DirectiveTree.lexemes_ne_nil
    (fun x _ r => ⟨rfl, ?_⟩) (fun _ _ => trivial) c ?_ hrest.1
  · simp [DirectiveTree.lexemes, headToken_lexeme]
  · cases h : headToken rest with
    | directiveName n => exact absurd h (hrest.2 n)
    | _ => rfl

theorem complete_readDirectives :
    Complete readDirectives (List.flatMap DirectiveTree.lexemes)
      (fun tracked => List.map (DirectiveTree.directive tracked)) (EndsAt 5) Always :=
  fun c ds rest hds hrest => complete_readDirectives_of_ends c ds rest hds hrest.endsDirectives

theorem requireBrace_eq_done {kind : NodeKind} {c d : Cursor} {u : Unit} :
    requireBrace kind c = .done u d ↔ c.peek = .braceOpen ∧ c = d := by
  rw [requireBrace, bind_done peek_apply]
  by_cases h : c.peek = .braceOpen
  · rw [if_pos h, pure_eq_done]
    simp [h]
  · rw [if_neg h]
    simp [h, fail]

theorem complete_requireBrace {kind : NodeKind} (c : Cursor) (s : SetTree) (rest : List Lexeme) :
    requireBrace kind (c.before (s.lexemes ++ rest)) = .done () (c.before (s.lexemes ++ rest)) :=
  requireBrace_eq_done.2 ⟨by rw [Cursor.peek_before, s.headToken_lexemes], rfl⟩

namespace Selection

theorem sound_readFieldName {c : Cursor} {x : Option String × String} {d : Cursor}
    (h : readFieldName c = .done x d) :
    ∃ (a : Option AliasTree) (n : NameTree),
      c = d.before (optionalLexemes AliasTree.lexemes a ++ n.lexeme :: d.ahead) ∧
      x = (a.map (·.name.text), n.text) := by
  simp only [readFieldName, bind_eq_done, takeName_eq_done,
    optional_eq_done (t := .colon) (by simp)] at h
  obtain ⟨first, _, ⟨q, rfl⟩, b, m, ⟨rfl, colon, rfl⟩ | ⟨rfl, -, rfl⟩, h⟩ := h
  · simp only [if_true, bind_eq_done, takeName_eq_done, pure_eq_done] at h
    obtain ⟨name, _, ⟨r, rfl⟩, rfl, rfl⟩ := h
    exact ⟨some ⟨⟨first, q⟩, colon⟩, ⟨name, r⟩, rfl, rfl⟩
  · simp only [Bool.false_eq_true, if_false, pure_eq_done] at h
    obtain ⟨rfl, rfl⟩ := h
    exact ⟨none, ⟨first, q⟩, rfl, rfl⟩

theorem complete_readFieldName (c : Cursor) (a : Option AliasTree) (n : NameTree)
    {rest : List Lexeme} (hrest : EndsAt 3 (headToken rest)) :
    readFieldName (c.before (optionalLexemes AliasTree.lexemes a ++ n.lexeme :: rest)) =
      .done (a.map (·.name.text), n.text) (c.before rest) := by
  cases a with
  | none =>
    rw [readFieldName, NameTree.lexeme]
    exact (bind_done (takeName_done _ _ _)).trans
      (bind_done (optional_of_ne (hrest.peek_ne (by simp [Token.rank]) c)))
  | some a =>
    simp only [readFieldName, optionalLexemes, Option.map_some, Option.getD_some,
      AliasTree.lexemes, NameTree.lexeme, List.cons_append, List.nil_append]
    rw [bind_done (takeName_done _ _ _), bind_done (optional_done _ _), if_pos rfl,
      bind_done (takeName_done _ _ _)]
    rfl

theorem mark_field (c : Cursor) (a : Option AliasTree) (n : NameTree) (rest : List Lexeme) :
    (c.before (optionalLexemes AliasTree.lexemes a ++ n.lexeme :: rest)).mark =
      ((a.map (·.name.place)).getD n.place).mark c.tracked := by
  cases a <;> rfl

/-- A reader of selection sets in braces that yields no selections where there is no brace. -/
structure ReadsSets (set : NodeReader (List Selection)) (n : Nat) : Prop where
  sound {c a d} : c.peek = .braceOpen → set c = .done a d →
    ∃ s : SetTree, c = d.before (s.lexemes ++ d.ahead) ∧ a = s.selections d.tracked
  sound_absent {c a d} : c.peek ≠ .braceOpen → set c = .done a d → a = [] ∧ c = d
  complete (c : Cursor) (s : SetTree) (rest : List Lexeme) : s.lexemes.length < n →
    set (c.before (s.lexemes ++ rest)) = .done (s.selections c.tracked) (c.before rest)
  complete_absent {c} : 0 < n → c.peek ≠ .braceOpen → set c = .done [] c

section
variable {set : NodeReader (List Selection)} {n : Nat} (hset : ReadsSets set n)
include hset

theorem ReadsSets.sound_optional :
    Sound set SetTree.lexemes? SetTree.selections? Always := by
  intro c a d h
  by_cases hpeek : c.peek = .braceOpen
  · obtain ⟨s, hc, ha⟩ := hset.sound hpeek h
    exact ⟨some s, trivial, hc, ha⟩
  · obtain ⟨rfl, rfl⟩ := hset.sound_absent hpeek h
    exact ⟨none, trivial, rfl, rfl⟩

theorem ReadsSets.complete_optional (hn : 0 < n) :
    Complete set SetTree.lexemes? SetTree.selections? (EndsAt 6)
      (fun s => (SetTree.lexemes? s).length < n) := by
  intro c s rest hs hrest
  cases s with
  | none =>
    exact hset.complete_absent hn (hrest.peek_ne (by simp [Token.rank]) c)
  | some s => exact hset.complete c s rest hs

theorem ReadsSets.sound_required {kind : NodeKind} {c m d : Cursor} {u : Unit}
    {a : List Selection} (hbrace : requireBrace kind c = .done u m) (h : set m = .done a d) :
    ∃ s : SetTree, c = d.before (s.lexemes ++ d.ahead) ∧ a = s.selections d.tracked := by
  obtain ⟨hpeek, rfl⟩ := requireBrace_eq_done.1 hbrace
  exact hset.sound hpeek h

theorem sound_readFieldWith {c : Cursor} {f : Field} {d : Cursor}
    (h : readFieldWith set c = .done f d) :
    ∃ a n as ds s, c = d.before ((SelectionTree.field a n as ds s).lexemes ++ d.ahead) ∧
      .field f = (SelectionTree.field a n as ds s).selection d.tracked := by
  simp only [readFieldWith, bind_eq_done, mark_eq_done, pure_eq_done] at h
  obtain ⟨_, _, ⟨rfl, rfl⟩, x, _, hname, as, _, has, ds, _, hds, ss, _, hss, rfl, rfl⟩ := h
  obtain ⟨s, -, rfl, rfl⟩ := hset.sound_optional _ _ _ hss
  obtain ⟨ds, -, rfl, rfl⟩ := sound_readDirectives _ _ _ hds
  obtain ⟨as, -, rfl, rfl⟩ := sound_readArguments _ _ _ has
  obtain ⟨a, n, rfl, rfl⟩ := sound_readFieldName hname
  refine ⟨a, n, as, ds, s, ?_, ?_⟩
  · simp [SelectionTree.lexemes]
  · simp only [SelectionTree.selection, Cursor.before_before, mark_field]
    rfl

theorem complete_readFieldWith (c : Cursor) (a : Option AliasTree) (name : NameTree)
    (as : Option ArgumentsTree) (ds : List DirectiveTree) (s : Option SetTree)
    (rest : List Lexeme) (hs : (SetTree.lexemes? s).length < n)
    (hrest : EndsAt 6 (headToken rest)) :
    (Selection.field <$> readFieldWith set)
        (c.before ((SelectionTree.field a name as ds s).lexemes ++ rest)) =
      .done ((SelectionTree.field a name as ds s).selection c.tracked) (c.before rest) := by
  have hsets : EndsAt 5 (headToken (SetTree.lexemes? s ++ rest)) := by
    rw [SetTree.lexemes?_eq]
    exact rank_selections s (Nat.le_trans (by omega) hrest)
  have hfield : readFieldWith set
      (c.before ((SelectionTree.field a name as ds s).lexemes ++ rest)) =
      .done ⟨a.map (·.name.text), name.text, ArgumentsTree.arguments c.tracked as,
        ds.map (DirectiveTree.directive c.tracked), SetTree.selections? c.tracked s,
        ((a.map (·.name.place)).getD name.place).mark c.tracked⟩ (c.before rest) := by
    simp only [SelectionTree.lexemes, List.append_assoc, List.cons_append]
    rw [readFieldWith, bind_done mark_apply, mark_field,
      bind_done (complete_readFieldName c a name (rank_tail as ds hsets))]
    dsimp only
    rw [bind_done (complete_readArguments c as _ trivial (rank_directives ds
        (Nat.le_trans (by omega) hsets))),
      bind_done (complete_readDirectives c ds _ trivial hsets),
      bind_done (hset.complete_optional (Nat.zero_lt_of_lt hs) c s rest hs hrest)]
    rfl
  rw [map_done hfield, SelectionTree.selection]

omit hset in
theorem sound_readSpreadFrom {loc : Option Location} {c : Cursor} {x : FragmentSpread} {d : Cursor}
    (h : readSpreadFrom loc c = .done x d) :
    ∃ (name : NameTree) (ds : List DirectiveTree), name.text ≠ "on" ∧
      c = d.before (name.lexeme :: (ds.flatMap DirectiveTree.lexemes ++ d.ahead)) ∧
      x = ⟨name.name d.tracked, ds.map (DirectiveTree.directive d.tracked), loc⟩ := by
  rw [readSpreadFrom, bind_done peek_apply] at h
  by_cases hon : c.peek = .name "on"
  · rw [if_pos hon] at h
    exact absurd h fail_ne_done
  · rw [if_neg hon, bind_done peek_apply] at h
    cases hpeek : c.peek with
    | name text =>
      simp only [hpeek, bind_eq_done, pure_eq_done] at h
      obtain ⟨name, _, hname, ds, _, hds, rfl, rfl⟩ := h
      obtain ⟨ds, -, rfl, rfl⟩ := sound_readDirectives _ _ _ hds
      obtain ⟨name, rfl, rfl⟩ := sound_readName _ _ _ hname
      refine ⟨name, ds, fun htext => hon ?_, rfl, rfl⟩
      rw [Cursor.peek_before, NameTree.lexeme, headToken_lexeme, htext]
    | _ =>
      simp only [hpeek] at h
      exact absurd h fail_ne_done

omit hset in
theorem complete_readSpreadFrom (loc : Option Location) (c : Cursor) (name : NameTree)
    (hname : name.text ≠ "on") (ds : List DirectiveTree) (rest : List Lexeme)
    (hrest : EndsAt 5 (headToken rest)) :
    readSpreadFrom loc (c.before (name.lexeme :: (ds.flatMap DirectiveTree.lexemes ++ rest))) =
      .done ⟨name.name c.tracked, ds.map (DirectiveTree.directive c.tracked), loc⟩
        (c.before rest) := by
  have hpeek : (c.before (name.lexeme :: (ds.flatMap DirectiveTree.lexemes ++ rest))).peek =
      .name name.text := Cursor.peek_before _ _
  have hon : Token.name name.text ≠ .name "on" := fun h => hname (Token.name.inj h)
  rw [readSpreadFrom, bind_done peek_apply, hpeek, if_neg hon, bind_done peek_apply, hpeek]
  exact (bind_done (complete_readName c name _)).trans
    (bind_done (complete_readDirectives c ds rest trivial hrest))

def readInlineTail (set : NodeReader (List Selection)) (loc : Option Location)
    (condition : Option Name) : NodeReader InlineFragment := do
  let directives ← readDirectives
  requireBrace .inlineFragment
  let selections ← set
  pure ⟨condition, directives, selections, loc⟩

omit hset in
theorem readInlineFrom_eq (loc : Option Location) :
    readInlineFrom set loc = (do
      if ← optional (.name "on") then (some <$> readName) >>= readInlineTail set loc
      else readInlineTail set loc none) := by
  simp only [readInlineFrom, pure_bind]
  rfl

theorem sound_readInlineTail {loc : Option Location} {condition : Option Name} {c : Cursor}
    {x : InlineFragment} {d : Cursor} (h : readInlineTail set loc condition c = .done x d) :
    ∃ (ds : List DirectiveTree) (s : SetTree),
      c = d.before (ds.flatMap DirectiveTree.lexemes ++ (s.lexemes ++ d.ahead)) ∧
      x = ⟨condition, ds.map (DirectiveTree.directive d.tracked), s.selections d.tracked, loc⟩ := by
  simp only [readInlineTail, bind_eq_done, pure_eq_done] at h
  obtain ⟨ds, _, hds, _, _, hbrace, ss, _, hss, rfl, rfl⟩ := h
  obtain ⟨s, rfl, rfl⟩ := hset.sound_required hbrace hss
  obtain ⟨ds, -, rfl, rfl⟩ := sound_readDirectives _ _ _ hds
  exact ⟨ds, s, rfl, rfl⟩

theorem complete_readInlineTail (loc : Option Location) (condition : Option Name) (c : Cursor)
    (ds : List DirectiveTree) (s : SetTree) (rest : List Lexeme) (hs : s.lexemes.length < n) :
    readInlineTail set loc condition
        (c.before (ds.flatMap DirectiveTree.lexemes ++ (s.lexemes ++ rest))) =
      .done ⟨condition, ds.map (DirectiveTree.directive c.tracked), s.selections c.tracked, loc⟩
        (c.before rest) := by
  rw [readInlineTail, bind_done (complete_readDirectives c ds _ trivial (s.rank rest)),
    bind_done (complete_requireBrace c s rest), bind_done (hset.complete c s rest hs)]
  rfl

theorem sound_readInlineFrom {loc : Option Location} {c : Cursor} {x : InlineFragment}
    {d : Cursor} (h : readInlineFrom set loc c = .done x d) :
    ∃ (t : Option ConditionTree) (ds : List DirectiveTree) (s : SetTree),
      c = d.before (optionalLexemes ConditionTree.lexemes t
        ++ (ds.flatMap DirectiveTree.lexemes ++ (s.lexemes ++ d.ahead))) ∧
      x = ⟨t.map (·.type.name d.tracked), ds.map (DirectiveTree.directive d.tracked),
        s.selections d.tracked, loc⟩ := by
  simp only [readInlineFrom_eq, bind_eq_done, optional_eq_done (t := .name "on") (by simp)] at h
  obtain ⟨b, m, ⟨rfl, q, rfl⟩ | ⟨rfl, -, rfl⟩, h⟩ := h
  · simp only [if_true, bind_eq_done, map_eq_done] at h
    obtain ⟨_, _, ⟨name, hname, rfl⟩, htail⟩ := h
    obtain ⟨ds, s, rfl, rfl⟩ := sound_readInlineTail hset htail
    obtain ⟨name, rfl, rfl⟩ := sound_readName _ _ _ hname
    exact ⟨some ⟨q, name⟩, ds, s, rfl, rfl⟩
  · simp only [Bool.false_eq_true, if_false] at h
    obtain ⟨ds, s, rfl, rfl⟩ := sound_readInlineTail hset h
    exact ⟨none, ds, s, rfl, rfl⟩

theorem complete_readInlineFrom (loc : Option Location) (c : Cursor) (t : Option ConditionTree)
    (ds : List DirectiveTree) (s : SetTree) (rest : List Lexeme) (hs : s.lexemes.length < n) :
    readInlineFrom set loc (c.before (optionalLexemes ConditionTree.lexemes t
        ++ (ds.flatMap DirectiveTree.lexemes ++ (s.lexemes ++ rest)))) =
      .done ⟨t.map (·.type.name c.tracked), ds.map (DirectiveTree.directive c.tracked),
        s.selections c.tracked, loc⟩ (c.before rest) := by
  rw [readInlineFrom_eq]
  cases t with
  | none =>
    have hpeek : (c.before (ds.flatMap DirectiveTree.lexemes ++ (s.lexemes ++ rest))).peek ≠
        .name "on" := by
      rw [Cursor.peek_before]
      intro h
      have hrank := rank_inline ds s rest
      rw [h] at hrank
      simp [Token.rank] at hrank
    exact (bind_done (optional_of_ne hpeek)).trans
      (complete_readInlineTail hset loc none c ds s rest hs)
  | some t =>
    simp only [optionalLexemes, Option.map_some, Option.getD_some, ConditionTree.lexemes,
      List.cons_append, List.nil_append]
    rw [bind_done (optional_done _ _), if_pos rfl,
      bind_done (map_done (complete_readName c t.type _))]
    exact complete_readInlineTail hset loc _ c ds s rest hs

theorem sound_readWith :
    Sound (readWith set) SelectionTree.lexemes SelectionTree.selection Always := by
  intro c a d h
  rw [readWith, bind_done peek_apply] at h
  cases hpeek : c.peek with
  | name text =>
    simp only [hpeek, map_eq_done] at h
    obtain ⟨f, hf, rfl⟩ := h
    obtain ⟨a, name, as, ds, s, hc, hfield⟩ := sound_readFieldWith hset hf
    exact ⟨_, trivial, hc, hfield⟩
  | ellipsis =>
    simp only [hpeek, bind_done mark_apply, bind_done skip_apply, bind_done peek_apply] at h
    obtain ⟨q, hq⟩ := Cursor.exists_place (c := c) (by rw [hpeek]; simp)
    rw [hpeek] at hq
    have hloc : c.mark = q.mark c.next.tracked := by
      rw [hq]
      rfl
    have hinline : ∀ {x : InlineFragment} {d : Cursor},
        readInlineFrom set c.mark c.next = .done x d →
        ∃ t : SelectionTree, Always t ∧ c = d.before (t.lexemes ++ d.ahead) ∧
          .inline x = t.selection d.tracked := by
      intro x d hx
      obtain ⟨t, ds, s, hnext, rfl⟩ := sound_readInlineFrom hset hx
      refine ⟨.inline q t ds s, trivial, ?_, ?_⟩
      · rw [hq, hnext]
        simp [SelectionTree.lexemes]
      · rw [SelectionTree.selection, hloc, hnext]
        rfl
    cases hnext : c.next.peek with
    | directiveName name =>
      simp only [hnext, map_eq_done] at h
      obtain ⟨x, hx, rfl⟩ := h
      exact hinline hx
    | braceOpen =>
      simp only [hnext, map_eq_done] at h
      obtain ⟨x, hx, rfl⟩ := h
      exact hinline hx
    | name text =>
      simp only [hnext] at h
      by_cases hon : text = "on"
      · rw [if_pos hon, map_eq_done] at h
        obtain ⟨x, hx, rfl⟩ := h
        exact hinline hx
      · rw [if_neg hon, map_eq_done] at h
        obtain ⟨x, hx, rfl⟩ := h
        obtain ⟨name, ds, hname, hc, rfl⟩ := sound_readSpreadFrom hx
        refine ⟨.spread q name hname ds, trivial, ?_, ?_⟩
        · rw [hq, hc]
          simp [SelectionTree.lexemes]
        · rw [SelectionTree.selection, hloc, hc]
          rfl
    | _ =>
      simp only [hnext] at h
      exact absurd h fail_ne_done
  | _ =>
    simp only [hpeek] at h
    exact absurd h fail_ne_done

theorem complete_readWith :
    Complete (readWith set) SelectionTree.lexemes SelectionTree.selection (EndsAt 6)
      (fun x => x.lexemes.length < n) := by
  intro c x rest hn hrest
  rw [readWith, bind_done peek_apply, Cursor.peek_before, x.headToken_lexemes]
  cases x with
  | field a name as ds s =>
    have hs : (SetTree.lexemes? s).length < n := by
      simp only [SelectionTree.lexemes, List.length_append, List.length_cons] at hn
      omega
    exact complete_readFieldWith hset c a name as ds s rest hs hrest
  | spread e name hname ds =>
    simp only [SelectionTree.head, SelectionTree.lexemes, List.cons_append]
    rw [bind_done mark_apply, bind_done skip_apply, Cursor.next_before, bind_done peek_apply,
      Cursor.peek_before, NameTree.lexeme, headToken_lexeme, Cursor.mark_before]
    simp only [if_neg hname]
    exact map_done (complete_readSpreadFrom _ c name hname ds rest
      (Nat.le_trans (by omega) hrest))
  | inline e t ds s =>
    have hs : s.lexemes.length < n := by
      simp only [SelectionTree.lexemes, List.length_append, List.length_cons] at hn
      omega
    simp only [SelectionTree.head, SelectionTree.lexemes, List.cons_append, List.append_assoc]
    rw [bind_done mark_apply, bind_done skip_apply, Cursor.next_before, bind_done peek_apply,
      Cursor.peek_before, Cursor.mark_before]
    have hinline := complete_readInlineFrom hset (e.mark c.tracked) c t ds s rest hs
    rcases headToken_inline t ds s rest with h | ⟨name, h⟩ | h
    · simp only [h, if_true]
      exact map_done hinline
    · simp only [h]
      exact map_done hinline
    · simp only [h]
      exact map_done hinline

end

theorem readsSets_zero : ReadsSets (readSetWithin 0) 0 where
  sound _ h := absurd h unfinished_ne_done
  sound_absent _ h := absurd h unfinished_ne_done
  complete _ _ _ h := absurd h (Nat.not_lt_zero _)
  complete_absent h := absurd h (Nat.lt_irrefl 0)

theorem readsSets_succ {n : Nat} (hset : ReadsSets (readSetWithin n) n) :
    ReadsSets (readSetWithin (n + 1)) (n + 1) where
  sound {c a d} hpeek h := by
    simp only [readSetWithin, bind_eq_done, optional_eq_done (t := .braceOpen) (by simp)] at h
    obtain ⟨b, m, ⟨rfl, o, rfl⟩ | ⟨rfl, hne, rfl⟩, h⟩ := h
    · simp only [if_true] at h
      obtain ⟨x, xs, q, -, rfl, rfl⟩ := sound_itemsUntil₁ (by simp) (sound_readWith hset) h
      refine ⟨⟨o, x, xs, q⟩, ?_, ?_⟩
      · simp [SetTree.lexemes, SelectionTree.lexemesAll_eq]
      · simp [SetTree.selections, SelectionTree.selectionAll_eq]
    · exact absurd hpeek hne
  sound_absent {c a d} hpeek h := by
    rw [readSetWithin, bind_done (optional_of_ne hpeek)] at h
    simp only [Bool.false_eq_true, if_false, pure_eq_done] at h
    exact ⟨h.1.symm, h.2⟩
  complete c s rest hs := by
    obtain ⟨o, x, xs, q⟩ := s
    simp only [SetTree.lexemes, SelectionTree.lexemesAll_eq, ← List.flatMap_cons,
      List.length_cons, List.length_append] at hs
    have hitems : ∀ y ∈ x :: xs, y.lexemes.length < n := by
      intro y hy
      have hle := length_le_of_mem_flatMap SelectionTree.lexemes hy
      omega
    have hread := complete_itemsUntil₁ .braceClose (complete_readWith hset)
      SelectionTree.lexemes_ne_nil
      (fun y _ r => ⟨(y.rank r).2, (y.rank r).1⟩) (Nat.le_refl 6) hitems c q rest
    simp only [readSetWithin, SetTree.lexemes, SelectionTree.lexemesAll_eq,
      ← List.flatMap_cons, List.cons_append, List.append_assoc, List.nil_append]
    rw [bind_done (optional_done _ _), if_pos rfl, hread, SetTree.selections,
      SelectionTree.selectionAll_eq, List.map_cons]
  complete_absent _ hpeek := bind_done (optional_of_ne hpeek)

theorem readsSets_readSetWithin (n : Nat) : ReadsSets (readSetWithin n) n := by
  induction n with
  | zero => exact readsSets_zero
  | succ n ih => exact readsSets_succ ih

theorem sound_readSet {kind : NodeKind} {c m d : Cursor} {u : Unit} {a : List Selection}
    (hbrace : requireBrace kind c = .done u m) (h : readSet m = .done a d) :
    ∃ s : SetTree, c = d.before (s.lexemes ++ d.ahead) ∧ a = s.selections d.tracked :=
  (readsSets_readSetWithin _).sound_required hbrace h

theorem complete_readSet (c : Cursor) (s : SetTree) (rest : List Lexeme) :
    readSet (c.before (s.lexemes ++ rest)) = .done (s.selections c.tracked) (c.before rest) := by
  refine (readsSets_readSetWithin _).complete c s rest ?_
  rw [Cursor.ahead_before, List.length_append]
  omega

end Selection

end GraphQLCheck
