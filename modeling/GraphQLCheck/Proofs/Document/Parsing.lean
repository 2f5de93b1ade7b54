import GraphQLCheck.Proofs.Document.Recognition
import GraphQLCheck.Proofs.Token.Spelling

/-!
Reading types, definitions and documents against the grammar. A document is read exactly if its
tokens have a derivation, and it is then what the derivation stands for.
-/
namespace GraphQLCheck
open Reader

namespace TypeExpr

def readRequired (type : TypeExpr) : NodeReader TypeExpr := do
  if ← optional .exclam then pure (nonNull type) else pure type

theorem readWithin_succ (n : Nat) :
    readWithin (n + 1) = (do
      let loc ← mark
      match ← peek with
      | .bracketOpen => do
        skip
        let item ← readWithin n
        expect .bracketClose .listType
        readRequired (list item)
      | .name text => do
        skip
        readRequired (named ⟨text, loc⟩)
      | _ => fail .type) := by
  funext c
  rw [readWithin, bind_done mark_apply, bind_done mark_apply, bind_done peek_apply,
    bind_done peek_apply]
  cases c.peek <;> rfl

theorem readRequired_eq_done {t a : TypeExpr} {c d : Cursor}
    (h : readRequired t c = .done a d) :
    ∃ x : Option Place, a = TypeTree.required x t ∧
      c = d.before (optionalLexemes (fun p : Place => [p.lexeme .exclam]) x ++ d.ahead) := by
  simp only [readRequired, bind_eq_done, optional_eq_done (t := .exclam) (by simp)] at h
  obtain ⟨b, m, ⟨rfl, q, rfl⟩ | ⟨rfl, -, rfl⟩, h⟩ := h
  · simp only [if_true, pure_eq_done] at h
    obtain ⟨rfl, rfl⟩ := h
    exact ⟨some q, rfl, rfl⟩
  · simp only [Bool.false_eq_true, if_false, pure_eq_done] at h
    obtain ⟨rfl, rfl⟩ := h
    exact ⟨none, rfl, rfl⟩

theorem complete_readRequired (t : TypeExpr) (c : Cursor) (x : Option Place) (rest : List Lexeme)
    (hrest : EndsAt 1 (headToken rest)) :
    readRequired t
        (c.before (optionalLexemes (fun p : Place => [p.lexeme .exclam]) x ++ rest)) =
      .done (TypeTree.required x t) (c.before rest) := by
  cases x with
  | none => exact bind_done (optional_of_ne (hrest.peek_ne (by simp [Token.rank]) c))
  | some q => exact bind_done (optional_done q rest)

theorem sound_readWithin (n : Nat) :
    Sound (readWithin n) TypeTree.lexemes TypeTree.type Always := by
  induction n with
  | zero => exact fun c a d h => absurd h unfinished_ne_done
  | succ n ih =>
    intro c a d h
    rw [readWithin_succ, bind_done mark_apply, bind_done peek_apply] at h
    cases hpeek : c.peek with
    | bracketOpen =>
      simp only [hpeek, bind_eq_done, skip_eq_done,
        expect_eq_done (t := .bracketClose) (by simp)] at h
      obtain ⟨_, m, hm, item, k, hitem, _, l, ⟨q, rfl⟩, h⟩ := h
      obtain ⟨o, ho⟩ := Cursor.exists_place (c := c) (by rw [hpeek]; simp)
      rw [hpeek, hm] at ho
      obtain ⟨t, -, rfl, rfl⟩ := ih _ _ _ hitem
      obtain ⟨x, rfl, rfl⟩ := readRequired_eq_done h
      refine ⟨.list o t q x, trivial, ?_, rfl⟩
      simpa [TypeTree.lexemes] using ho
    | name text =>
      simp only [hpeek, bind_done skip_apply] at h
      obtain ⟨p, hp⟩ := Cursor.exists_place (c := c) (by rw [hpeek]; simp)
      obtain ⟨x, rfl, hnext⟩ := readRequired_eq_done h
      rw [hpeek, hnext] at hp
      refine ⟨.named ⟨text, p⟩ x, trivial, hp, ?_⟩
      rw [hp]
      rfl
    | _ =>
      simp only [hpeek] at h
      exact absurd h fail_ne_done

theorem complete_readWithin (n : Nat) :
    Complete (readWithin n) TypeTree.lexemes TypeTree.type (EndsAt 1)
      (fun t => t.lexemes.length < n) := by
  induction n with
  | zero => exact fun c t rest h _ => absurd h (Nat.not_lt_zero _)
  | succ n ih =>
    intro c t rest hn hrest
    rw [readWithin_succ, bind_done mark_apply, bind_done peek_apply, Cursor.peek_before]
    cases t with
    | named m x =>
      exact (bind_done skip_apply).trans (complete_readRequired _ c x rest hrest)
    | list o t q x =>
      have ht : t.lexemes.length < n := by
        simp only [TypeTree.lexemes, List.length_cons, List.length_append] at hn
        omega
      simp only [TypeTree.lexemes, List.cons_append, List.append_assoc, headToken_lexeme]
      rw [bind_done skip_apply, Cursor.next_before, bind_done (ih c t _ ht (by
        simp [EndsAt, headToken_lexeme, Token.rank])), bind_done (expect_done _ _)]
      exact complete_readRequired _ c x rest hrest

theorem sound_read : Sound read TypeTree.lexemes TypeTree.type Always :=
  fun c => sound_readWithin _ c

theorem complete_read : Complete read TypeTree.lexemes TypeTree.type (EndsAt 1) Always := by
  intro c t rest _ hrest
  refine complete_readWithin _ c t rest ?_ hrest
  rw [Cursor.ahead_before, List.length_append]
  omega

end TypeExpr

def readVariableTail (v : Variable) (type : TypeExpr) (loc : Option Location)
    (default : Option Value) : NodeReader VariableDefinition := do
  let directives ← readDirectives
  pure ⟨v, type, default, directives, loc⟩

theorem readVariableDefinition_eq :
    readVariableDefinition = (do
      let loc ← mark
      let v ← readVariable
      expect .colon .variableDefinition
      let type ← TypeExpr.read
      if ← optional .equal then (some <$> Value.read true) >>= readVariableTail v type loc
      else readVariableTail v type loc none) := by
  simp only [readVariableDefinition, pure_bind]
  rfl

theorem readVariable_eq_done {c d : Cursor} {v : Variable} (h : readVariable c = .done v d) :
    ∃ p : Place, c = d.before (p.lexeme (.variableName v.name) :: d.ahead) ∧
      v.loc = p.mark d.tracked := by
  simp only [readVariable, bind_eq_done, mark_eq_done, pure_eq_done] at h
  obtain ⟨_, _, ⟨rfl, rfl⟩, name, m, hname, rfl, rfl⟩ := h
  obtain ⟨p, t, ht, rfl⟩ := (take_eq_done rfl).1 hname
  cases t with
  | variableName n =>
    obtain rfl := Option.some.inj ht
    exact ⟨p, rfl, rfl⟩
  | _ => simp at ht

theorem sound_readVariableTail {v : Variable} {type : TypeExpr} {loc : Option Location}
    {default : Option Value} {c d : Cursor} {x : VariableDefinition}
    (h : readVariableTail v type loc default c = .done x d) :
    ∃ ds : List DirectiveTree, c = d.before (ds.flatMap DirectiveTree.lexemes ++ d.ahead) ∧
      x = ⟨v, type, default, ds.map (DirectiveTree.directive d.tracked), loc⟩ := by
  simp only [readVariableTail, bind_eq_done, pure_eq_done] at h
  obtain ⟨ds, _, hds, rfl, rfl⟩ := h
  obtain ⟨ds, -, rfl, rfl⟩ := sound_readDirectives _ _ _ hds
  exact ⟨ds, rfl, rfl⟩

theorem complete_readVariableTail (v : Variable) (type : TypeExpr) (loc : Option Location)
    (default : Option Value) (c : Cursor) (ds : List DirectiveTree) (rest : List Lexeme)
    (hrest : EndsAt 5 (headToken rest)) :
    readVariableTail v type loc default
        (c.before (ds.flatMap DirectiveTree.lexemes ++ rest)) =
      .done ⟨v, type, default, ds.map (DirectiveTree.directive c.tracked), loc⟩
        (c.before rest) := by
  rw [readVariableTail, bind_done (complete_readDirectives c ds rest trivial hrest)]
  rfl

theorem sound_readVariableDefinition :
    Sound readVariableDefinition VariableTree.lexemes VariableTree.definition Always := by
  intro c a d h
  rw [readVariableDefinition_eq, bind_done mark_apply] at h
  simp only [bind_eq_done, expect_eq_done (t := .colon) (by simp),
    optional_eq_done (t := .equal) (by simp)] at h
  obtain ⟨⟨name, loc⟩, m, hv, _, k, ⟨q, rfl⟩, type, l, htype, b, j, hoptional, h⟩ := h
  obtain ⟨p, rfl, rfl⟩ := readVariable_eq_done hv
  obtain ⟨t, -, rfl, rfl⟩ := TypeExpr.sound_read _ _ _ htype
  obtain ⟨rfl, e, rfl⟩ | ⟨rfl, -, rfl⟩ := hoptional
  · simp only [if_true, bind_eq_done, map_eq_done] at h
    obtain ⟨_, _, ⟨v, hvalue, rfl⟩, htail⟩ := h
    obtain ⟨ds, rfl, rfl⟩ := sound_readVariableTail htail
    obtain ⟨v, hconstant, rfl, rfl⟩ := Value.sound_read true _ _ _ hvalue
    refine ⟨⟨p, name, q, t, some ⟨e, v, hconstant rfl⟩, ds⟩, trivial, ?_, rfl⟩
    simp [VariableTree.lexemes, optionalLexemes, DefaultTree.lexemes]
  · simp only [Bool.false_eq_true, if_false] at h
    obtain ⟨ds, rfl, rfl⟩ := sound_readVariableTail h
    refine ⟨⟨p, name, q, t, none, ds⟩, trivial, ?_, rfl⟩
    simp [VariableTree.lexemes, optionalLexemes]

theorem complete_readVariable (c : Cursor) (p : Place) (name : String) (rest : List Lexeme) :
    readVariable (c.before (p.lexeme (.variableName name) :: rest)) =
      .done ⟨name, p.mark c.tracked⟩ (c.before rest) := by
  rw [readVariable, bind_done mark_apply, bind_done (take_done (by rfl) _ _)]
  rfl

theorem complete_readVariableDefinition :
    Complete readVariableDefinition VariableTree.lexemes VariableTree.definition (EndsAt 5)
      Always := by
  intro c x rest _ hrest
  obtain ⟨p, name, q, t, e, ds⟩ := x
  have hdirectives : EndsAt 4 (headToken (ds.flatMap DirectiveTree.lexemes ++ rest)) :=
    rank_directives ds (Nat.le_trans (by omega) hrest)
  have hdefault := le_rank_optional DefaultTree.beginsWith (Nat.le_refl 1) e
    (Nat.le_trans (by omega) hdirectives)
  rw [readVariableDefinition_eq, bind_done mark_apply]
  simp only [VariableTree.lexemes, List.cons_append, List.append_assoc]
  rw [bind_done (complete_readVariable c p name _), bind_done (expect_done _ _),
    bind_done (TypeExpr.complete_read c t _ trivial hdefault)]
  cases e with
  | none =>
    have hequal := hdirectives.peek_ne (t := .equal) (by simp [Token.rank]) c
    exact (bind_done (optional_of_ne hequal)).trans
      (complete_readVariableTail _ _ _ none c ds rest hrest)
  | some e =>
    obtain ⟨e, v, hconstant⟩ := e
    simp only [optionalLexemes, Option.map_some, Option.getD_some, DefaultTree.lexemes,
      List.cons_append]
    rw [bind_done (optional_done _ _), if_pos rfl,
      bind_done (map_done (Value.complete_read true c v _ (fun _ => hconstant)
        (Nat.zero_le _)))]
    exact complete_readVariableTail _ _ _ _ c ds rest hrest

theorem sound_readVariableDefinitions :
    Sound readVariableDefinitions (optionalLexemes VariablesTree.lexemes)
      VariablesTree.definitions Always := by
  intro c a d h
  simp only [readVariableDefinitions, bind_eq_done,
    optional_eq_done (t := .parenOpen) (by simp)] at h
  obtain ⟨b, m, ⟨rfl, o, rfl⟩ | ⟨rfl, -, rfl⟩, h⟩ := h
  · obtain ⟨x, xs, q, -, rfl, rfl⟩ := sound_itemsUntil₁ (by simp) sound_readVariableDefinition h
    refine ⟨some ⟨o, x, xs, q⟩, trivial, ?_, rfl⟩
    simp [optionalLexemes, VariablesTree.lexemes]
  · simp only [Bool.false_eq_true, if_false, pure_eq_done] at h
    obtain ⟨rfl, rfl⟩ := h
    exact ⟨none, trivial, rfl, rfl⟩

theorem VariableTree.lexemes_ne_nil (v : VariableTree) : v.lexemes ≠ [] := by
  simp [lexemes]

theorem complete_readVariableDefinitions :
    Complete readVariableDefinitions (optionalLexemes VariablesTree.lexemes)
      VariablesTree.definitions (EndsAt 4) Always := by
  intro c v rest _ hrest
  cases v with
  | none => exact bind_done (optional_of_ne (hrest.peek_ne (by simp [Token.rank]) c))
  | some v =>
    obtain ⟨o, x, xs, q⟩ := v
    have hxs : ∀ y ∈ x :: xs, Always y := fun _ _ => trivial
    have hitems := complete_itemsUntil₁ .parenClose complete_readVariableDefinition
      VariableTree.lexemes_ne_nil
      (fun y _ r => by simp [VariableTree.lexemes, EndsAt, headToken_lexeme, Token.rank])
      (by simp [EndsAt, Token.rank]) hxs c q rest
    simp only [readVariableDefinitions, optionalLexemes, Option.map_some, Option.getD_some,
      VariablesTree.lexemes, ← List.flatMap_cons, List.cons_append, List.append_assoc,
      List.nil_append]
    rw [bind_done (optional_done _ _)]
    exact hitems

theorem sound_readFragment {c d : Cursor} {x : Fragment} (h : readFragment c = .done x d) :
    ∃ p n t ds s, c = d.before ((DefinitionTree.fragment p n t ds s).lexemes ++ d.ahead) ∧
      .fragment x = (DefinitionTree.fragment p n t ds s).definition d.tracked := by
  simp only [readFragment, bind_eq_done, mark_eq_done, pure_eq_done,
    expect_eq_done (t := .name "fragment") (by simp),
    expect_eq_done (t := .name "on") (by simp)] at h
  obtain ⟨_, _, ⟨rfl, rfl⟩, _, m, ⟨p, rfl⟩, n, k, hn, _, l, ⟨q, rfl⟩, t, j, ht, ds, i, hds, _, _,
    hbrace, ss, _, hss, rfl, rfl⟩ := h
  obtain ⟨s, rfl, rfl⟩ := Selection.sound_readSet hbrace hss
  obtain ⟨ds, -, rfl, rfl⟩ := sound_readDirectives _ _ _ hds
  obtain ⟨t, rfl, rfl⟩ := sound_readName _ _ _ ht
  obtain ⟨n, rfl, rfl⟩ := sound_readName _ _ _ hn
  refine ⟨p, n, ⟨q, t⟩, ds, s, ?_, rfl⟩
  simp [DefinitionTree.lexemes, ConditionTree.lexemes]

theorem complete_readFragment (c : Cursor) (p : Place) (n : NameTree) (t : ConditionTree)
    (ds : List DirectiveTree) (s : SetTree) (rest : List Lexeme) :
    (Definition.fragment <$> readFragment)
        (c.before ((DefinitionTree.fragment p n t ds s).lexemes ++ rest)) =
      .done ((DefinitionTree.fragment p n t ds s).definition c.tracked) (c.before rest) := by
  have hread : readFragment (c.before ((DefinitionTree.fragment p n t ds s).lexemes ++ rest)) =
      .done ⟨n.name c.tracked, t.type.name c.tracked, ds.map (DirectiveTree.directive c.tracked),
        s.selections c.tracked, p.mark c.tracked⟩ (c.before rest) := by
    simp only [DefinitionTree.lexemes, ConditionTree.lexemes, List.cons_append,
      List.append_assoc, List.nil_append]
    rw [readFragment, bind_done mark_apply, bind_done (expect_done _ _),
      bind_done (complete_readName c n _), bind_done (expect_done _ _),
      bind_done (complete_readName c t.type _),
      bind_done (complete_readDirectives c ds _ trivial (s.rank rest)),
      bind_done (complete_requireBrace c s rest),
      bind_done (Selection.complete_readSet c s rest)]
    rfl
  exact map_done hread

theorem OperationKind.ofToken?_eq_some {t : Token} {k : OperationKind} :
    ofToken? t = some k ↔ t = .name k.name := by
  cases t with
  | name n =>
    rw [ofToken?, Token.name.injEq, ofName?]
    cases k <;> grind [OperationKind.name]
  | _ => simp [ofToken?]

def readOperationName : NodeReader (Option Name) := do
  match ← peek with
  | .name _ => some <$> readName
  | _ => pure none

def readOperationTail (kind : OperationKind) (loc : Option Location) (name : Option Name) :
    NodeReader Operation := do
  let definitions ← readVariableDefinitions
  let directives ← readDirectives
  requireBrace .operationDefinition
  let selections ← Selection.readSet
  pure ⟨kind, name, definitions, directives, selections, loc⟩

theorem readOperation_eq :
    readOperation = (do
      let loc ← mark
      if (← peek) = .braceOpen then
        let selections ← Selection.readSet
        pure ⟨.query, none, [], [], selections, loc⟩
      else
        let kind ← take OperationKind.ofToken? fun _ => .operationDefinition
        let name ← readOperationName
        readOperationTail kind loc name) := by
  have hname : ∀ (kind : OperationKind) (loc : Option Location),
      (readOperationName >>= readOperationTail kind loc) = (do
        match ← peek with
        | .name _ => (some <$> readName) >>= readOperationTail kind loc
        | _ => readOperationTail kind loc none) := by
    intro kind loc
    rw [readOperationName, bind_assoc]
    funext c
    rw [bind_done peek_apply, bind_done peek_apply]
    cases c.peek <;> rfl
  simp only [hname, readOperation, pure_bind]
  rfl

theorem sound_readOperationName :
    Sound readOperationName (optionalLexemes fun n : NameTree => [n.lexeme])
      (fun tracked => Option.map (NameTree.name tracked)) Always := by
  intro c a d h
  rw [readOperationName, bind_done peek_apply] at h
  cases hpeek : c.peek with
  | name text =>
    simp only [hpeek, map_eq_done] at h
    obtain ⟨n, hn, rfl⟩ := h
    obtain ⟨n, rfl, rfl⟩ := sound_readName _ _ _ hn
    exact ⟨some n, trivial, rfl, rfl⟩
  | _ =>
    simp only [hpeek, pure_eq_done] at h
    obtain ⟨rfl, rfl⟩ := h
    exact ⟨none, trivial, rfl, rfl⟩

theorem complete_readOperationName :
    Complete readOperationName (optionalLexemes fun n : NameTree => [n.lexeme])
      (fun tracked => Option.map (NameTree.name tracked)) (·.rank ≤ 5) Always := by
  intro c n rest _ hrest
  rw [readOperationName, bind_done peek_apply, Cursor.peek_before]
  cases n with
  | none =>
    show (match headToken rest with
      | .name _ => some <$> readName
      | _ => pure none : NodeReader (Option Name)) (c.before rest) = _
    cases h : headToken rest with
    | name text =>
      rw [h] at hrest
      exact absurd hrest (by simp [Token.rank])
    | _ => rfl
  | some n => exact map_done (complete_readName c n rest)

theorem sound_readOperationTail {kind : OperationKind} {loc : Option Location}
    {name : Option Name} {c d : Cursor} {x : Operation}
    (h : readOperationTail kind loc name c = .done x d) :
    ∃ (vs : Option VariablesTree) (ds : List DirectiveTree) (s : SetTree),
      c = d.before (optionalLexemes VariablesTree.lexemes vs
        ++ (ds.flatMap DirectiveTree.lexemes ++ (s.lexemes ++ d.ahead))) ∧
      x = ⟨kind, name, VariablesTree.definitions d.tracked vs,
        ds.map (DirectiveTree.directive d.tracked), s.selections d.tracked, loc⟩ := by
  simp only [readOperationTail, bind_eq_done, pure_eq_done] at h
  obtain ⟨vs, _, hvs, ds, _, hds, _, _, hbrace, ss, _, hss, rfl, rfl⟩ := h
  obtain ⟨s, rfl, rfl⟩ := Selection.sound_readSet hbrace hss
  obtain ⟨ds, -, rfl, rfl⟩ := sound_readDirectives _ _ _ hds
  obtain ⟨vs, -, rfl, rfl⟩ := sound_readVariableDefinitions _ _ _ hvs
  exact ⟨vs, ds, s, rfl, rfl⟩

theorem complete_readOperationTail (kind : OperationKind) (loc : Option Location)
    (name : Option Name) (c : Cursor) (vs : Option VariablesTree) (ds : List DirectiveTree)
    (s : SetTree) (rest : List Lexeme) :
    readOperationTail kind loc name (c.before (optionalLexemes VariablesTree.lexemes vs
        ++ (ds.flatMap DirectiveTree.lexemes ++ (s.lexemes ++ rest)))) =
      .done ⟨kind, name, VariablesTree.definitions c.tracked vs,
        ds.map (DirectiveTree.directive c.tracked), s.selections c.tracked, loc⟩
        (c.before rest) := by
  have hset := s.rank rest
  rw [readOperationTail,
    bind_done (complete_readVariableDefinitions c vs _ trivial
      (rank_directives ds (Nat.le_trans (by omega) hset))),
    bind_done (complete_readDirectives c ds _ trivial hset),
    bind_done (complete_requireBrace c s rest),
    bind_done (Selection.complete_readSet c s rest)]
  rfl

theorem sound_readOperation {c d : Cursor} {x : Operation} (h : readOperation c = .done x d) :
    ∃ t : DefinitionTree, c = d.before (t.lexemes ++ d.ahead) ∧
      .operation x = t.definition d.tracked := by
  rw [readOperation_eq, bind_done mark_apply, bind_done peek_apply] at h
  by_cases hbrace : c.peek = .braceOpen
  · simp only [if_pos hbrace, bind_eq_done, pure_eq_done] at h
    obtain ⟨ss, m, hss, rfl, rfl⟩ := h
    have hrequired : requireBrace .operationDefinition c = .done () c :=
      requireBrace_eq_done.2 ⟨hbrace, rfl⟩
    obtain ⟨s, rfl, rfl⟩ := Selection.sound_readSet hrequired hss
    refine ⟨.query s, rfl, ?_⟩
    obtain ⟨o, x, xs, q⟩ := s
    rfl
  · simp only [if_neg hbrace, bind_eq_done] at h
    obtain ⟨kind, _, hkind, name, _, hname, htail⟩ := h
    obtain ⟨vs, ds, s, rfl, rfl⟩ := sound_readOperationTail htail
    obtain ⟨n, -, rfl, rfl⟩ := sound_readOperationName _ _ _ hname
    obtain ⟨p, t, ht, rfl⟩ := (take_eq_done rfl).1 hkind
    obtain rfl := OperationKind.ofToken?_eq_some.1 ht
    refine ⟨.operation p kind n vs ds s, ?_, rfl⟩
    simp [DefinitionTree.lexemes]

def DefinitionTree.isOperation : DefinitionTree → Bool
  | .fragment _ _ _ _ _ => false
  | .query _ | .operation _ _ _ _ _ _ => true

theorem complete_readOperation (c : Cursor) {t : DefinitionTree} (ht : t.isOperation = true)
    (rest : List Lexeme) :
    (Definition.operation <$> readOperation) (c.before (t.lexemes ++ rest)) =
      .done (t.definition c.tracked) (c.before rest) := by
  cases t with
  | query s =>
    obtain ⟨o, x, xs, q⟩ := s
    refine map_done (a := (⟨.query, none, [], [], _, _⟩ : Operation)) ?_
    have hpeek : (c.before ((DefinitionTree.query ⟨o, x, xs, q⟩).lexemes ++ rest)).peek =
        .braceOpen := rfl
    rw [readOperation_eq, bind_done mark_apply, bind_done peek_apply, if_pos hpeek]
    exact bind_done (Selection.complete_readSet c ⟨o, x, xs, q⟩ rest)
  | operation p k n vs ds s =>
    refine map_done (a := (⟨k, _, _, _, _, _⟩ : Operation)) ?_
    simp only [DefinitionTree.lexemes, List.cons_append, List.append_assoc]
    rw [readOperation_eq, bind_done mark_apply, bind_done peek_apply, Cursor.peek_before,
      headToken_lexeme, if_neg (by simp),
      bind_done (take_done (OperationKind.ofToken?_eq_some.2 rfl) _ _),
      bind_done (complete_readOperationName c n _ trivial (rank_operation vs ds s rest))]
    exact complete_readOperationTail k _ _ c vs ds s rest
  | fragment p n t ds s => simp [DefinitionTree.isOperation] at ht

theorem sound_readDefinition :
    Sound readDefinition DefinitionTree.lexemes DefinitionTree.definition Always := by
  intro c a d h
  have hoperation : (Definition.operation <$> readOperation) c = .done a d →
      ∃ t : DefinitionTree, Always t ∧ c = d.before (t.lexemes ++ d.ahead) ∧
        a = t.definition d.tracked := by
    intro h
    obtain ⟨x, hx, rfl⟩ := map_eq_done.1 h
    obtain ⟨t, hc, ha⟩ := sound_readOperation hx
    exact ⟨t, trivial, hc, ha⟩
  rw [readDefinition, bind_done peek_apply] at h
  cases hpeek : c.peek with
  | braceOpen =>
    simp only [hpeek] at h
    exact hoperation h
  | name text =>
    simp only [hpeek] at h
    by_cases hfragment : text = "fragment"
    · rw [if_pos hfragment, map_eq_done] at h
      obtain ⟨x, hx, rfl⟩ := h
      obtain ⟨p, n, t, ds, s, hc, ha⟩ := sound_readFragment hx
      exact ⟨_, trivial, hc, ha⟩
    · rw [if_neg hfragment] at h
      by_cases hkind : (OperationKind.ofName? text).isSome
      · rw [if_pos hkind] at h
        exact hoperation h
      · rw [if_neg hkind] at h
        exact absurd h fail_ne_done
  | _ =>
    simp only [hpeek] at h
    exact absurd h fail_ne_done

theorem complete_readDefinition :
    Complete readDefinition DefinitionTree.lexemes DefinitionTree.definition (EndsAt 0)
      Always := by
  intro c t rest _ _
  rw [readDefinition, bind_done peek_apply, Cursor.peek_before, t.headToken_lexemes]
  cases t with
  | query s => exact complete_readOperation c rfl rest
  | operation p k n vs ds s =>
    have hkind : OperationKind.ofName? k.name = some k :=
      OperationKind.ofToken?_eq_some.2 rfl
    simp only [DefinitionTree.head, if_neg k.name_ne, hkind, Option.isSome_some, if_true]
    exact complete_readOperation c rfl rest
  | fragment p n t ds s => exact complete_readFragment c p n t ds s rest

theorem DefinitionTree.head_ne_finish (t : DefinitionTree) : t.head ≠ .finish := by
  cases t <;> simp [head]

theorem complete_readDefinitions (c : Cursor) (t : DocumentTree) :
    readDefinitions (c.before t.lexemes) = .done (t.definitions c.tracked) (c.before []) := by
  have hall : ∀ x ∈ t, Always x := fun _ _ => trivial
  have hstop : decide (headToken [] ≠ .finish) = false := rfl
  have hread := complete_itemsWhile (· ≠ .finish) complete_readDefinition
    DefinitionTree.lexemes_ne_nil
    (fun x _ r => ⟨by simp [x.headToken_lexemes r, x.head_ne_finish], Nat.zero_le _⟩) hall
    c hstop (Nat.zero_le _)
  rwa [List.append_nil] at hread

theorem readDefinitions_eq_done {tracked : Bool} {source : List Char} {a : List Definition} :
    (∃ rest, readDefinitions (.ofSource tracked source) = .done a rest) ↔
      ∃ t : DocumentTree, t.lexemes = Lexeme.scan source ∧ a = t.definitions tracked := by
  constructor
  · rintro ⟨d, h⟩
    obtain ⟨t, -, hc, rfl, hstop⟩ := sound_itemsWithin sound_readDefinition _ h
    obtain ⟨hscan, -, rfl⟩ := Cursor.mk.inj hc
    have hend : d.ahead = [] := by
      have hfinish : headToken d.ahead = .finish := by
        rw [← Cursor.peek_eq]
        exact Decidable.not_not.1 (of_decide_eq_false hstop)
      cases hahead : d.ahead with
      | nil => rfl
      | cons l ls =>
        have hl : l ∈ Lexeme.scan source := by
          rw [hscan, hahead]
          exact List.mem_append_right _ List.mem_cons_self
        rw [hahead] at hfinish
        exact absurd hfinish (Lexeme.ne_finish_of_mem_scan hl)
    refine ⟨t, ?_, rfl⟩
    rw [hscan, hend, List.append_nil]
    rfl
  · rintro ⟨t, ht, rfl⟩
    have hread := complete_readDefinitions (.ofSource tracked source) t
    rw [ht] at hread
    exact ⟨_, hread⟩

theorem readNode_eq_ok {α : Type} {r : NodeReader α} {tracked : Bool} {source : String} {a : α} :
    readNode r tracked source = .ok a ↔
      ∃ rest, r (.ofSource tracked source.toList) = .done a rest := by
  rw [readNode, Reader.run]
  cases r (.ofSource tracked source.toList) <;> simp

theorem Document.read_eq_ok {tracked : Bool} {source : String} {d : Document} :
    Document.read tracked source = .ok d ↔
      ∃ t : DocumentTree, t.lexemes = Lexeme.scan source.toList ∧
        d = ⟨t.definitions tracked, source.utf8ByteSize⟩ := by
  have hread : Document.read tracked source = .ok d ↔
      ∃ a, readNode readDefinitions tracked source = .ok a ∧
        ⟨a, source.utf8ByteSize⟩ = d := by
    rw [Document.read]
    cases readNode readDefinitions tracked source <;> simp [bind, Except.bind, pure, Except.pure]
  simp only [hread, readNode_eq_ok, readDefinitions_eq_done]
  constructor
  · rintro ⟨_, ⟨t, ht, rfl⟩, rfl⟩
    exact ⟨t, ht, rfl⟩
  · rintro ⟨t, ht, rfl⟩
    exact ⟨_, ⟨t, ht, rfl⟩, rfl⟩

/-- The reader of documents recognises the grammar. It accepts a source exactly if the tokens of
that source, all of them and in their order, have a derivation, and yields what the derivation
stands for; no sequence of tokens has two derivations; and a lexical error anywhere in a source
is an error of the document. -/
theorem Document.read_recognises (tracked : Bool) (source : String) :
    (∀ d, Document.read tracked source = .ok d ↔
      ∃ t : DocumentTree, t.lexemes = Lexeme.scan source.toList ∧
        d = ⟨t.definitions tracked, source.utf8ByteSize⟩) ∧
    (∀ t u : DocumentTree, t.lexemes = u.lexemes → t = u) ∧
    ((∃ l ∈ Lexeme.scan source.toList, l.token = .invalid) →
      ∃ e, Document.read tracked source = .error e) := by
  refine ⟨fun d => Document.read_eq_ok, fun t u => DocumentTree.lexemes_injective, ?_⟩
  rintro ⟨l, hl, hinvalid⟩
  cases h : Document.read tracked source with
  | error e => exact ⟨e, rfl⟩
  | ok d =>
    obtain ⟨t, ht, -⟩ := Document.read_eq_ok.1 h
    exact absurd hinvalid (t.valid l (ht ▸ hl))

end GraphQLCheck
