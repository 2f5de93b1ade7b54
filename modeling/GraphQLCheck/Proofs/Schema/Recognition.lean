import GraphQLCheck.Proofs.Schema.Grammar
import GraphQLCheck.Proofs.Schema.Members
import GraphQLCheck.Proofs.Schema.Reading

/-!
The readers of definitions against the grammar of schemas, as the readers of documents are proved
against theirs: each takes the tokens of a derivation tree and yields what the tree declares,
members of one name merged (`sound_…`), and it does so for every tree as long as the token behind
it cannot go on with what the tree leaves out (`complete_…`).
-/
namespace GraphQLCheck
open Reader

section
variable {α τ : Type} {c d : Cursor} {lexemes : τ → List Lexeme} {value : Bool → τ → α}

theorem ofNode_eq_done {r : NodeReader α} {a : α} :
    ofNode r c = .done a d ↔ r c = .done a d := by
  rw [ofNode, mapReason]
  cases r c <;> simp

theorem sound_ofNode {r : NodeReader α} {p : τ → Prop} (h : Sound r lexemes value p) :
    Sound (ofNode r) lexemes value p :=
  fun c a d hdone => h c a d (ofNode_eq_done.1 hdone)

theorem complete_ofNode {r : NodeReader α} {ends : Token → Prop} {p : τ → Prop}
    (h : Complete r lexemes value ends p) : Complete (ofNode r) lexemes value ends p :=
  fun c t rest ht hrest => ofNode_eq_done.2 (h c t rest ht hrest)

theorem declaredName_eq_done {what text : String} :
    declaredName what c = .done text d ↔
      ∃ p : Place, c = d.before (p.lexeme (.name text) :: d.ahead) := by
  rw [declaredName, take_eq_done rfl]
  refine exists_congr fun p => ⟨?_, fun h => ⟨_, rfl, h⟩⟩
  rintro ⟨t, ht, hc⟩
  cases t <;> simp_all

theorem declaredName_done {what : String} (n : NameTree) (c : Cursor) (rest : List Lexeme) :
    declaredName what (c.before (n.lexeme :: rest)) = .done n.text (c.before rest) :=
  declaredName_eq_done.2 ⟨n.place, rfl⟩

theorem expectToken_eq_done {t : Token} {u : Unit} (ht : t ≠ .finish) :
    expectToken t c = .done u d ↔ ∃ p : Place, c = d.before (p.lexeme t :: d.ahead) := by
  rw [expectToken, take_eq_done (if_neg (Ne.symm ht))]
  refine exists_congr fun p => ⟨?_, fun h => ⟨t, if_pos rfl, h⟩⟩
  rintro ⟨s, hs, hc⟩
  by_cases h : s = t
  · rwa [h] at hc
  · simp [h] at hs

theorem expectToken_done {t : Token} (p : Place) (c : Cursor) (rest : List Lexeme) :
    expectToken t (c.before (p.lexeme t :: rest)) = .done () (c.before rest) :=
  take_done (if_pos rfl) p rest

def NoString (t : Token) : Prop := ∀ text, t ≠ .string text

theorem sound_skipDescription :
    Sound skipDescription (optionalLexemes DescriptionTree.lexemes) (fun _ _ => ()) Always := by
  intro c a d h
  rw [skipDescription, bind_done peek_apply] at h
  cases hpeek : c.peek with
  | string text =>
    simp only [hpeek, skip_eq_done] at h
    obtain ⟨p, hp⟩ := Cursor.exists_place (c := c) (by rw [hpeek]; simp)
    rw [hpeek, h] at hp
    exact ⟨some ⟨p, text⟩, trivial, hp, rfl⟩
  | _ =>
    simp only [hpeek, pure_eq_done] at h
    exact ⟨none, trivial, h.2, rfl⟩

theorem complete_skipDescription :
    Complete skipDescription (optionalLexemes DescriptionTree.lexemes) (fun _ _ => ()) NoString
      Always := by
  intro c t rest _ hrest
  rw [skipDescription, bind_done peek_apply, Cursor.peek_before]
  cases t with
  | some t => rfl
  | none =>
    have hnone : optionalLexemes DescriptionTree.lexemes none ++ rest = rest := rfl
    rw [hnone]
    cases hhead : headToken rest with
    | string text => exact absurd hhead (hrest text)
    | _ => rfl

theorem endsDirectives_braceOpen : EndsDirectives .braceOpen := by
  simp [EndsDirectives]

theorem endsDirectives_equal : EndsDirectives .equal := by
  simp [EndsDirectives]

theorem endsDirectives_string (text : String) : EndsDirectives (.string text) := by
  simp [EndsDirectives]

theorem sound_skipDirectives :
    Sound skipDirectives (List.flatMap DirectiveTree.lexemes) (fun _ _ => ()) Always := by
  intro c a d h
  simp only [skipDirectives, bind_eq_done, pure_eq_done] at h
  obtain ⟨_, _, hds, -, rfl⟩ := h
  obtain ⟨ds, -, hc, -⟩ := sound_ofNode sound_readDirectives _ _ _ hds
  exact ⟨ds, trivial, hc, rfl⟩

theorem complete_skipDirectives :
    Complete skipDirectives (List.flatMap DirectiveTree.lexemes) (fun _ _ => ()) EndsDirectives
      Always := by
  intro c ds rest _ hrest
  rw [skipDirectives,
    bind_done (complete_ofNode complete_readDirectives_of_ends c ds rest trivial hrest)]
  rfl

theorem sound_readTypeRef :
    Sound readTypeRef TypeTree.lexemes (fun tracked t => .ofExpr (t.type tracked)) Always := by
  intro c a d h
  obtain ⟨e, he, rfl⟩ := map_eq_done.1 h
  obtain ⟨t, -, hc, rfl⟩ := sound_ofNode TypeExpr.sound_read _ _ _ he
  exact ⟨t, trivial, hc, rfl⟩

theorem complete_readTypeRef :
    Complete readTypeRef TypeTree.lexemes (fun tracked t => .ofExpr (t.type tracked)) (EndsAt 1)
      Always :=
  fun c t rest _ hrest => map_done (complete_ofNode TypeExpr.complete_read c t rest trivial hrest)

theorem itemsWhile_congr {ε : Type} {go : Token → Bool} {r s : Reader ε α}
    (h : ∀ c : Cursor, go c.peek = true → r c = s c) : itemsWhile go r = itemsWhile go s := by
  have hwithin : ∀ (n : Nat) (c : Cursor), itemsWithin go r n c = itemsWithin go s n c := by
    intro n
    induction n with
    | zero => exact fun c => rfl
    | succ n ih =>
      intro c
      rw [itemsWithin, itemsWithin, bind_done peek_apply, bind_done peek_apply]
      by_cases hgo : go c.peek = true
      · have htail : itemsWithin go r n = itemsWithin go s n := funext ih
        rw [if_pos hgo, if_pos hgo, bind_apply, bind_apply, Reader.bind, Reader.bind, h c hgo,
          htail]
      · rw [if_neg hgo, if_neg hgo]
  exact funext fun c => hwithin _ c

theorem optional_absent {ε : Type} {t : Token} (c : Cursor) {ls : List Lexeme}
    (h : headToken ls ≠ t) :
    (optional t : Reader ε Bool) (c.before ls) = .done false (c.before ls) :=
  optional_of_ne (by rwa [Cursor.peek_before])

theorem optionalLexemes_some (t : τ) : optionalLexemes lexemes (some t) = lexemes t := rfl

theorem sound_optional {ε : Type} {t : Token} (ht : t ≠ .finish) :
    Sound (optional t : Reader ε Bool) (optionalLexemes fun p : Place => [p.lexeme t])
      (fun _ p => p.isSome) Always := by
  intro c b d h
  obtain ⟨rfl, p, hc⟩ | ⟨rfl, -, hc⟩ := (optional_eq_done ht).1 h
  · exact ⟨some p, trivial, hc, rfl⟩
  · exact ⟨none, trivial, hc, rfl⟩

theorem complete_optional {ε : Type} {t : Token} :
    Complete (optional t : Reader ε Bool) (optionalLexemes fun p : Place => [p.lexeme t])
      (fun _ p => p.isSome) (· ≠ t) Always := by
  intro c p rest _ hrest
  cases p with
  | none => exact optional_absent c hrest
  | some p => exact optional_done p rest

section
variable {P : Token → Prop} (lexemes : τ → List Lexeme)

theorem headToken_optional (hfirst : ∀ t r, P (headToken (lexemes t ++ r))) (t : Option τ)
    {r : List Lexeme} (hr : P (headToken r)) :
    P (headToken (optionalLexemes lexemes t ++ r)) := by
  cases t with
  | none => exact hr
  | some t => exact hfirst t r

theorem headToken_flatMap (hfirst : ∀ t r, P (headToken (lexemes t ++ r))) (ts : List τ)
    {r : List Lexeme} (hr : P (headToken r)) : P (headToken (ts.flatMap lexemes ++ r)) := by
  cases ts with
  | nil => exact hr
  | cons t ts =>
    rw [List.flatMap_cons, List.append_assoc]
    exact hfirst t _

end

section
variable {opening closing : Token} {item : DeclarationReader α}

theorem sound_readEnclosed (hopening : opening ≠ .finish) (hclosing : closing ≠ .finish)
    (hitem : Sound item lexemes value Always) :
    Sound (readEnclosed opening closing item)
      (optionalLexemes (EnclosedTree.lexemes opening closing lexemes))
      (fun tracked => EnclosedTree.values (value tracked)) Always := by
  intro c a d h
  simp only [readEnclosed, bind_eq_done, optional_eq_done hopening] at h
  obtain ⟨b, m, ⟨rfl, o, rfl⟩ | ⟨rfl, -, rfl⟩, h⟩ := h
  · simp only [if_true, bind_eq_done, expectToken_eq_done hclosing, pure_eq_done] at h
    obtain ⟨as, _, has, _, _, ⟨q, rfl⟩, rfl, rfl⟩ := h
    obtain ⟨ts, -, rfl, rfl, -⟩ := sound_itemsWithin hitem _ has
    refine ⟨some ⟨o, ts, q⟩, trivial, ?_, rfl⟩
    simp [optionalLexemes, EnclosedTree.lexemes]
  · simp only [Bool.false_eq_true, if_false, pure_eq_done] at h
    obtain ⟨rfl, rfl⟩ := h
    exact ⟨none, trivial, rfl, rfl⟩

theorem complete_readEnclosed {ends : Token → Prop}
    (hitem : Complete item lexemes value ends Always)
    (hne : ∀ t, lexemes t ≠ [])
    (hfirst : ∀ t rest, headToken (lexemes t ++ rest) ≠ closing ∧
      headToken (lexemes t ++ rest) ≠ .finish ∧ ends (headToken (lexemes t ++ rest)))
    (hclosing : ends closing) :
    Complete (readEnclosed opening closing item)
      (optionalLexemes (EnclosedTree.lexemes opening closing lexemes))
      (fun tracked => EnclosedTree.values (value tracked)) (· ≠ opening) Always := by
  intro c t rest _ hrest
  cases t with
  | none => exact bind_done (optional_absent c hrest)
  | some t =>
    obtain ⟨o, ts, q⟩ := t
    have hgo : ∀ t : τ, Always t → ∀ rest,
        decide (headToken (lexemes t ++ rest) ≠ closing ∧
          headToken (lexemes t ++ rest) ≠ .finish) = true ∧
        ends (headToken (lexemes t ++ rest)) :=
      fun t _ rest => ⟨decide_eq_true ⟨(hfirst t rest).1, (hfirst t rest).2.1⟩,
        (hfirst t rest).2.2⟩
    have hstop : decide (headToken (q.lexeme closing :: rest) ≠ closing ∧
        headToken (q.lexeme closing :: rest) ≠ .finish) = false := by
      simp [headToken_lexeme]
    have hall : ∀ t ∈ ts, Always t := fun _ _ => trivial
    have hitems := complete_itemsWhile (fun t => t ≠ closing ∧ t ≠ .finish) hitem hne hgo hall c
      hstop hclosing
    simp only [readEnclosed, optionalLexemes, Option.map_some, Option.getD_some,
      EnclosedTree.lexemes, List.cons_append, List.append_assoc, List.nil_append]
    rw [bind_done (optional_done _ _), if_pos rfl, bind_done hitems,
      bind_done (expectToken_done _ _ _)]
    rfl

end

section
variable {separator : Token} {item : DeclarationReader α}

def readFollowing (separator : Token) (item : DeclarationReader α) : DeclarationReader α := do
  expectToken separator
  item

def readItems (separator : Token) (item : DeclarationReader α) : DeclarationReader (List α) := do
  let first ← item
  let others ← itemsWhile (· = separator) (readFollowing separator item)
  pure (first :: others)

theorem readSeparated_eq :
    readSeparated separator item = (do
      let _ ← optional separator
      readItems separator item) := by
  have hfollowing : itemsWhile (· = separator) (do skip; item) =
      itemsWhile (· = separator) (readFollowing separator item) := by
    refine itemsWhile_congr fun c hc => ?_
    have hskip : expectToken separator c = skip c := by
      rw [expectToken, take, of_decide_eq_true hc, if_pos rfl, skip_apply]
    rw [readFollowing, bind_apply, bind_apply, Reader.bind, Reader.bind, hskip]
  rw [readSeparated, hfollowing]
  rfl

theorem sound_readItems (hseparator : separator ≠ .finish)
    (hitem : Sound item lexemes value Always) {as : List α}
    (h : readItems separator item c = .done as d) :
    ∃ (t : τ) (ts : List (Place × τ)),
      c = d.before (lexemes t ++
        (ts.flatMap (SeparatedTree.following separator lexemes) ++ d.ahead)) ∧
      as = value d.tracked t :: ts.map fun x => value d.tracked x.2 := by
  have hfollowing : Sound (readFollowing separator item)
      (SeparatedTree.following separator lexemes) (fun tracked x => value tracked x.2)
      Always := by
    intro c a d h
    simp only [readFollowing, bind_eq_done, expectToken_eq_done hseparator] at h
    obtain ⟨_, m, ⟨p, rfl⟩, ha⟩ := h
    obtain ⟨t, -, rfl, rfl⟩ := hitem _ _ _ ha
    exact ⟨⟨p, t⟩, trivial, rfl, rfl⟩
  simp only [readItems, bind_eq_done, pure_eq_done] at h
  obtain ⟨first, _, hfirst, others, _, hothers, rfl, rfl⟩ := h
  obtain ⟨ts, -, rfl, rfl, -⟩ := sound_itemsWithin hfollowing _ hothers
  obtain ⟨t, -, rfl, rfl⟩ := hitem _ _ _ hfirst
  exact ⟨t, ts, rfl, rfl⟩

theorem complete_readItems (hitem : Complete item lexemes value Always Always) (c : Cursor) (t : τ)
    (ts : List (Place × τ)) {rest : List Lexeme} (hrest : headToken rest ≠ separator) :
    readItems separator item (c.before (lexemes t ++
        (ts.flatMap (SeparatedTree.following separator lexemes) ++ rest))) =
      .done (value c.tracked t :: ts.map fun x => value c.tracked x.2) (c.before rest) := by
  have hfollowing : Complete (readFollowing separator item)
      (SeparatedTree.following separator lexemes) (fun tracked x => value tracked x.2)
      Always Always := by
    intro c x rest _ hrest
    rw [readFollowing, SeparatedTree.following, List.cons_append,
      bind_done (expectToken_done _ _ _)]
    exact hitem c x.2 rest trivial hrest
  have hothers := complete_itemsWhile (· = separator) hfollowing
    (by simp [SeparatedTree.following]) (fun _ _ _ => ⟨decide_eq_true rfl, trivial⟩)
    (fun x (_ : x ∈ ts) => trivial) c (decide_eq_false hrest) trivial
  rw [readItems, bind_done (hitem c t _ trivial trivial), bind_done hothers]
  rfl

theorem sound_readSeparated (hseparator : separator ≠ .finish)
    (hitem : Sound item lexemes value Always) :
    Sound (readSeparated separator item) (SeparatedTree.lexemes separator lexemes)
      (fun tracked => SeparatedTree.values (value tracked)) Always := by
  intro c a d h
  simp only [readSeparated_eq, bind_eq_done] at h
  obtain ⟨_, m, hleading, hitems⟩ := h
  obtain ⟨t, ts, rfl, rfl⟩ := sound_readItems hseparator hitem hitems
  obtain ⟨p, -, rfl, -⟩ := sound_optional hseparator _ _ _ hleading
  refine ⟨⟨p, t, ts⟩, trivial, ?_, rfl⟩
  simp [SeparatedTree.lexemes]

theorem complete_readSeparated (hitem : Complete item lexemes value Always Always)
    (hfirst : ∀ t rest, headToken (lexemes t ++ rest) ≠ separator) :
    Complete (readSeparated separator item) (SeparatedTree.lexemes separator lexemes)
      (fun tracked => SeparatedTree.values (value tracked)) (· ≠ separator) Always := by
  intro c s rest _ hrest
  obtain ⟨p, t, ts⟩ := s
  simp only [readSeparated_eq, SeparatedTree.lexemes, List.append_assoc]
  rw [bind_done (complete_optional c p _ trivial (hfirst t _))]
  exact complete_readItems hitem c t ts hrest

end

end

theorem sound_declaredName (what : String) :
    Sound (declaredName what) NameTree.lexemes (fun _ n => n.text) Always := by
  intro c text d h
  obtain ⟨p, hc⟩ := declaredName_eq_done.1 h
  exact ⟨⟨text, p⟩, trivial, hc, rfl⟩

theorem complete_declaredName (what : String) :
    Complete (declaredName what) NameTree.lexemes (fun _ n => n.text) Always Always :=
  fun c n rest _ _ => declaredName_done n c rest

def readDefault : DeclarationReader (Option Value) := do
  if ← optional .equal then some <$> ofNode (Value.read true) else pure none

theorem readInputDef_eq :
    readInputDef = (do
      skipDescription
      let name ← declaredName "input value"
      expectToken .colon
      let type ← readTypeRef
      let defaultValue ← readDefault
      skipDirectives
      pure ⟨name, type, defaultValue⟩) := by
  simp only [readInputDef, readDefault, bind_assoc]
  exact bind_congr fun _ => bind_congr fun _ => bind_congr fun _ => bind_congr fun _ =>
    bind_congr fun b => by cases b <;> simp

theorem sound_readDefault :
    Sound readDefault (optionalLexemes DefaultTree.lexemes)
      (fun tracked default => default.map (·.value.value tracked)) Always := by
  intro c a d h
  simp only [readDefault, bind_eq_done, optional_eq_done (t := .equal) (by simp)] at h
  obtain ⟨b, m, ⟨rfl, q, rfl⟩ | ⟨rfl, -, rfl⟩, h⟩ := h
  · simp only [if_true, map_eq_done] at h
    obtain ⟨v, hv, rfl⟩ := h
    obtain ⟨v, hconstant, rfl, rfl⟩ := sound_ofNode (Value.sound_read true) _ _ _ hv
    exact ⟨some ⟨q, v, hconstant rfl⟩, trivial, rfl, rfl⟩
  · simp only [Bool.false_eq_true, if_false, pure_eq_done] at h
    obtain ⟨rfl, rfl⟩ := h
    exact ⟨none, trivial, rfl, rfl⟩

theorem complete_readDefault :
    Complete readDefault (optionalLexemes DefaultTree.lexemes)
      (fun tracked default => default.map (·.value.value tracked)) (EndsAt 2) Always := by
  intro c t rest _ hrest
  cases t with
  | none => exact bind_done (optional_of_ne (hrest.peek_ne (by simp [Token.rank]) c))
  | some t =>
    have hvalue := complete_ofNode (Value.complete_read true) c t.value rest
      (fun _ => t.isConstant) (Nat.zero_le _)
    exact (bind_done (optional_done _ _)).trans (map_done hvalue)

theorem sound_readInputDef :
    Sound readInputDef InputTree.lexemes InputTree.input Always := by
  intro c a d h
  simp only [readInputDef_eq, bind_eq_done, expectToken_eq_done (t := .colon) (by simp),
    pure_eq_done] at h
  obtain ⟨_, _, hdescription, name, _, hname, _, _, ⟨colon, rfl⟩, type, _, htype, v, _, hv, _, _,
    hds, rfl, rfl⟩ := h
  obtain ⟨ds, -, rfl, -⟩ := sound_skipDirectives _ _ _ hds
  obtain ⟨v, -, rfl, rfl⟩ := sound_readDefault _ _ _ hv
  obtain ⟨t, -, rfl, rfl⟩ := sound_readTypeRef _ _ _ htype
  obtain ⟨n, -, rfl, rfl⟩ := sound_declaredName _ _ _ _ hname
  obtain ⟨x, -, rfl, -⟩ := sound_skipDescription _ _ _ hdescription
  refine ⟨⟨x, n, colon, t, v, ds⟩, trivial, ?_, rfl⟩
  simp [InputTree.lexemes, NameTree.lexemes]

inductive BeginsItem : Token → Prop
  | string (text : String) : BeginsItem (.string text)
  | name (text : String) : BeginsItem (.name text)

theorem beginsItem_described (x : Option DescriptionTree) (n : NameTree) (ls : List Lexeme) :
    BeginsItem (headToken (optionalLexemes DescriptionTree.lexemes x ++ n.lexeme :: ls)) :=
  headToken_optional _ (fun d _ => .string d.text) x (.name n.text)

theorem BeginsItem.endsAt {t : Token} (h : BeginsItem t) : EndsAt 5 t := by
  cases h <;> simp [EndsAt, Token.rank]

theorem BeginsItem.ne {t : Token} (h : BeginsItem t) :
    t ≠ .parenClose ∧ t ≠ .braceClose ∧ t ≠ .finish := by
  cases h <;> simp

theorem InputTree.beginsItem (i : InputTree) (r : List Lexeme) :
    BeginsItem (headToken (i.lexemes ++ r)) := by
  rw [lexemes, List.append_assoc, List.cons_append]
  exact beginsItem_described _ _ _

theorem InputTree.lexemes_ne_nil (i : InputTree) : i.lexemes ≠ [] := by
  simp [lexemes]

theorem noString_name (n : NameTree) (ls : List Lexeme) :
    NoString (headToken (n.lexeme :: ls)) := by
  simp [NoString, NameTree.lexeme, headToken_lexeme]

theorem complete_readInputDef :
    Complete readInputDef InputTree.lexemes InputTree.input (EndsAt 5) Always := by
  intro c i rest _ hrest
  obtain ⟨x, n, colon, t, v, ds⟩ := i
  have hdirectives := rank_directives ds (Nat.le_trans (by omega) hrest)
  have hdefault := le_rank_optional DefaultTree.beginsWith (Nat.le_refl 1) v
    (Nat.le_trans (by omega) hdirectives)
  simp only [readInputDef_eq, InputTree.lexemes, List.cons_append, List.append_assoc]
  rw [bind_done (complete_skipDescription c x _ trivial (noString_name n _)),
    bind_done (declaredName_done _ _ _), bind_done (expectToken_done _ _ _),
    bind_done (complete_readTypeRef c t _ trivial hdefault),
    bind_done (complete_readDefault c v _ trivial (Nat.le_trans (by omega) hdirectives)),
    bind_done (complete_skipDirectives c ds rest trivial hrest.endsDirectives)]
  rfl

theorem complete_readInputs {opening closing : Token}
    (hclosing : closing = .parenClose ∨ closing = .braceClose) :
    Complete (readEnclosed opening closing readInputDef)
      (optionalLexemes (EnclosedTree.lexemes opening closing InputTree.lexemes))
      (fun tracked => EnclosedTree.values (InputTree.input tracked)) (· ≠ opening) Always := by
  refine complete_readEnclosed complete_readInputDef InputTree.lexemes_ne_nil (fun i r => ?_) ?_
  · have hbegins := i.beginsItem r
    obtain rfl | rfl := hclosing
    · exact ⟨hbegins.ne.1, hbegins.ne.2.2, hbegins.endsAt⟩
    · exact ⟨hbegins.ne.2.1, hbegins.ne.2.2, hbegins.endsAt⟩
  · obtain rfl | rfl := hclosing <;> simp [EndsAt, Token.rank]

theorem sound_readArgumentDefs :
    Sound readArgumentDefs (optionalLexemes InputsTree.lexemes)
      (fun tracked is =>
        Named.ofList InputDef.name (EnclosedTree.values (InputTree.input tracked) is))
      Always := by
  intro c a d h
  obtain ⟨is, his, rfl⟩ := map_eq_done.1 h
  obtain ⟨is, -, hc, rfl⟩ := sound_readEnclosed (by simp) (by simp) sound_readInputDef _ _ _ his
  exact ⟨is, trivial, hc, rfl⟩

theorem complete_readArgumentDefs :
    Complete readArgumentDefs (optionalLexemes InputsTree.lexemes)
      (fun tracked is =>
        Named.ofList InputDef.name (EnclosedTree.values (InputTree.input tracked) is))
      (· ≠ .parenOpen) Always :=
  fun c is rest _ hrest => map_done (complete_readInputs (.inl rfl) c is rest trivial hrest)

theorem sound_readFieldDef :
    Sound readFieldDef FieldTree.lexemes (fun tracked f => (f.field tracked).merged) Always := by
  intro c a d h
  simp only [readFieldDef, bind_eq_done, expectToken_eq_done (t := .colon) (by simp),
    pure_eq_done] at h
  obtain ⟨_, _, hdescription, name, _, hname, as, _, has, _, _, ⟨colon, rfl⟩, type, _, htype, _, _,
    hds, rfl, rfl⟩ := h
  obtain ⟨ds, -, rfl, -⟩ := sound_skipDirectives _ _ _ hds
  obtain ⟨t, -, rfl, rfl⟩ := sound_readTypeRef _ _ _ htype
  obtain ⟨as, -, rfl, rfl⟩ := sound_readArgumentDefs _ _ _ has
  obtain ⟨n, -, rfl, rfl⟩ := sound_declaredName _ _ _ _ hname
  obtain ⟨x, -, rfl, -⟩ := sound_skipDescription _ _ _ hdescription
  refine ⟨⟨x, n, as, colon, t, ds⟩, trivial, ?_, rfl⟩
  simp [FieldTree.lexemes, NameTree.lexemes]

theorem complete_readFieldDef :
    Complete readFieldDef FieldTree.lexemes (fun tracked f => (f.field tracked).merged) (EndsAt 5)
      Always := by
  intro c f rest _ hrest
  obtain ⟨x, n, as, colon, t, ds⟩ := f
  have hdirectives := rank_directives ds (Nat.le_trans (by omega) hrest)
  simp only [readFieldDef, FieldTree.lexemes, List.cons_append, List.append_assoc]
  rw [bind_done (complete_skipDescription c x _ trivial (noString_name n _)),
    bind_done (declaredName_done _ _ _),
    bind_done (complete_readArgumentDefs c as _ trivial (by simp [headToken_lexeme])),
    bind_done (expectToken_done _ _ _),
    bind_done (complete_readTypeRef c t _ trivial (Nat.le_trans (by omega) hdirectives)),
    bind_done (complete_skipDirectives c ds rest trivial hrest.endsDirectives)]
  rfl

theorem FieldTree.beginsItem (f : FieldTree) (r : List Lexeme) :
    BeginsItem (headToken (f.lexemes ++ r)) := by
  rw [lexemes, List.append_assoc, List.cons_append]
  exact beginsItem_described _ _ _

theorem FieldTree.lexemes_ne_nil (f : FieldTree) : f.lexemes ≠ [] := by
  simp [lexemes]

theorem EnclosedTree.values_comp {α β τ : Type} (f : α → β) (value : τ → α)
    (e : Option (EnclosedTree τ)) :
    values (fun t => f (value t)) e = (values value e).map f := by
  cases e with
  | none => rfl
  | some e => simp [values]

theorem sound_readFieldDefs :
    Sound readFieldDefs
      (optionalLexemes (EnclosedTree.lexemes .braceOpen .braceClose FieldTree.lexemes))
      (fun tracked fs => mergedFields (EnclosedTree.values (FieldTree.field tracked) fs))
      Always := by
  intro c a d h
  obtain ⟨fs, hfs, rfl⟩ := map_eq_done.1 h
  obtain ⟨fs, -, hc, rfl⟩ := sound_readEnclosed (by simp) (by simp) sound_readFieldDef _ _ _ hfs
  exact ⟨fs, trivial, hc, congrArg _ (EnclosedTree.values_comp FieldDef.merged _ fs)⟩

theorem complete_readFieldDefs :
    Complete readFieldDefs
      (optionalLexemes (EnclosedTree.lexemes .braceOpen .braceClose FieldTree.lexemes))
      (fun tracked fs => mergedFields (EnclosedTree.values (FieldTree.field tracked) fs))
      (· ≠ .braceOpen) Always := by
  intro c fs rest _ hrest
  have hfields : Complete (readEnclosed .braceOpen .braceClose readFieldDef)
      (optionalLexemes (EnclosedTree.lexemes .braceOpen .braceClose FieldTree.lexemes))
      (fun tracked => EnclosedTree.values fun f => (f.field tracked).merged) (· ≠ .braceOpen)
      Always :=
    complete_readEnclosed complete_readFieldDef FieldTree.lexemes_ne_nil
      (fun f r => ⟨(f.beginsItem r).ne.2.1, (f.beginsItem r).ne.2.2, (f.beginsItem r).endsAt⟩)
      (by simp [EndsAt, Token.rank])
  show _ = Outcome.done (mergedFields (EnclosedTree.values (FieldTree.field c.tracked) fs)) _
  rw [mergedFields, ← EnclosedTree.values_comp]
  exact map_done (hfields c fs rest trivial hrest)

def EndsImplements (t : Token) : Prop := t ≠ .name "implements" ∧ t ≠ .ampersand

theorem sound_readImplements :
    Sound readImplements (optionalLexemes ImplementsTree.lexemes)
      (fun _ => ImplementsTree.names) Always := by
  intro c a d h
  simp only [readImplements, bind_eq_done, optional_eq_done (t := .name "implements") (by simp)]
    at h
  obtain ⟨b, m, ⟨rfl, q, rfl⟩ | ⟨rfl, -, rfl⟩, h⟩ := h
  · simp only [if_true] at h
    obtain ⟨s, -, rfl, rfl⟩ := sound_readSeparated (by simp) (sound_declaredName _) _ _ _ h
    exact ⟨some ⟨q, s⟩, trivial, rfl, rfl⟩
  · simp only [Bool.false_eq_true, if_false, pure_eq_done] at h
    obtain ⟨rfl, rfl⟩ := h
    exact ⟨none, trivial, rfl, rfl⟩

theorem complete_readImplements :
    Complete readImplements (optionalLexemes ImplementsTree.lexemes)
      (fun _ => ImplementsTree.names) EndsImplements Always := by
  intro c t rest _ hrest
  cases t with
  | none => exact bind_done (optional_absent c hrest.1)
  | some t =>
    exact (bind_done (optional_done _ _)).trans
      (complete_readSeparated (complete_declaredName _)
        (by simp [NameTree.lexemes, NameTree.lexeme, headToken_lexeme])
        c t.interfaces rest trivial hrest.2)

end GraphQLCheck
