import GraphQLCheck.Proofs.Document.Grammar

/-!
A sequence of tokens has at most one derivation (`DocumentTree.lexemes_injective`). Brackets tell
where a part ends that is between them. The other parts are optional and stand in a fixed order,
so that each of them ends where a token comes that can only begin something later: tokens have
ranks in this order, and `Unique` asks for a rank of what follows a tree.
-/
namespace GraphQLCheck

/-- The order of the optional parts that may follow each other, by the tokens they begin with. -/
def Token.rank : Token → Nat
  | .exclam => 0
  | .equal => 1
  | .colon => 2
  | .parenOpen => 3
  | .directiveName _ => 4
  | .braceOpen => 5
  | _ => 6

theorem NameTree.lexeme_inj {m n : NameTree} : m.lexeme = n.lexeme ↔ m = n := by
  cases m
  cases n
  simp only [lexeme, Place.lexeme_inj, Token.name.injEq, NameTree.mk.injEq]
  exact And.comm

section
variable {τ : Type} {lexemes : τ → List Lexeme}

/-- Whatever sequence begins with the tokens of the tree `a` and goes on with a token of rank `k`
or more begins with the tokens of no other tree. -/
def Unique (lexemes : τ → List Lexeme) (k : Nat) (a : τ) : Prop :=
  ∀ b r s, k ≤ (headToken r).rank → k ≤ (headToken s).rank → lexemes a ++ r = lexemes b ++ s →
    a = b ∧ r = s

def BeginsWith (lexemes : τ → List Lexeme) (j : Nat) : Prop :=
  ∀ a r, (headToken (lexemes a ++ r)).rank = j

theorem le_rank_optional {j k : Nat} (hfirst : BeginsWith lexemes j) (hj : k ≤ j) (a : Option τ)
    {r : List Lexeme} (hr : k ≤ (headToken r).rank) :
    k ≤ (headToken (optionalLexemes lexemes a ++ r)).rank := by
  cases a with
  | none => exact hr
  | some a =>
    have ha : (headToken (optionalLexemes lexemes (some a) ++ r)).rank = j := hfirst a r
    omega

theorem le_rank_flatMap {j k : Nat} (hfirst : BeginsWith lexemes j) (hj : k ≤ j) (as : List τ)
    {r : List Lexeme} (hr : k ≤ (headToken r).rank) :
    k ≤ (headToken (as.flatMap lexemes ++ r)).rank := by
  cases as with
  | nil => exact hr
  | cons a as =>
    rw [List.flatMap_cons, List.append_assoc, hfirst]
    exact hj

theorem unique_optional {j k m : Nat} (hfirst : BeginsWith lexemes j) {a : Option τ}
    (h : ∀ x ∈ a, Unique lexemes k x) (hk : k ≤ m) (hj : j < m) :
    Unique (optionalLexemes lexemes) m a := by
  intro b r s hr hs heq
  cases a with
  | none =>
    cases b with
    | none => exact ⟨rfl, heq⟩
    | some b =>
      have heq : r = lexemes b ++ s := heq
      have hb := hfirst b s
      rw [← heq] at hb
      omega
  | some a =>
    cases b with
    | none =>
      have heq : lexemes a ++ r = s := heq
      have ha := hfirst a r
      rw [heq] at ha
      omega
    | some b =>
      obtain ⟨rfl, rfl⟩ := h a rfl b r s (Nat.le_trans hk hr) (Nat.le_trans hk hs) heq
      exact ⟨rfl, rfl⟩

theorem unique_flatMap {j k m : Nat} (hfirst : BeginsWith lexemes j)
    (h : ∀ a, Unique lexemes k a) (hkj : k ≤ j) (hk : k ≤ m) (hj : j < m) (as : List τ) :
    Unique (List.flatMap lexemes) m as := by
  intro bs r s hr hs heq
  induction as generalizing bs with
  | nil =>
    cases bs with
    | nil => exact ⟨rfl, heq⟩
    | cons b bs =>
      rw [List.flatMap_nil, List.nil_append, List.flatMap_cons, List.append_assoc] at heq
      have hb := hfirst b (bs.flatMap lexemes ++ s)
      rw [← heq] at hb
      omega
  | cons a as ih =>
    cases bs with
    | nil =>
      rw [List.flatMap_nil, List.nil_append, List.flatMap_cons, List.append_assoc] at heq
      have ha := hfirst a (as.flatMap lexemes ++ r)
      rw [heq] at ha
      omega
    | cons b bs =>
      simp only [List.flatMap_cons, List.append_assoc] at heq
      obtain ⟨rfl, htail⟩ := h a b _ _ (le_rank_flatMap hfirst hkj as (Nat.le_trans hk hr))
        (le_rank_flatMap hfirst hkj bs (Nat.le_trans hk hs)) heq
      obtain ⟨rfl, rfl⟩ := ih bs htail
      exact ⟨rfl, rfl⟩

theorem unique_closed {k : Nat} {close : Token} {as bs : List τ}
    (hfirst : ∀ a r, k ≤ (headToken (lexemes a ++ r)).rank ∧ headToken (lexemes a ++ r) ≠ close)
    (hclose : k ≤ close.rank) (h : ∀ a ∈ as, Unique lexemes k a) {p q : Place}
    {r s : List Lexeme}
    (heq : as.flatMap lexemes ++ p.lexeme close :: r = bs.flatMap lexemes ++ q.lexeme close :: s) :
    as = bs ∧ p = q ∧ r = s := by
  have hrest : ∀ (cs : List τ) (p : Place) (r : List Lexeme),
      k ≤ (headToken (cs.flatMap lexemes ++ p.lexeme close :: r)).rank := by
    intro cs p r
    cases cs with
    | nil => exact hclose
    | cons c cs =>
      rw [List.flatMap_cons, List.append_assoc]
      exact (hfirst c _).1
  induction as generalizing bs with
  | nil =>
    cases bs with
    | nil =>
      obtain ⟨hp, rfl⟩ := List.cons.inj heq
      exact ⟨rfl, (Place.lexeme_inj.1 hp).1, rfl⟩
    | cons b bs =>
      rw [List.flatMap_nil, List.nil_append, List.flatMap_cons, List.append_assoc] at heq
      have hb := (hfirst b (bs.flatMap lexemes ++ q.lexeme close :: s)).2
      rw [← heq] at hb
      exact absurd rfl hb
  | cons a as ih =>
    cases bs with
    | nil =>
      rw [List.flatMap_nil, List.nil_append, List.flatMap_cons, List.append_assoc] at heq
      have ha := (hfirst a (as.flatMap lexemes ++ p.lexeme close :: r)).2
      rw [heq] at ha
      exact absurd rfl ha
    | cons b bs =>
      simp only [List.flatMap_cons, List.append_assoc] at heq
      obtain ⟨rfl, htail⟩ := h a List.mem_cons_self b _ _ (hrest as p r) (hrest bs q s) heq
      obtain ⟨rfl, rfl, rfl⟩ := ih (fun x hx => h x (List.mem_cons_of_mem a hx)) htail
      exact ⟨rfl, rfl, rfl⟩

end

def ValueTree.head : ValueTree → Token
  | .var _ n => .variableName n
  | .int _ d => .integer d
  | .float _ d => .float d
  | .string _ s => .string s
  | .name n => .name n.text
  | .list _ _ _ => .bracketOpen
  | .object _ _ _ => .braceOpen

theorem ValueTree.headToken_lexemes (v : ValueTree) (r : List Lexeme) :
    headToken (v.lexemes ++ r) = v.head := by
  cases v <;> rfl

theorem ValueTree.lexemes_ne_nil (v : ValueTree) : v.lexemes ≠ [] := by
  cases v <;> simp [lexemes]

theorem EntryTree.lexemes_ne_nil (e : EntryTree) : e.lexemes ≠ [] := by
  obtain ⟨n, c, v⟩ := e
  simp [lexemes]

theorem ValueTree.head_ne (v : ValueTree) : v.head ≠ .bracketClose := by
  cases v <;> simp [head]

theorem EntryTree.headToken_lexemes (e : EntryTree) (r : List Lexeme) :
    headToken (e.lexemes ++ r) = .name e.name.text := by
  obtain ⟨n, c, v⟩ := e
  rfl

mutual

theorem ValueTree.unique : ∀ v : ValueTree, Unique ValueTree.lexemes 0 v
  | .var _ _ | .int _ _ | .float _ _ | .string _ _ => by
    intro b r s _ _ heq
    cases b <;> simp_all [ValueTree.lexemes, Place.lexeme_inj, NameTree.lexeme]
  | .name n => by
    intro b r s _ _ heq
    cases b with
    | name m =>
      obtain ⟨hn, rfl⟩ := List.cons.inj heq
      exact ⟨congrArg _ (NameTree.lexeme_inj.1 hn), rfl⟩
    | _ => simp [ValueTree.lexemes, NameTree.lexeme, Place.lexeme_inj] at heq
  | .list o vs c => by
    intro b r s _ _ heq
    cases b with
    | list p ws d =>
      simp only [ValueTree.lexemes, ValueTree.lexemesAll_eq, List.cons_append, List.append_assoc,
        List.nil_append, List.cons.injEq, Place.lexeme_inj] at heq
      obtain ⟨⟨rfl, -⟩, heq⟩ := heq
      obtain ⟨rfl, rfl, rfl⟩ := unique_closed
        (fun v r => ⟨Nat.zero_le _, (v.headToken_lexemes r).symm ▸ v.head_ne⟩)
        (Nat.zero_le _) (ValueTree.uniqueAll vs) heq
      exact ⟨rfl, rfl⟩
    | _ => simp [ValueTree.lexemes, NameTree.lexeme, Place.lexeme_inj] at heq
  | .object o es c => by
    intro b r s _ _ heq
    cases b with
    | object p fs d =>
      simp only [ValueTree.lexemes, EntryTree.lexemesAll_eq, List.cons_append, List.append_assoc,
        List.nil_append, List.cons.injEq, Place.lexeme_inj] at heq
      obtain ⟨⟨rfl, -⟩, heq⟩ := heq
      obtain ⟨rfl, rfl, rfl⟩ := unique_closed
        (fun e r => ⟨Nat.zero_le _, by simp [EntryTree.headToken_lexemes]⟩)
        (Nat.zero_le _) (EntryTree.uniqueAll es) heq
      exact ⟨rfl, rfl⟩
    | _ => simp [ValueTree.lexemes, NameTree.lexeme, Place.lexeme_inj] at heq

theorem ValueTree.uniqueAll : ∀ (vs : List ValueTree), ∀ v ∈ vs, Unique ValueTree.lexemes 0 v
  | [] => fun _ h => absurd h List.not_mem_nil
  | v :: vs => List.forall_mem_cons.2 ⟨ValueTree.unique v, ValueTree.uniqueAll vs⟩

theorem EntryTree.uniqueAll : ∀ (es : List EntryTree), ∀ e ∈ es, Unique EntryTree.lexemes 0 e
  | [] => fun _ h => absurd h List.not_mem_nil
  | e :: es => List.forall_mem_cons.2 ⟨EntryTree.unique e, EntryTree.uniqueAll es⟩

theorem EntryTree.unique : ∀ e : EntryTree, Unique EntryTree.lexemes 0 e
  | ⟨n, c, v⟩ => by
    intro ⟨m, d, w⟩ r s hr hs heq
    simp only [EntryTree.lexemes, List.cons_append, List.cons.injEq, NameTree.lexeme_inj,
      Place.lexeme_inj] at heq
    obtain ⟨rfl, ⟨rfl, -⟩, heq⟩ := heq
    obtain ⟨rfl, rfl⟩ := ValueTree.unique v w r s hr hs heq
    exact ⟨rfl, rfl⟩

end

theorem ArgumentsTree.beginsWith : BeginsWith ArgumentsTree.lexemes 3 := fun _ _ => rfl

theorem ArgumentsTree.unique (a : ArgumentsTree) : Unique ArgumentsTree.lexemes 0 a := by
  intro b r s _ _ heq
  obtain ⟨o, es, c⟩ := a
  obtain ⟨p, fs, d⟩ := b
  simp only [lexemes, List.cons_append, List.append_assoc, List.nil_append, List.cons.injEq,
    Place.lexeme_inj] at heq
  obtain ⟨⟨rfl, -⟩, heq⟩ := heq
  obtain ⟨rfl, rfl, rfl⟩ := unique_closed
    (fun e r => ⟨Nat.zero_le _, by simp [EntryTree.headToken_lexemes]⟩)
    (Nat.zero_le _) (fun e _ => e.unique) heq
  exact ⟨rfl, rfl⟩

theorem DirectiveTree.beginsWith : BeginsWith DirectiveTree.lexemes 4 := fun _ _ => rfl

theorem DirectiveTree.unique (d : DirectiveTree) : Unique DirectiveTree.lexemes 4 d := by
  intro e r s hr hs heq
  obtain ⟨p, n, a⟩ := d
  obtain ⟨q, m, b⟩ := e
  simp only [lexemes, List.cons_append, List.cons.injEq, Place.lexeme_inj,
    Token.directiveName.injEq] at heq
  obtain ⟨⟨rfl, rfl⟩, heq⟩ := heq
  obtain ⟨rfl, rfl⟩ := unique_optional ArgumentsTree.beginsWith (fun a _ => a.unique)
    (Nat.zero_le 4) (by omega) b r s hr hs heq
  exact ⟨rfl, rfl⟩

theorem unique_directives (ds : List DirectiveTree) :
    Unique (List.flatMap DirectiveTree.lexemes) 5 ds :=
  unique_flatMap DirectiveTree.beginsWith DirectiveTree.unique (Nat.le_refl 4) (by omega)
    (by omega) ds

theorem rank_directives (ds : List DirectiveTree) {r : List Lexeme}
    (hr : 4 ≤ (headToken r).rank) :
    4 ≤ (headToken (ds.flatMap DirectiveTree.lexemes ++ r)).rank :=
  le_rank_flatMap DirectiveTree.beginsWith (Nat.le_refl 4) ds hr

theorem SetTree.beginsWith : BeginsWith SetTree.lexemes 5 := by
  rintro ⟨_, _, _, _⟩ _
  rfl

theorem SetTree.headToken_lexemes (s : SetTree) (r : List Lexeme) :
    headToken (s.lexemes ++ r) = .braceOpen := by
  obtain ⟨o, x, xs, c⟩ := s
  rfl

theorem SetTree.rank (s : SetTree) (r : List Lexeme) : 5 ≤ (headToken (s.lexemes ++ r)).rank :=
  Nat.le_of_eq (SetTree.beginsWith s r).symm

theorem unique_tail {as bs : Option ArgumentsTree} {ds es : List DirectiveTree}
    {r s : List Lexeme} (hr : 5 ≤ (headToken r).rank) (hs : 5 ≤ (headToken s).rank)
    (heq : optionalLexemes ArgumentsTree.lexemes as ++ (ds.flatMap DirectiveTree.lexemes ++ r) =
      optionalLexemes ArgumentsTree.lexemes bs ++ (es.flatMap DirectiveTree.lexemes ++ s)) :
    as = bs ∧ ds = es ∧ r = s := by
  obtain ⟨rfl, hdirectives⟩ := unique_optional ArgumentsTree.beginsWith (fun a _ => a.unique)
    (Nat.zero_le 4) (by omega) bs _ _ (rank_directives ds (by omega))
    (rank_directives es (by omega)) heq
  obtain ⟨rfl, rfl⟩ := unique_directives ds es r s hr hs hdirectives
  exact ⟨rfl, rfl, rfl⟩

theorem unique_fieldName {a b : Option AliasTree} {m n : NameTree} {r s : List Lexeme}
    (hr : 3 ≤ (headToken r).rank) (hs : 3 ≤ (headToken s).rank)
    (heq : optionalLexemes AliasTree.lexemes a ++ m.lexeme :: r =
      optionalLexemes AliasTree.lexemes b ++ n.lexeme :: s) : a = b ∧ m = n ∧ r = s := by
  have hcolon : ∀ {r : List Lexeme} (p : Place) (t : List Lexeme), 3 ≤ (headToken r).rank →
      r ≠ p.lexeme .colon :: t := by
    rintro _ p t h rfl
    simp [headToken_lexeme, Token.rank] at h
  cases a with
  | none =>
    cases b with
    | none =>
      obtain ⟨hm, rfl⟩ := List.cons.inj heq
      exact ⟨rfl, NameTree.lexeme_inj.1 hm, rfl⟩
    | some b => exact absurd (List.cons.inj heq).2 (hcolon b.colon _ hr)
  | some a =>
    cases b with
    | none => exact absurd (List.cons.inj heq).2.symm (hcolon a.colon _ hs)
    | some b =>
      obtain ⟨a, c⟩ := a
      obtain ⟨b, d⟩ := b
      obtain ⟨ha, htail⟩ := List.cons.inj heq
      obtain ⟨hc, htail⟩ := List.cons.inj htail
      obtain ⟨hm, rfl⟩ := List.cons.inj htail
      obtain rfl := NameTree.lexeme_inj.1 ha
      obtain rfl := (Place.lexeme_inj.1 hc).1
      exact ⟨rfl, NameTree.lexeme_inj.1 hm, rfl⟩

theorem unique_condition {c d : ConditionTree} {r s : List Lexeme}
    (heq : c.lexemes ++ r = d.lexemes ++ s) : c = d ∧ r = s := by
  obtain ⟨p, n⟩ := c
  obtain ⟨q, m⟩ := d
  obtain ⟨hp, htail⟩ := List.cons.inj heq
  obtain ⟨hn, rfl⟩ := List.cons.inj htail
  obtain rfl := (Place.lexeme_inj.1 hp).1
  obtain rfl := NameTree.lexeme_inj.1 hn
  exact ⟨rfl, rfl⟩

theorem rank_inline (ds : List DirectiveTree) (s : SetTree) (r : List Lexeme) :
    (headToken (ds.flatMap DirectiveTree.lexemes ++ (s.lexemes ++ r))).rank ≤ 5 := by
  cases ds with
  | nil => exact Nat.le_of_eq (SetTree.beginsWith s r)
  | cons d ds =>
    rw [List.flatMap_cons, List.append_assoc]
    have hd := DirectiveTree.beginsWith d
      (ds.flatMap DirectiveTree.lexemes ++ (s.lexemes ++ r))
    omega

theorem headToken_inline (c : Option ConditionTree) (ds : List DirectiveTree) (s : SetTree)
    (r : List Lexeme) :
    let t := headToken (optionalLexemes ConditionTree.lexemes c
      ++ (ds.flatMap DirectiveTree.lexemes ++ (s.lexemes ++ r)))
    t = .name "on" ∨ (∃ n, t = .directiveName n) ∨ t = .braceOpen := by
  cases c with
  | some c => exact .inl rfl
  | none =>
    cases ds with
    | nil => exact .inr (.inr (s.headToken_lexemes r))
    | cons d ds => exact .inr (.inl ⟨d.name, rfl⟩)

theorem spread_ne_inline {n : NameTree} (hn : n.text ≠ "on") {c : Option ConditionTree}
    {ds : List DirectiveTree} {x : SetTree} {r s : List Lexeme} :
    n.lexeme :: r ≠
      optionalLexemes ConditionTree.lexemes c
        ++ (ds.flatMap DirectiveTree.lexemes ++ (x.lexemes ++ s)) := by
  intro heq
  cases c with
  | none =>
    have h := rank_inline ds x s
    have heq : n.lexeme :: r = ds.flatMap DirectiveTree.lexemes ++ (x.lexemes ++ s) := heq
    rw [← heq] at h
    simp [NameTree.lexeme, headToken_lexeme, Token.rank] at h
  | some c =>
    have h := (List.cons.inj heq).1
    exact hn (Token.name.inj (Place.lexeme_inj.1 h).2)

theorem unique_inline {c d : Option ConditionTree} {ds es : List DirectiveTree} {x y : SetTree}
    {r s : List Lexeme}
    (heq : optionalLexemes ConditionTree.lexemes c
        ++ (ds.flatMap DirectiveTree.lexemes ++ (x.lexemes ++ r)) =
      optionalLexemes ConditionTree.lexemes d
        ++ (es.flatMap DirectiveTree.lexemes ++ (y.lexemes ++ s))) :
    c = d ∧ ds = es ∧ x.lexemes ++ r = y.lexemes ++ s := by
  have hrank : ∀ (c : ConditionTree) (ds : List DirectiveTree) (x : SetTree) (t r : List Lexeme),
      c.lexemes ++ t ≠ ds.flatMap DirectiveTree.lexemes ++ (x.lexemes ++ r) := by
    intro c ds x t r h
    have hle := rank_inline ds x r
    rw [← h] at hle
    simp [ConditionTree.lexemes, headToken_lexeme, Token.rank] at hle
  suffices h : c = d ∧ ds.flatMap DirectiveTree.lexemes ++ (x.lexemes ++ r) =
      es.flatMap DirectiveTree.lexemes ++ (y.lexemes ++ s) by
    obtain ⟨rfl, h⟩ := h
    obtain ⟨rfl, htail⟩ := unique_directives ds es _ _ (x.rank r) (y.rank s) h
    exact ⟨rfl, rfl, htail⟩
  cases c with
  | none =>
    cases d with
    | none => exact ⟨rfl, heq⟩
    | some d => exact absurd heq.symm (hrank d ds x _ r)
  | some c =>
    cases d with
    | none => exact absurd heq (hrank c es y _ s)
    | some d =>
      obtain ⟨rfl, h⟩ := unique_condition heq
      exact ⟨rfl, h⟩

def SelectionTree.head : SelectionTree → Token
  | .field a n _ _ _ => .name ((a.map (·.name)).getD n).text
  | .spread _ _ _ _ | .inline _ _ _ _ => .ellipsis

theorem SelectionTree.headToken_lexemes (x : SelectionTree) (r : List Lexeme) :
    headToken (x.lexemes ++ r) = x.head := by
  cases x with
  | field a n as ds s => cases a <;> rfl
  | spread e n hn ds => rfl
  | inline e c ds s => rfl

theorem SelectionTree.lexemes_ne_nil (x : SelectionTree) : x.lexemes ≠ [] := by
  cases x <;> simp [lexemes]

theorem SelectionTree.rank (x : SelectionTree) (r : List Lexeme) :
    6 ≤ (headToken (x.lexemes ++ r)).rank ∧ headToken (x.lexemes ++ r) ≠ .braceClose := by
  rw [x.headToken_lexemes]
  cases x <;> simp [head, Token.rank]

theorem rank_selections (s : Option SetTree) {r : List Lexeme} (hr : 5 ≤ (headToken r).rank) :
    5 ≤ (headToken (optionalLexemes SetTree.lexemes s ++ r)).rank :=
  le_rank_optional SetTree.beginsWith (Nat.le_refl 5) s hr

theorem rank_tail (as : Option ArgumentsTree) (ds : List DirectiveTree) {r : List Lexeme}
    (hr : 5 ≤ (headToken r).rank) :
    3 ≤ (headToken (optionalLexemes ArgumentsTree.lexemes as
      ++ (ds.flatMap DirectiveTree.lexemes ++ r))).rank := by
  have hds := rank_directives ds (r := r) (by omega)
  exact le_rank_optional ArgumentsTree.beginsWith (Nat.le_refl 3) as (by omega)

mutual

theorem SelectionTree.unique : ∀ x : SelectionTree, Unique SelectionTree.lexemes 6 x
  | .field a n as ds s => by
    intro y r t hr ht heq
    have hhead := congrArg headToken heq
    rw [SelectionTree.headToken_lexemes, SelectionTree.headToken_lexemes] at hhead
    cases y with
    | field b m bs es u =>
      simp only [SelectionTree.lexemes, SetTree.lexemes?_eq, List.append_assoc,
        List.cons_append] at heq
      have hs := rank_selections s (r := r) (by omega)
      have hu := rank_selections u (r := t) (by omega)
      obtain ⟨rfl, rfl, htail⟩ := unique_fieldName (rank_tail as ds hs) (rank_tail bs es hu) heq
      obtain ⟨rfl, rfl, hset⟩ := unique_tail hs hu htail
      obtain ⟨rfl, rfl⟩ := unique_optional SetTree.beginsWith (SetTree.unique? s)
        (Nat.zero_le 6) (by omega) u r t hr ht hset
      exact ⟨rfl, rfl⟩
    | _ => simp [SelectionTree.head] at hhead
  | .spread e n hn ds => by
    intro y r t hr ht heq
    have hhead := congrArg headToken heq
    rw [SelectionTree.headToken_lexemes, SelectionTree.headToken_lexemes] at hhead
    cases y with
    | field b m bs es u => simp [SelectionTree.head] at hhead
    | spread f m hm es =>
      simp only [SelectionTree.lexemes, List.cons_append, List.cons.injEq, Place.lexeme_inj,
        NameTree.lexeme_inj] at heq
      obtain ⟨⟨rfl, -⟩, rfl, htail⟩ := heq
      obtain ⟨rfl, rfl⟩ := unique_directives ds es r t (by omega) (by omega) htail
      exact ⟨rfl, rfl⟩
    | inline f c es u =>
      simp only [SelectionTree.lexemes, List.cons_append, List.append_assoc, List.cons.injEq,
        Place.lexeme_inj] at heq
      exact absurd heq.2 (spread_ne_inline hn)
  | .inline e c ds s => by
    intro y r t hr ht heq
    have hhead := congrArg headToken heq
    rw [SelectionTree.headToken_lexemes, SelectionTree.headToken_lexemes] at hhead
    cases y with
    | field b m bs es u => simp [SelectionTree.head] at hhead
    | spread f m hm es =>
      simp only [SelectionTree.lexemes, List.cons_append, List.append_assoc, List.cons.injEq,
        Place.lexeme_inj] at heq
      exact absurd heq.2.symm (spread_ne_inline hm)
    | inline f d es u =>
      simp only [SelectionTree.lexemes, List.cons_append, List.append_assoc, List.cons.injEq,
        Place.lexeme_inj] at heq
      obtain ⟨⟨rfl, -⟩, htail⟩ := heq
      obtain ⟨rfl, rfl, hset⟩ := unique_inline htail
      obtain ⟨rfl, rfl⟩ := SetTree.unique s u r t (Nat.zero_le _) (Nat.zero_le _) hset
      exact ⟨rfl, rfl⟩

theorem SelectionTree.uniqueAll :
    ∀ xs : List SelectionTree, ∀ x ∈ xs, Unique SelectionTree.lexemes 6 x
  | [] => fun _ h => absurd h List.not_mem_nil
  | x :: xs => List.forall_mem_cons.2 ⟨SelectionTree.unique x, SelectionTree.uniqueAll xs⟩

theorem SetTree.unique : ∀ s : SetTree, Unique SetTree.lexemes 0 s
  | ⟨o, x, xs, c⟩ => by
    intro ⟨p, y, ys, d⟩ r t _ _ heq
    simp only [SetTree.lexemes, SelectionTree.lexemesAll_eq, ← List.flatMap_cons,
      List.cons_append, List.append_assoc, List.nil_append, List.cons.injEq,
      Place.lexeme_inj] at heq
    obtain ⟨⟨rfl, -⟩, htail⟩ := heq
    obtain ⟨hxs, rfl, rfl⟩ := unique_closed SelectionTree.rank (Nat.le_refl 6)
      (List.forall_mem_cons.2 ⟨SelectionTree.unique x, SelectionTree.uniqueAll xs⟩) htail
    obtain ⟨rfl, rfl⟩ := List.cons.inj hxs
    exact ⟨rfl, rfl⟩

theorem SetTree.unique? : ∀ s : Option SetTree, ∀ x ∈ s, Unique SetTree.lexemes 0 x
  | none => fun _ h => absurd h (Option.not_mem_none _)
  | some s => fun _ h => Option.mem_some_iff.1 h ▸ SetTree.unique s

end

theorem unique_lexeme {t : Token} {p q : Place} {r s : List Lexeme}
    (heq : p.lexeme t :: r = q.lexeme t :: s) : p = q ∧ r = s :=
  ⟨(Place.lexeme_inj.1 (List.cons.inj heq).1).1, (List.cons.inj heq).2⟩

theorem unique_exclam (x : Option Place) :
    Unique (optionalLexemes fun p : Place => [p.lexeme .exclam]) 1 x :=
  unique_optional (j := 0) (fun _ _ => rfl) (fun _ _ _ _ _ _ _ heq => unique_lexeme heq)
    (Nat.zero_le 1) (by omega)

theorem TypeTree.unique (t : TypeTree) : Unique TypeTree.lexemes 1 t := by
  induction t with
  | named n x =>
    intro u r s hr hs heq
    cases u with
    | named m y =>
      obtain ⟨hn, htail⟩ := List.cons.inj heq
      obtain rfl := NameTree.lexeme_inj.1 hn
      obtain ⟨rfl, rfl⟩ := unique_exclam x y r s hr hs htail
      exact ⟨rfl, rfl⟩
    | list o t c y => simp [lexemes, NameTree.lexeme, Place.lexeme_inj] at heq
  | list o t c x ih =>
    intro u r s hr hs heq
    cases u with
    | named m y => simp [lexemes, NameTree.lexeme, Place.lexeme_inj] at heq
    | list p u d y =>
      simp only [lexemes, List.cons_append, List.append_assoc] at heq
      obtain ⟨rfl, hitem⟩ := unique_lexeme heq
      obtain ⟨rfl, hclose⟩ := ih u _ _ (by simp [headToken_lexeme, Token.rank])
        (by simp [headToken_lexeme, Token.rank]) hitem
      obtain ⟨rfl, htail⟩ := unique_lexeme hclose
      obtain ⟨rfl, rfl⟩ := unique_exclam x y r s hr hs htail
      exact ⟨rfl, rfl⟩

theorem DefaultTree.beginsWith : BeginsWith DefaultTree.lexemes 1 := fun _ _ => rfl

theorem DefaultTree.unique (d : DefaultTree) : Unique DefaultTree.lexemes 0 d := by
  intro e r s hr hs heq
  obtain ⟨p, v, hv⟩ := d
  obtain ⟨q, w, hw⟩ := e
  obtain ⟨rfl, htail⟩ := unique_lexeme heq
  obtain ⟨rfl, rfl⟩ := v.unique w r s hr hs htail
  exact ⟨rfl, rfl⟩

theorem VariableTree.unique (v : VariableTree) : Unique VariableTree.lexemes 5 v := by
  intro w r s hr hs heq
  obtain ⟨p, n, c, t, x, ds⟩ := v
  obtain ⟨q, m, d, u, y, es⟩ := w
  simp only [lexemes, List.cons_append, List.append_assoc, List.cons.injEq, Place.lexeme_inj,
    Token.variableName.injEq] at heq
  obtain ⟨⟨rfl, rfl⟩, ⟨rfl, -⟩, htype⟩ := heq
  have hds := rank_directives ds (r := r) (by omega)
  have hes := rank_directives es (r := s) (by omega)
  obtain ⟨rfl, hdefault⟩ := t.unique u _ _
    (le_rank_optional DefaultTree.beginsWith (Nat.le_refl 1) x (by omega))
    (le_rank_optional DefaultTree.beginsWith (Nat.le_refl 1) y (by omega)) htype
  obtain ⟨rfl, hdirectives⟩ := unique_optional DefaultTree.beginsWith (fun d _ => d.unique)
    (Nat.zero_le 4) (by omega) y _ _ hds hes hdefault
  obtain ⟨rfl, rfl⟩ := unique_directives ds es r s hr hs hdirectives
  exact ⟨rfl, rfl⟩

theorem VariablesTree.beginsWith : BeginsWith VariablesTree.lexemes 3 := fun _ _ => rfl

theorem VariablesTree.unique (v : VariablesTree) : Unique VariablesTree.lexemes 0 v := by
  intro w r s _ _ heq
  obtain ⟨o, x, xs, c⟩ := v
  obtain ⟨p, y, ys, d⟩ := w
  simp only [lexemes, ← List.flatMap_cons, List.cons_append, List.append_assoc,
    List.nil_append] at heq
  obtain ⟨rfl, htail⟩ := unique_lexeme heq
  obtain ⟨hxs, rfl, rfl⟩ := unique_closed (k := 5)
    (fun v r => by simp [VariableTree.lexemes, headToken_lexeme, Token.rank])
    (by simp [Token.rank]) (fun v _ => v.unique) htail
  obtain ⟨rfl, rfl⟩ := List.cons.inj hxs
  exact ⟨rfl, rfl⟩

theorem OperationKind.name_inj {k l : OperationKind} (h : k.name = l.name) : k = l := by
  cases k <;> cases l <;> simp_all [name]

theorem OperationKind.name_ne (k : OperationKind) : k.name ≠ "fragment" := by
  cases k <;> simp [name]

theorem unique_operationName {m n : Option NameTree} {r s : List Lexeme}
    (hr : (headToken r).rank ≤ 5) (hs : (headToken s).rank ≤ 5)
    (heq : optionalLexemes (fun n : NameTree => [n.lexeme]) m ++ r =
      optionalLexemes (fun n : NameTree => [n.lexeme]) n ++ s) : m = n ∧ r = s := by
  have hname : ∀ (n : NameTree) {r s : List Lexeme}, (headToken r).rank ≤ 5 →
      r ≠ n.lexeme :: s := by
    rintro n _ s h rfl
    simp [NameTree.lexeme, headToken_lexeme, Token.rank] at h
  cases m with
  | none =>
    cases n with
    | none => exact ⟨rfl, heq⟩
    | some n => exact absurd heq (hname n hr)
  | some m =>
    cases n with
    | none => exact absurd heq.symm (hname m hs)
    | some n =>
      obtain ⟨hm, rfl⟩ := List.cons.inj heq
      exact ⟨congrArg some (NameTree.lexeme_inj.1 hm), rfl⟩

theorem rank_operation (v : Option VariablesTree) (ds : List DirectiveTree) (s : SetTree)
    (r : List Lexeme) :
    (headToken (optionalLexemes VariablesTree.lexemes v
      ++ (ds.flatMap DirectiveTree.lexemes ++ (s.lexemes ++ r)))).rank ≤ 5 := by
  cases v with
  | none => exact rank_inline ds s r
  | some v =>
    have h : (headToken (optionalLexemes VariablesTree.lexemes (some v)
        ++ (ds.flatMap DirectiveTree.lexemes ++ (s.lexemes ++ r)))).rank = 3 :=
      VariablesTree.beginsWith v _
    omega

namespace DefinitionTree

def head : DefinitionTree → Token
  | .query _ => .braceOpen
  | .operation _ k _ _ _ _ => .name k.name
  | .fragment _ _ _ _ _ => .name "fragment"

theorem headToken_lexemes (d : DefinitionTree) (r : List Lexeme) :
    headToken (d.lexemes ++ r) = d.head := by
  cases d with
  | query s =>
    obtain ⟨o, x, xs, c⟩ := s
    rfl
  | _ => rfl

theorem lexemes_ne_nil (d : DefinitionTree) : d.lexemes ≠ [] := by
  intro h
  have hhead := d.headToken_lexemes []
  rw [h] at hhead
  cases d <;> simp [headToken, head] at hhead

theorem unique (d : DefinitionTree) : Unique DefinitionTree.lexemes 0 d := by
  intro e r t _ _ heq
  have hhead := congrArg headToken heq
  rw [headToken_lexemes, headToken_lexemes] at hhead
  cases d with
  | query s =>
    cases e with
    | query u =>
      obtain ⟨rfl, rfl⟩ := s.unique u r t (Nat.zero_le _) (Nat.zero_le _) heq
      exact ⟨rfl, rfl⟩
    | _ => simp [head] at hhead
  | operation p k n vs ds s =>
    cases e with
    | query u => simp [head] at hhead
    | operation q l m ws es u =>
      obtain rfl := OperationKind.name_inj (Token.name.inj hhead)
      simp only [lexemes, List.cons_append, List.append_assoc] at heq
      obtain ⟨rfl, hname⟩ := unique_lexeme heq
      obtain ⟨rfl, hvariables⟩ := unique_operationName (rank_operation vs ds s r)
        (rank_operation ws es u t) hname
      obtain ⟨rfl, hdirectives⟩ := unique_optional VariablesTree.beginsWith
        (fun v _ => v.unique) (Nat.zero_le 4) (by omega) ws _ _
        (rank_directives ds (Nat.le_trans (by omega) (s.rank r)))
        (rank_directives es (Nat.le_trans (by omega) (u.rank t))) hvariables
      obtain ⟨rfl, hset⟩ := unique_directives ds es _ _ (s.rank r) (u.rank t) hdirectives
      obtain ⟨rfl, rfl⟩ := s.unique u r t (Nat.zero_le _) (Nat.zero_le _) hset
      exact ⟨rfl, rfl⟩
    | fragment q m c es u => exact absurd (Token.name.inj hhead) k.name_ne
  | fragment p n c ds s =>
    cases e with
    | query u => simp [head] at hhead
    | operation q k m ws es u => exact absurd (Token.name.inj hhead).symm k.name_ne
    | fragment q m d es u =>
      simp only [lexemes, List.cons_append, List.append_assoc] at heq
      obtain ⟨rfl, htail⟩ := unique_lexeme heq
      obtain ⟨hn, hcondition⟩ := List.cons.inj htail
      obtain rfl := NameTree.lexeme_inj.1 hn
      obtain ⟨rfl, hdirectives⟩ := unique_condition hcondition
      obtain ⟨rfl, hset⟩ := unique_directives ds es _ _ (s.rank r) (u.rank t) hdirectives
      obtain ⟨rfl, rfl⟩ := s.unique u r t (Nat.zero_le _) (Nat.zero_le _) hset
      exact ⟨rfl, rfl⟩

end DefinitionTree

/-- The grammar is not ambiguous. -/
theorem DocumentTree.lexemes_injective {d e : DocumentTree} (h : d.lexemes = e.lexemes) :
    d = e := by
  have hne : ∀ (x : DefinitionTree) (r : List Lexeme), x.lexemes ++ r ≠ [] :=
    fun x r hnil => x.lexemes_ne_nil (List.append_eq_nil_iff.1 hnil).1
  induction d generalizing e with
  | nil =>
    cases e with
    | nil => rfl
    | cons y e => exact absurd h.symm (hne y _)
  | cons x d ih =>
    cases e with
    | nil => exact absurd h (hne x _)
    | cons y e =>
      obtain ⟨rfl, htail⟩ := x.unique y _ _ (Nat.zero_le _) (Nat.zero_le _) h
      rw [ih htail]

end GraphQLCheck
