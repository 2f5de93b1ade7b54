import GraphQLCheck.Proofs.Document.Parsing

/-!
How a document may go on where reading it fails. What a reader has taken up to the token that does
not fit are the first tokens of a tree of its kind, and the tree goes on with fillers, a few tokens
that are the same for every document (`Completes`). A sequence completes if each of its steps does,
as the steps before it were read as parts of the tree and those behind it are filled.
-/
namespace GraphQLCheck
open Reader

def fillers : List Token :=
  [.name "a", .name "on", .colon, .integer "0", .variableName "a", .directiveName "a", .parenClose,
    .bracketOpen, .bracketClose, .braceOpen, .braceClose]

def Filled (ls : List Lexeme) : Prop := ∀ l ∈ ls, l.token ∈ fillers

instance (ls : List Lexeme) : Decidable (Filled ls) :=
  inferInstanceAs (Decidable (∀ l ∈ ls, l.token ∈ fillers))

theorem filled_append {ls rs : List Lexeme} (hls : Filled ls) (hrs : Filled rs) :
    Filled (ls ++ rs) :=
  List.forall_mem_append.2 ⟨hls, hrs⟩

/-- What is taken between two cursors begins a sequence that goes on with fillers. -/
def Begins (c d : Cursor) (ls : List Lexeme) : Prop :=
  ∃ taken more, ls = taken ++ more ∧ Filled more ∧ c = d.before (taken ++ d.ahead)

def Place.filler : Place := ⟨⟨0, 0⟩, .first⟩

namespace Begins

variable {c d m : Cursor} {ls rs : List Lexeme}

theorem of_filled (h : Filled ls) (c : Cursor) : Begins c c ls := ⟨[], ls, rfl, h, rfl⟩

theorem append (h : Begins c d ls) (hrs : Filled rs) : Begins c d (ls ++ rs) := by
  obtain ⟨taken, more, rfl, hmore, hc⟩ := h
  exact ⟨taken, more ++ rs, List.append_assoc _ _ _, filled_append hmore hrs, hc⟩

theorem close (h : Begins c d ls) {t : Token} (ht : t ∈ fillers) :
    Begins c d (ls ++ [Place.filler.lexeme t]) :=
  h.append (List.forall_mem_singleton.2 ht)

theorem behind (h : Begins c d ls) (front : List Lexeme) :
    Begins (c.before (front ++ c.ahead)) d (front ++ ls) := by
  obtain ⟨taken, more, rfl, hmore, rfl⟩ := h
  exact ⟨front ++ taken, more, (List.append_assoc _ _ _).symm, hmore, by simp⟩

theorem behind_of (h : Begins m d ls) (front : List Lexeme)
    (hc : c = m.before (front ++ m.ahead)) (hrs : rs = front ++ ls) : Begins c d rs :=
  hc ▸ hrs ▸ h.behind front

end Begins

/-- The tokens that are taken before the reader fails begin a tree that satisfies `p`, and fillers
complete it. -/
def Completes {ε α τ : Type} (r : Reader ε α) (lexemes : τ → List Lexeme) (p : τ → Prop) : Prop :=
  ∀ c e d, r c = .failed e d → ∃ t, p t ∧ Begins c d (lexemes t)

namespace Reader

section
variable {ε α β τ : Type} {r : Reader ε α} {c d : Cursor} {e : ε}
  {lexemes : τ → List Lexeme} {value : Bool → τ → α} {p : τ → Prop}

theorem step_failed {f : α → Reader ε β} (hsound : Sound r lexemes value p)
    (hcompletes : Completes r lexemes p) (h : (r >>= f) c = .failed e d) :
    (∃ t, p t ∧ Begins c d (lexemes t)) ∨
      ∃ t m, p t ∧ c = m.before (lexemes t ++ m.ahead) ∧
        f (value m.tracked t) m = .failed e d := by
  obtain h | ⟨a, m, ha, h⟩ := bind_eq_failed.1 h
  · exact .inl (hcompletes _ _ _ h)
  · obtain ⟨t, ht, hc, rfl⟩ := hsound _ _ _ ha
    exact .inr ⟨t, m, ht, hc, h⟩

theorem take_bind_failed {accept : Token → Option α} {reason : Token → ε} {f : α → Reader ε β}
    (hfinish : accept .finish = none) (h : (take accept reason >>= f) c = .failed e d) :
    c = d ∨ ∃ (q : Place) (t : Token) (a : α) (m : Cursor), accept t = some a ∧
      c = m.before (q.lexeme t :: m.ahead) ∧ f a m = .failed e d := by
  obtain h | ⟨a, m, ha, h⟩ := bind_eq_failed.1 h
  · exact .inl (take_eq_failed h)
  · obtain ⟨q, t, ht, hc⟩ := (take_eq_done hfinish).1 ha
    exact .inr ⟨q, t, a, m, ht, hc, h⟩

theorem takeName_bind_failed {reason : ε} {f : String → Reader ε β}
    (h : (takeName reason >>= f) c = .failed e d) :
    c = d ∨ ∃ (text : String) (q : Place) (m : Cursor),
      c = m.before (q.lexeme (.name text) :: m.ahead) ∧ f text m = .failed e d := by
  obtain h | ⟨text, m, hname, h⟩ := bind_eq_failed.1 h
  · exact .inl (take_eq_failed h)
  · obtain ⟨q, hc⟩ := takeName_eq_done.1 hname
    exact .inr ⟨text, q, m, hc, h⟩

theorem expect_bind_failed {t : Token} {reason : ε} {f : Unit → Reader ε β} (ht : t ≠ .finish)
    (h : (expect t reason >>= f) c = .failed e d) :
    c = d ∨ ∃ (q : Place) (m : Cursor), c = m.before (q.lexeme t :: m.ahead) ∧
      f () m = .failed e d := by
  obtain h | ⟨_, m, hexpect, h⟩ := bind_eq_failed.1 h
  · exact .inl (take_eq_failed h)
  · obtain ⟨q, hc⟩ := (expect_eq_done ht).1 hexpect
    exact .inr ⟨q, m, hc, h⟩

theorem optional_bind_failed {t : Token} {present absent : Reader ε α} (ht : t ≠ .finish)
    (h : (optional t >>= fun b => if b = true then present else absent) c = .failed e d) :
    (∃ (q : Place) (m : Cursor), c = m.before (q.lexeme t :: m.ahead) ∧
      present m = .failed e d) ∨ absent c = .failed e d := by
  obtain h | ⟨b, m, hb, h⟩ := bind_eq_failed.1 h
  · by_cases hpeek : c.peek = t
    · simp [optional, hpeek] at h
    · simp [optional, hpeek] at h
  obtain ⟨rfl, q, hc⟩ | ⟨rfl, -, rfl⟩ := (optional_eq_done ht).1 hb
  · exact .inl ⟨q, m, hc, h⟩
  · exact .inr h

variable {item : Reader ε α} (hsound : Sound item lexemes value p)
  (hitem : Completes item lexemes p)
include hsound hitem

theorem completes_itemsWithin (go : Token → Bool) (n : Nat) :
    Completes (itemsWithin go item n) (List.flatMap lexemes) (fun ts => ∀ t ∈ ts, p t) := by
  induction n with
  | zero => exact fun _ _ _ h => absurd h nofun
  | succ n ih =>
    intro c e d h
    rw [itemsWithin, bind_done peek_apply] at h
    by_cases hgo : go c.peek = true
    · rw [if_pos hgo] at h
      obtain ⟨t, ht, hbegins⟩ | ⟨t, m, ht, rfl, hm⟩ := step_failed hsound hitem h
      · exact ⟨[t], by simpa using ht, by simpa using hbegins⟩
      · obtain ⟨ts, hts, hbegins⟩ := ih _ _ _ (bind_pure_eq_failed.1 hm)
        exact ⟨t :: ts, List.forall_mem_cons.2 ⟨ht, hts⟩, hbegins.behind (lexemes t)⟩
    · rw [if_neg hgo] at h
      exact absurd h pure_ne_failed

theorem completes_itemsUntil (close : Token) :
    Completes (itemsUntil close item) (List.flatMap lexemes) (fun ts => ∀ t ∈ ts, p t) := by
  intro c e d h
  obtain h | ⟨as, m, -, h⟩ := bind_eq_failed.1 h
  · exact completes_itemsWithin hsound hitem _ _ _ _ _ h
  · exact absurd h skip_pure_ne_failed

theorem completes_itemsUntil₁ {close : Token} (h : itemsUntil₁ close item c = .failed e d) :
    ∃ t ts, (∀ u ∈ t :: ts, p u) ∧ Begins c d ((t :: ts).flatMap lexemes) := by
  obtain ⟨t, ht, hbegins⟩ | ⟨t, m, ht, rfl, hm⟩ := step_failed hsound hitem h
  · exact ⟨t, [], by simpa using ht, by simpa using hbegins⟩
  · obtain ⟨ts, hts, hbegins⟩ :=
      completes_itemsUntil hsound hitem _ _ _ _ (bind_pure_eq_failed.1 hm)
    exact ⟨t, ts, List.forall_mem_cons.2 ⟨ht, hts⟩, hbegins.behind (lexemes t)⟩

end

end Reader

def NameTree.filler : NameTree := ⟨"a", .filler⟩

def ValueTree.filler : ValueTree := .int .filler "0"

def EntryTree.filler : EntryTree := ⟨.filler, .filler, .filler⟩

def SelectionTree.filler : SelectionTree := .field none .filler none [] none

def SetTree.filler : SetTree := ⟨.filler, .filler, [], .filler⟩

def TypeTree.filler : TypeTree := .named .filler none

theorem filled_name : Filled [NameTree.filler.lexeme] := by decide

theorem SetTree.filled : Filled SetTree.filler.lexemes := by decide

theorem readName_eq_failed {c d : Cursor} {e : NodeKind} (h : readName c = .failed e d) :
    c = d := by
  rw [readName, bind_done mark_apply, bind_pure_eq_failed] at h
  exact take_eq_failed h

theorem readName_bind_failed {α : Type} {f : Name → NodeReader α} {c d : Cursor} {e : NodeKind}
    (h : (readName >>= f) c = .failed e d) :
    c = d ∨ ∃ (n : NameTree) (m : Cursor), c = m.before (n.lexeme :: m.ahead) ∧
      f (n.name m.tracked) m = .failed e d := by
  obtain h | ⟨_, m, hname, h⟩ := bind_eq_failed.1 h
  · exact .inl (readName_eq_failed h)
  · obtain ⟨n, hc, rfl⟩ := sound_readName _ _ _ hname
    exact .inr ⟨n, m, hc, h⟩

namespace Value

section
variable {value : NodeReader Value} {p : ValueTree → Prop}
  (hsound : Sound value ValueTree.lexemes ValueTree.value p) (hfiller : p .filler)
  (hvalue : Completes value ValueTree.lexemes p)

include hfiller hvalue in
theorem completes_readEntry (kind : NodeKind) :
    Completes (readEntry kind value) EntryTree.lexemes (fun e => p e.value) := by
  intro c e d h
  rw [readEntry, bind_done mark_apply] at h
  obtain rfl | ⟨text, n, m, rfl, h₁⟩ := takeName_bind_failed h
  · exact ⟨.filler, hfiller, .of_filled (by decide) c⟩
  obtain rfl | ⟨q, m, rfl, h₂⟩ := expect_bind_failed (by decide) h₁
  · have hrest : Filled (Place.filler.lexeme .colon :: ValueTree.filler.lexemes) := by decide
    exact ⟨⟨⟨text, n⟩, .filler, .filler⟩, hfiller, (Begins.of_filled hrest m).behind [n.lexeme _]⟩
  obtain ⟨v, hv, hbegins⟩ := hvalue _ _ _ (bind_pure_eq_failed.1 h₂)
  exact ⟨⟨⟨text, n⟩, q, v⟩, hv, hbegins.behind [n.lexeme _, q.lexeme .colon]⟩

include hsound hvalue in
theorem completes_readListOf {c d : Cursor} {e : NodeKind}
    (h : readListOf value c = .failed e d) :
    ∃ o vs q, (∀ v ∈ vs, p v) ∧ Begins c d (ValueTree.list o vs q).lexemes := by
  rw [readListOf, bind_done mark_apply] at h
  obtain rfl | ⟨o, m, rfl, hm⟩ := expect_bind_failed (by decide) h
  · have hlist : Filled (ValueTree.list .filler [] .filler).lexemes := by decide
    exact ⟨.filler, [], .filler, by simp, .of_filled hlist c⟩
  obtain ⟨vs, hvs, hbegins⟩ :=
    completes_itemsUntil hsound hvalue _ _ _ _ (bind_pure_eq_failed.1 hm)
  refine ⟨o, vs, .filler, hvs, ?_⟩
  rw [ValueTree.lexemes, ValueTree.lexemesAll_eq]
  exact (hbegins.close (by decide)).behind [o.lexeme .bracketOpen]

include hsound hfiller hvalue in
theorem completes_readObjectOf {c d : Cursor} {e : NodeKind}
    (h : readObjectOf value c = .failed e d) :
    ∃ o es q, (∀ x ∈ es, p (EntryTree.value x)) ∧
      Begins c d (ValueTree.object o es q).lexemes := by
  have hfield : Completes (readObjectField value) EntryTree.lexemes (fun e => p e.value) :=
    fun c e d h => completes_readEntry hfiller hvalue _ _ _ _ (bind_pure_eq_failed.1 h)
  rw [readObjectOf, bind_done mark_apply] at h
  obtain rfl | ⟨o, m, rfl, hm⟩ := expect_bind_failed (by decide) h
  · have hobject : Filled (ValueTree.object .filler [] .filler).lexemes := by decide
    exact ⟨.filler, [], .filler, by simp, .of_filled hobject c⟩
  obtain ⟨es, hes, hbegins⟩ :=
    completes_itemsUntil (sound_readObjectField hsound) hfield _ _ _ _ (bind_pure_eq_failed.1 hm)
  refine ⟨o, es, .filler, hes, ?_⟩
  rw [ValueTree.lexemes, EntryTree.lexemesAll_eq]
  exact (hbegins.close (by decide)).behind [o.lexeme .braceOpen]

end

theorem admits_filler (constant : Bool) : Admits constant .filler := fun _ => rfl

theorem completes_readWithin (constant : Bool) (n : Nat) :
    Completes (readWithin constant n) ValueTree.lexemes (Admits constant) := by
  induction n with
  | zero => exact fun _ _ _ h => absurd h nofun
  | succ n ih =>
    intro c e d h
    have hfail : c = d → ∃ t, Admits constant t ∧ Begins c d t.lexemes := by
      rintro rfl
      exact ⟨.filler, admits_filler constant, .of_filled (by decide) c⟩
    rw [readWithin, bind_done mark_apply, bind_done peek_apply] at h
    cases hpeek : c.peek with
    | variableName name =>
      simp only [hpeek] at h
      by_cases hconstant : constant = true
      · rw [if_pos hconstant] at h
        exact hfail (fail_eq_failed h)
      · rw [if_neg hconstant] at h
        exact absurd h skip_pure_ne_failed
    | bracketOpen =>
      simp only [hpeek] at h
      obtain ⟨o, vs, q, hvs, hbegins⟩ :=
        completes_readListOf (sound_readWithin constant n) ih h
      refine ⟨.list o vs q, fun hconstant => ?_, hbegins⟩
      rw [ValueTree.isConstant, ValueTree.allConstant_eq, List.all_eq_true]
      exact fun v hv => hvs v hv hconstant
    | braceOpen =>
      simp only [hpeek] at h
      obtain ⟨o, es, q, hes, hbegins⟩ :=
        completes_readObjectOf (sound_readWithin constant n) (admits_filler constant) ih h
      refine ⟨.object o es q, fun hconstant => ?_, hbegins⟩
      rw [ValueTree.isConstant, EntryTree.allConstant_eq, List.all_eq_true]
      exact fun x hx => x.isConstant_eq ▸ hes x hx hconstant
    | name text | float text | integer text | string text =>
      simp only [hpeek] at h
      exact absurd h skip_pure_ne_failed
    | _ =>
      simp only [hpeek] at h
      exact hfail (fail_eq_failed h)

theorem completes_read (constant : Bool) :
    Completes (read constant) ValueTree.lexemes (Admits constant) :=
  fun c => completes_readWithin constant _ c

end Value

theorem completes_readArgument :
    Completes readArgument EntryTree.lexemes (Value.Admits false ∘ (·.value)) :=
  fun _ _ _ h => Value.completes_readEntry (Value.admits_filler false) (Value.completes_read false)
    _ _ _ _ (bind_pure_eq_failed.1 h)

theorem completes_readArguments :
    Completes readArguments (optionalLexemes ArgumentsTree.lexemes) Always := by
  intro c e d h
  obtain ⟨o, m, rfl, hm⟩ | hm := optional_bind_failed (by decide) h
  · obtain ⟨es, -, hbegins⟩ :=
      completes_itemsUntil sound_readArgument completes_readArgument _ _ _ _ hm
    exact ⟨some ⟨o, es, .filler⟩, trivial,
      (hbegins.close (by decide)).behind [o.lexeme .parenOpen]⟩
  · exact absurd hm pure_ne_failed

theorem completes_readDirective : Completes readDirective DirectiveTree.lexemes Always := by
  intro c e d h
  rw [readDirective, bind_done mark_apply] at h
  obtain rfl | ⟨q, t, name, m, ht, rfl, hm⟩ := take_bind_failed rfl h
  · exact ⟨⟨.filler, "a", none⟩, trivial, .of_filled (by decide) c⟩
  obtain ⟨as, -, hbegins⟩ := completes_readArguments _ _ _ (bind_pure_eq_failed.1 hm)
  cases t with
  | directiveName n => exact ⟨⟨q, n, as⟩, trivial, hbegins.behind [q.lexeme (.directiveName n)]⟩
  | _ => simp at ht

theorem completes_readDirectives :
    Completes readDirectives (List.flatMap DirectiveTree.lexemes) Always := by
  intro c e d h
  obtain ⟨ds, -, hbegins⟩ :=
    completes_itemsWithin sound_readDirective completes_readDirective _ _ _ _ _ h
  exact ⟨ds, trivial, hbegins⟩

theorem requireBrace_bind_failed {α : Type} {kind e : NodeKind} {f : Unit → NodeReader α}
    {c d : Cursor} (h : (requireBrace kind >>= f) c = .failed e d) :
    c = d ∨ f () c = .failed e d := by
  obtain h | ⟨_, m, hbrace, h⟩ := bind_eq_failed.1 h
  · rw [requireBrace, bind_done peek_apply] at h
    by_cases hpeek : c.peek = .braceOpen
    · rw [if_pos hpeek] at h
      exact absurd h pure_ne_failed
    · rw [if_neg hpeek] at h
      exact .inl (fail_eq_failed h)
  · obtain ⟨-, rfl⟩ := requireBrace_eq_done.1 hbrace
    exact .inr h

theorem completes_directivesAndSet {α : Type} {kind e : NodeKind} {c d : Cursor}
    {set : NodeReader (List Selection)} (hset : Completes set SetTree.lexemes Always)
    {f : List Directive → List Selection → α}
    (h : (do
      let directives ← readDirectives
      requireBrace kind
      let selections ← set
      pure (f directives selections) : NodeReader α) c = .failed e d) :
    ∃ (ds : List DirectiveTree) (s : SetTree),
      Begins c d (ds.flatMap DirectiveTree.lexemes ++ s.lexemes) := by
  obtain ⟨ds, -, hbegins⟩ | ⟨ds, m, -, rfl, h₁⟩ :=
    step_failed sound_readDirectives completes_readDirectives h
  · exact ⟨ds, .filler, hbegins.append SetTree.filled⟩
  obtain rfl | h₂ := requireBrace_bind_failed h₁
  · exact ⟨ds, .filler, (Begins.of_filled SetTree.filled m).behind _⟩
  obtain ⟨s, -, hbegins⟩ := hset _ _ _ (bind_pure_eq_failed.1 h₂)
  exact ⟨ds, s, hbegins.behind _⟩

namespace Selection

theorem completes_readFieldName {c d : Cursor} {e : NodeKind}
    (h : readFieldName c = .failed e d) :
    ∃ (a : Option AliasTree) (n : NameTree),
      Begins c d (optionalLexemes AliasTree.lexemes a ++ [n.lexeme]) := by
  obtain rfl | ⟨first, q, m, rfl, h₁⟩ := takeName_bind_failed h
  · exact ⟨none, .filler, .of_filled filled_name c⟩
  obtain ⟨colon, m, rfl, h₂⟩ | h₂ := optional_bind_failed (by decide) h₁
  · obtain rfl := take_eq_failed (bind_pure_eq_failed.1 h₂)
    exact ⟨some ⟨⟨first, q⟩, colon⟩, .filler,
      (Begins.of_filled filled_name m).behind [q.lexeme (.name first), colon.lexeme .colon]⟩
  · exact absurd h₂ pure_ne_failed

section
variable {set : NodeReader (List Selection)} (hset : Completes set SetTree.lexemes Always)

include hset in
theorem completes_readFieldWith :
    Completes (readFieldWith set) SelectionTree.lexemes Always := by
  intro c e d h
  rw [readFieldWith, bind_done mark_apply] at h
  obtain h | ⟨⟨x, y⟩, m, hname, h₁⟩ := bind_eq_failed.1 h
  · obtain ⟨a, name, hbegins⟩ := completes_readFieldName h
    refine ⟨.field a name none [] none, trivial, hbegins.behind_of [] rfl ?_⟩
    simp [SelectionTree.lexemes, SetTree.lexemes?, optionalLexemes]
  obtain ⟨a, name, rfl, -⟩ := sound_readFieldName hname
  obtain ⟨as, -, hbegins⟩ | ⟨as, m, -, rfl, h₂⟩ :=
    step_failed sound_readArguments completes_readArguments h₁
  · refine ⟨.field a name as [] none, trivial,
      hbegins.behind_of (optionalLexemes AliasTree.lexemes a ++ [name.lexeme]) (by simp) ?_⟩
    simp [SelectionTree.lexemes, SetTree.lexemes?]
  obtain ⟨ds, -, hbegins⟩ | ⟨ds, m, -, rfl, h₃⟩ :=
    step_failed sound_readDirectives completes_readDirectives h₂
  · refine ⟨.field a name as ds none, trivial, hbegins.behind_of
      (optionalLexemes AliasTree.lexemes a
        ++ name.lexeme :: optionalLexemes ArgumentsTree.lexemes as) (by simp) ?_⟩
    simp [SelectionTree.lexemes, SetTree.lexemes?]
  obtain ⟨s, -, hbegins⟩ := hset _ _ _ (bind_pure_eq_failed.1 h₃)
  refine ⟨.field a name as ds (some s), trivial, hbegins.behind_of
    (optionalLexemes AliasTree.lexemes a ++ name.lexeme ::
      (optionalLexemes ArgumentsTree.lexemes as ++ ds.flatMap DirectiveTree.lexemes))
    (by simp) ?_⟩
  simp [SelectionTree.lexemes, SetTree.lexemes?]

theorem completes_readSpreadFrom {loc : Option Location} {c d : Cursor} {e : NodeKind}
    (h : readSpreadFrom loc c = .failed e d) :
    ∃ (name : NameTree) (ds : List DirectiveTree), name.text ≠ "on" ∧
      Begins c d (name.lexeme :: ds.flatMap DirectiveTree.lexemes) := by
  have hfail : c = d → ∃ (name : NameTree) (ds : List DirectiveTree), name.text ≠ "on" ∧
      Begins c d (name.lexeme :: ds.flatMap DirectiveTree.lexemes) := by
    rintro rfl
    exact ⟨.filler, [], by decide, .of_filled filled_name c⟩
  rw [readSpreadFrom, bind_done peek_apply] at h
  by_cases hon : c.peek = .name "on"
  · rw [if_pos hon] at h
    exact hfail (fail_eq_failed h)
  rw [if_neg hon, bind_done peek_apply] at h
  cases hpeek : c.peek with
  | name text =>
    simp only [hpeek] at h
    obtain hd | ⟨name, m, rfl, hm⟩ := readName_bind_failed h
    · exact hfail hd
    obtain ⟨ds, -, hbegins⟩ := completes_readDirectives _ _ _ (bind_pure_eq_failed.1 hm)
    refine ⟨name, ds, fun htext => hon ?_, hbegins.behind [name.lexeme]⟩
    rw [Cursor.peek_before, NameTree.lexeme, headToken_lexeme, htext]
  | _ =>
    simp only [hpeek] at h
    exact hfail (fail_eq_failed h)

include hset

theorem completes_readInlineFrom {loc : Option Location} {c d : Cursor} {e : NodeKind}
    (h : readInlineFrom set loc c = .failed e d) :
    ∃ (t : Option ConditionTree) (ds : List DirectiveTree) (s : SetTree),
      Begins c d (optionalLexemes ConditionTree.lexemes t
        ++ (ds.flatMap DirectiveTree.lexemes ++ s.lexemes)) := by
  rw [readInlineFrom_eq] at h
  obtain ⟨q, m, rfl, h₁⟩ | h₁ := optional_bind_failed (by decide) h
  · rw [bind_map_left] at h₁
    obtain rfl | ⟨name, m, rfl, h₂⟩ := readName_bind_failed h₁
    · have hrest : Filled (NameTree.filler.lexeme :: SetTree.filler.lexemes) := by decide
      exact ⟨some ⟨q, .filler⟩, [], .filler,
        (Begins.of_filled hrest m).behind [q.lexeme (.name "on")]⟩
    obtain ⟨ds, s, hbegins⟩ := completes_directivesAndSet hset h₂
    exact ⟨some ⟨q, name⟩, ds, s, hbegins.behind [q.lexeme (.name "on"), name.lexeme]⟩
  · obtain ⟨ds, s, hbegins⟩ := completes_directivesAndSet hset h₁
    exact ⟨none, ds, s, hbegins⟩

theorem completes_readWith : Completes (readWith set) SelectionTree.lexemes Always := by
  intro c e d h
  rw [readWith, bind_done peek_apply] at h
  cases hpeek : c.peek with
  | name text =>
    simp only [hpeek] at h
    exact completes_readFieldWith hset _ _ _ (map_eq_failed.1 h)
  | ellipsis =>
    simp only [hpeek, bind_done mark_apply, bind_done skip_apply, bind_done peek_apply] at h
    obtain ⟨q, hq⟩ := Cursor.exists_place (c := c) (by rw [hpeek]; decide)
    rw [hpeek] at hq
    have hbehind : ∀ {ls : List Lexeme}, Begins c.next d ls →
        Begins c d (q.lexeme .ellipsis :: ls) :=
      fun hbegins => hbegins.behind_of [q.lexeme .ellipsis] hq rfl
    have hinline : readInlineFrom set c.mark c.next = .failed e d →
        ∃ t : SelectionTree, Always t ∧ Begins c d t.lexemes := by
      intro h
      obtain ⟨t, ds, s, hbegins⟩ := completes_readInlineFrom hset h
      refine ⟨.inline q t ds s, trivial, ?_⟩
      rw [SelectionTree.lexemes, List.append_assoc]
      exact hbehind hbegins
    cases hnext : c.next.peek with
    | directiveName name =>
      simp only [hnext] at h
      exact hinline (map_eq_failed.1 h)
    | braceOpen =>
      simp only [hnext] at h
      exact hinline (map_eq_failed.1 h)
    | name text =>
      simp only [hnext] at h
      by_cases hon : text = "on"
      · rw [if_pos hon] at h
        exact hinline (map_eq_failed.1 h)
      · rw [if_neg hon] at h
        obtain ⟨name, ds, hname, hbegins⟩ := completes_readSpreadFrom (map_eq_failed.1 h)
        exact ⟨.spread q name hname ds, trivial, hbehind hbegins⟩
    | _ =>
      simp only [hnext] at h
      -- only the ellipsis was taken, and any spread goes on with it
      have hd : c.next = d := fail_eq_failed h
      refine ⟨.spread q .filler (by decide) [], trivial, hbehind ?_⟩
      rw [hd]
      exact .of_filled filled_name d
  | _ =>
    simp only [hpeek] at h
    obtain rfl := fail_eq_failed h
    exact ⟨.filler, trivial, .of_filled (by decide) c⟩

end

theorem completes_readSetWithin (n : Nat) :
    Completes (readSetWithin n) SetTree.lexemes Always := by
  induction n with
  | zero => exact fun _ _ _ h => absurd h nofun
  | succ n ih =>
    intro c e d h
    obtain ⟨o, m, rfl, hm⟩ | hm := optional_bind_failed (by decide) h
    · obtain ⟨x, xs, -, hbegins⟩ := completes_itemsUntil₁
        (sound_readWith (readsSets_readSetWithin n)) (completes_readWith ih) hm
      refine ⟨⟨o, x, xs, .filler⟩, trivial, ?_⟩
      rw [SetTree.lexemes, SelectionTree.lexemesAll_eq, ← List.flatMap_cons]
      exact (hbegins.close (by decide)).behind [o.lexeme .braceOpen]
    · exact absurd hm pure_ne_failed

theorem completes_readSet : Completes readSet SetTree.lexemes Always :=
  fun c => completes_readSetWithin _ c

end Selection

namespace TypeExpr

theorem readRequired_ne_failed {t : TypeExpr} {c d : Cursor} {e : NodeKind} :
    readRequired t c ≠ .failed e d := by
  intro h
  obtain ⟨_, _, -, h⟩ | h := optional_bind_failed (by decide) h
  · exact pure_ne_failed h
  · exact pure_ne_failed h

theorem completes_readWithin (n : Nat) : Completes (readWithin n) TypeTree.lexemes Always := by
  induction n with
  | zero => exact fun _ _ _ h => absurd h nofun
  | succ n ih =>
    intro c e d h
    rw [readWithin_succ, bind_done mark_apply, bind_done peek_apply] at h
    cases hpeek : c.peek with
    | bracketOpen =>
      simp only [hpeek, bind_done skip_apply] at h
      obtain ⟨o, ho⟩ := Cursor.exists_place (c := c) (by rw [hpeek]; decide)
      rw [hpeek] at ho
      obtain ⟨t, -, hbegins⟩ | ⟨t, m, -, hm, h⟩ := step_failed (sound_readWithin n) ih h
      · exact ⟨.list o t .filler none, trivial,
          (hbegins.close (by decide)).behind_of [o.lexeme .bracketOpen] ho rfl⟩
      obtain rfl | ⟨_, _, -, h⟩ := expect_bind_failed (by decide) h
      · have hclose : Filled [Place.filler.lexeme .bracketClose] := by decide
        refine ⟨.list o t .filler none, trivial, (Begins.of_filled hclose m).behind_of
          (o.lexeme .bracketOpen :: t.lexemes) ?_ rfl⟩
        rw [ho, hm]
        rfl
      · exact absurd h readRequired_ne_failed
    | name text =>
      simp only [hpeek, bind_done skip_apply] at h
      exact absurd h readRequired_ne_failed
    | _ =>
      simp only [hpeek] at h
      obtain rfl := fail_eq_failed h
      exact ⟨.filler, trivial, .of_filled (by decide) c⟩

theorem completes_read : Completes read TypeTree.lexemes Always :=
  fun c => completes_readWithin _ c

end TypeExpr

theorem readVariable_bind_failed {α : Type} {f : Variable → NodeReader α} {c d : Cursor}
    {e : NodeKind} (h : (readVariable >>= f) c = .failed e d) :
    c = d ∨ ∃ (v : Variable) (p : Place) (m : Cursor),
      c = m.before (p.lexeme (.variableName v.name) :: m.ahead) ∧ f v m = .failed e d := by
  obtain h | ⟨v, m, hv, h⟩ := bind_eq_failed.1 h
  · rw [readVariable, bind_done mark_apply, bind_pure_eq_failed] at h
    exact .inl (take_eq_failed h)
  · obtain ⟨p, hc, -⟩ := readVariable_eq_done hv
    exact .inr ⟨v, p, m, hc, h⟩

theorem completes_readVariableTail {v : Variable} {type : TypeExpr} {loc : Option Location}
    {default : Option Value} {c d : Cursor} {e : NodeKind}
    (h : readVariableTail v type loc default c = .failed e d) :
    ∃ ds : List DirectiveTree, Begins c d (ds.flatMap DirectiveTree.lexemes) := by
  obtain ⟨ds, -, hbegins⟩ := completes_readDirectives _ _ _ (bind_pure_eq_failed.1 h)
  exact ⟨ds, hbegins⟩

theorem completes_readVariableDefinition :
    Completes readVariableDefinition VariableTree.lexemes Always := by
  intro c e d h
  rw [readVariableDefinition_eq, bind_done mark_apply] at h
  obtain rfl | ⟨v, p, m, rfl, h₁⟩ := readVariable_bind_failed h
  · exact ⟨⟨.filler, "a", .filler, .filler, none, []⟩, trivial, .of_filled (by decide) c⟩
  obtain rfl | ⟨q, m, rfl, h₂⟩ := expect_bind_failed (by decide) h₁
  · have hrest : Filled (Place.filler.lexeme .colon :: TypeTree.filler.lexemes) := by decide
    exact ⟨⟨p, v.name, .filler, .filler, none, []⟩, trivial,
      (Begins.of_filled hrest m).behind [p.lexeme (.variableName v.name)]⟩
  obtain ⟨t, -, hbegins⟩ | ⟨t, m, -, rfl, h₃⟩ :=
    step_failed TypeExpr.sound_read TypeExpr.completes_read h₂
  · refine ⟨⟨p, v.name, q, t, none, []⟩, trivial, hbegins.behind_of
      [p.lexeme (.variableName v.name), q.lexeme .colon] rfl ?_⟩
    simp [VariableTree.lexemes, optionalLexemes]
  -- a default is a constant where it was read, and the filler of a value is one
  obtain ⟨x, m, rfl, h₄⟩ | h₄ := optional_bind_failed (by decide) h₃
  · rw [bind_map_left] at h₄
    obtain ⟨y, hy, hbegins⟩ | ⟨y, m, hy, rfl, h₅⟩ :=
      step_failed (Value.sound_read true) (Value.completes_read true) h₄
    · refine ⟨⟨p, v.name, q, t, some ⟨x, y, hy rfl⟩, []⟩, trivial, hbegins.behind_of
        (p.lexeme (.variableName v.name) :: q.lexeme .colon :: (t.lexemes ++ [x.lexeme .equal]))
        (by simp) ?_⟩
      simp [VariableTree.lexemes, DefaultTree.lexemes, optionalLexemes]
    obtain ⟨ds, hbegins⟩ := completes_readVariableTail h₅
    refine ⟨⟨p, v.name, q, t, some ⟨x, y, hy rfl⟩, ds⟩, trivial, hbegins.behind_of
      (p.lexeme (.variableName v.name) :: q.lexeme .colon ::
        (t.lexemes ++ x.lexeme .equal :: y.lexemes)) (by simp) ?_⟩
    simp [VariableTree.lexemes, DefaultTree.lexemes, optionalLexemes]
  · obtain ⟨ds, hbegins⟩ := completes_readVariableTail h₄
    refine ⟨⟨p, v.name, q, t, none, ds⟩, trivial, hbegins.behind_of
      (p.lexeme (.variableName v.name) :: q.lexeme .colon :: t.lexemes) (by simp) ?_⟩
    simp [VariableTree.lexemes, optionalLexemes]

theorem completes_readVariableDefinitions :
    Completes readVariableDefinitions (optionalLexemes VariablesTree.lexemes) Always := by
  intro c e d h
  obtain ⟨o, m, rfl, hm⟩ | hm := optional_bind_failed (by decide) h
  · obtain ⟨x, xs, -, hbegins⟩ :=
      completes_itemsUntil₁ sound_readVariableDefinition completes_readVariableDefinition hm
    exact ⟨some ⟨o, x, xs, .filler⟩, trivial,
      (hbegins.close (by decide)).behind [o.lexeme .parenOpen]⟩
  · exact absurd hm pure_ne_failed

theorem completes_readFragment :
    Completes readFragment DefinitionTree.lexemes Always := by
  have hcondition : Filled (ConditionTree.lexemes ⟨.filler, .filler⟩
      ++ SetTree.filler.lexemes) := by decide
  intro c e d h
  rw [readFragment, bind_done mark_apply] at h
  -- each part that was read stands in the tree, and fillers stand for those behind it
  obtain rfl | ⟨p, m, rfl, h₁⟩ := expect_bind_failed (by decide) h
  · exact ⟨.query .filler, trivial, .of_filled SetTree.filled c⟩
  obtain rfl | ⟨n, m, rfl, h₂⟩ := readName_bind_failed h₁
  · have hname := filled_append filled_name hcondition
    exact ⟨.fragment p .filler ⟨.filler, .filler⟩ [] .filler, trivial,
      (Begins.of_filled hname m).behind [p.lexeme (.name "fragment")]⟩
  obtain rfl | ⟨q, m, rfl, h₃⟩ := expect_bind_failed (by decide) h₂
  · exact ⟨.fragment p n ⟨.filler, .filler⟩ [] .filler, trivial,
      (Begins.of_filled hcondition m).behind [p.lexeme (.name "fragment"), n.lexeme]⟩
  obtain rfl | ⟨t, m, rfl, h₄⟩ := readName_bind_failed h₃
  · exact ⟨.fragment p n ⟨q, .filler⟩ [] .filler, trivial,
      (Begins.of_filled (filled_append filled_name SetTree.filled) m).behind
        [p.lexeme (.name "fragment"), n.lexeme, q.lexeme (.name "on")]⟩
  obtain ⟨ds, s, hbegins⟩ := completes_directivesAndSet Selection.completes_readSet h₄
  refine ⟨.fragment p n ⟨q, t⟩ ds s, trivial, hbegins.behind_of
    [p.lexeme (.name "fragment"), n.lexeme, q.lexeme (.name "on"), t.lexeme] rfl ?_⟩
  simp [DefinitionTree.lexemes, ConditionTree.lexemes]

theorem completes_readOperationName :
    Completes readOperationName (optionalLexemes fun n : NameTree => [n.lexeme]) Always := by
  intro c e d h
  rw [readOperationName, bind_done peek_apply] at h
  cases hpeek : c.peek with
  | name text =>
    simp only [hpeek] at h
    obtain rfl := readName_eq_failed (map_eq_failed.1 h)
    exact ⟨some .filler, trivial, .of_filled filled_name c⟩
  | _ =>
    simp only [hpeek] at h
    exact absurd h pure_ne_failed

theorem completes_readOperationTail {kind : OperationKind} {loc : Option Location}
    {name : Option Name} {c d : Cursor} {e : NodeKind}
    (h : readOperationTail kind loc name c = .failed e d) :
    ∃ (vs : Option VariablesTree) (ds : List DirectiveTree) (s : SetTree),
      Begins c d (optionalLexemes VariablesTree.lexemes vs
        ++ (ds.flatMap DirectiveTree.lexemes ++ s.lexemes)) := by
  obtain ⟨vs, -, hbegins⟩ | ⟨vs, m, -, rfl, hm⟩ :=
    step_failed sound_readVariableDefinitions completes_readVariableDefinitions h
  · exact ⟨vs, [], .filler, hbegins.append SetTree.filled⟩
  obtain ⟨ds, s, hbegins⟩ := completes_directivesAndSet Selection.completes_readSet hm
  exact ⟨vs, ds, s, hbegins.behind _⟩

theorem completes_readOperation :
    Completes readOperation DefinitionTree.lexemes Always := by
  intro c e d h
  rw [readOperation_eq, bind_done mark_apply, bind_done peek_apply] at h
  by_cases hbrace : c.peek = .braceOpen
  · rw [if_pos hbrace, bind_pure_eq_failed] at h
    obtain ⟨s, -, hbegins⟩ := Selection.completes_readSet _ _ _ h
    exact ⟨.query s, trivial, hbegins⟩
  rw [if_neg hbrace] at h
  obtain rfl | ⟨p, t, kind, m, ht, rfl, h₁⟩ := take_bind_failed rfl h
  · exact ⟨.query .filler, trivial, .of_filled SetTree.filled c⟩
  obtain rfl := OperationKind.ofToken?_eq_some.1 ht
  obtain ⟨n, -, hbegins⟩ | ⟨n, m, -, rfl, h₂⟩ :=
    step_failed sound_readOperationName completes_readOperationName h₁
  · refine ⟨.operation p kind n none [] .filler, trivial,
      (hbegins.append SetTree.filled).behind_of [p.lexeme (.name kind.name)] rfl ?_⟩
    simp [DefinitionTree.lexemes, optionalLexemes]
  obtain ⟨vs, ds, s, hbegins⟩ := completes_readOperationTail h₂
  refine ⟨.operation p kind n vs ds s, trivial, hbegins.behind_of
    (p.lexeme (.name kind.name) :: optionalLexemes (fun n : NameTree => [n.lexeme]) n) rfl ?_⟩
  simp [DefinitionTree.lexemes]

theorem completes_readDefinition :
    Completes readDefinition DefinitionTree.lexemes Always := by
  intro c e d h
  have hfail : c = d → ∃ t : DefinitionTree, Always t ∧ Begins c d t.lexemes := by
    rintro rfl
    exact ⟨.query .filler, trivial, .of_filled SetTree.filled c⟩
  rw [readDefinition, bind_done peek_apply] at h
  cases hpeek : c.peek with
  | braceOpen =>
    simp only [hpeek] at h
    exact completes_readOperation _ _ _ (map_eq_failed.1 h)
  | name text =>
    simp only [hpeek] at h
    by_cases hfragment : text = "fragment"
    · rw [if_pos hfragment] at h
      exact completes_readFragment _ _ _ (map_eq_failed.1 h)
    · rw [if_neg hfragment] at h
      by_cases hkind : (OperationKind.ofName? text).isSome
      · rw [if_pos hkind] at h
        exact completes_readOperation _ _ _ (map_eq_failed.1 h)
      · rw [if_neg hkind] at h
        exact hfail (fail_eq_failed h)
  | _ =>
    simp only [hpeek] at h
    exact hfail (fail_eq_failed h)

theorem completes_readDefinitions :
    Completes readDefinitions DocumentTree.lexemes Always := by
  intro c e d h
  obtain ⟨ts, -, hbegins⟩ :=
    completes_itemsWithin sound_readDefinition completes_readDefinition _ _ _ _ _ h
  exact ⟨ts, trivial, hbegins⟩

end GraphQLCheck
