import GraphQLCheck.Proofs.Document.Parsing
import GraphQLCheck.Proofs.Token.Rescan

/-!
Values that are printed are read back. The tokens of a printed value are, apart from their places,
those of the derivation tree that the value was read from, so that the reader finds a tree of the
same shape; only strings may be spelled in another way.
-/
namespace GraphQLCheck

mutual

def Value.unplaced : Value → Value
  | .variable v => .variable ⟨v.name, none⟩
  | .null => .null
  | .boolean b _ => .boolean b none
  | .int digits _ => .int digits none
  | .float digits _ => .float digits none
  | .string text _ => .string text none
  | .enum name _ => .enum name none
  | .list values _ => .list (Value.unplacedAll values) none
  | .object fields _ => .object (ObjectField.unplacedAll fields) none

def Value.unplacedAll : List Value → List Value
  | [] => []
  | v :: vs => v.unplaced :: Value.unplacedAll vs

def ObjectField.unplacedAll : List ObjectField → List ObjectField
  | [] => []
  | f :: fs => f.unplaced :: ObjectField.unplacedAll fs

def ObjectField.unplaced : ObjectField → ObjectField
  | ⟨name, value, _⟩ => ⟨name, value.unplaced, none⟩

end

mutual

/-- Whether all strings in the value are of characters of up to four hexadecimal digits. -/
def Value.isBasic : Value → Bool
  | .string text _ => text.toList.all fun c => c.toNat ≤ 0xFFFF
  | .list values _ => Value.allBasic values
  | .object fields _ => ObjectField.allBasic fields
  | .variable _ | .null | .boolean _ _ | .int _ _ | .float _ _ | .enum _ _ => true

def Value.allBasic : List Value → Bool
  | [] => true
  | v :: vs => v.isBasic && Value.allBasic vs

def ObjectField.allBasic : List ObjectField → Bool
  | [] => true
  | f :: fs => f.isBasic && ObjectField.allBasic fs

def ObjectField.isBasic : ObjectField → Bool
  | ⟨_, value, _⟩ => value.isBasic

end

namespace Value

theorem unplaced_ofName (name : String) (loc : Option Location) :
    (ofName name loc).unplaced = ofName name none := by
  unfold ofName
  split
  · rfl
  split
  · rfl
  split <;> rfl

theorem print_ofName (name : String) (loc : Option Location) : (ofName name loc).print = name := by
  unfold ofName
  split
  · subst_vars
    rfl
  split
  · subst_vars
    rfl
  split
  · subst_vars
    rfl
  · rfl

end Value

mutual

theorem ValueTree.unplaced_value (tracked : Bool) :
    ∀ t : ValueTree, (t.value tracked).unplaced = t.value false
  | .var _ _ | .int _ _ | .float _ _ | .string _ _ => rfl
  | .name n => Value.unplaced_ofName _ _
  | .list _ vs _ => by
    simp only [ValueTree.value, Value.unplaced, ValueTree.unplaced_values tracked vs]
    rfl
  | .object _ es _ => by
    simp only [ValueTree.value, Value.unplaced, EntryTree.unplaced_fields tracked es]
    rfl

theorem ValueTree.unplaced_values (tracked : Bool) :
    ∀ vs : List ValueTree,
      Value.unplacedAll (ValueTree.values tracked vs) = ValueTree.values false vs
  | [] => rfl
  | v :: vs => by
    simp only [ValueTree.values, Value.unplacedAll, ValueTree.unplaced_value tracked v,
      ValueTree.unplaced_values tracked vs]

theorem EntryTree.unplaced_fields (tracked : Bool) :
    ∀ es : List EntryTree,
      ObjectField.unplacedAll (EntryTree.fields tracked es) = EntryTree.fields false es
  | [] => rfl
  | e :: es => by
    simp only [EntryTree.fields, ObjectField.unplacedAll, EntryTree.unplaced_field tracked e,
      EntryTree.unplaced_fields tracked es]

theorem EntryTree.unplaced_field (tracked : Bool) :
    ∀ e : EntryTree, (e.field tracked).unplaced = e.field false
  | ⟨_, _, v⟩ => by
    simp only [EntryTree.field, ObjectField.unplaced, ValueTree.unplaced_value tracked v]
    rfl

end

section
variable {α β τ : Type} {lexemes : τ → List Lexeme} {value : τ → β} {b : β} {text : List Char}

/-- A text on one line that is scanned to the tokens of a tree that stands for `b`. -/
structure Rescans (lexemes : τ → List Lexeme) (value : τ → β) (b : β) (text : List Char) :
    Prop where
  oneLine : OneLine text
  scan {r : List Char} (hr : Delimited r) (p : Position) :
    ∃ (t : τ) (p' : Position), value t = b ∧
      Lexeme.scanAt p (text ++ r) = lexemes t ++ Lexeme.scanAt p' r

theorem rescans_token {t : Token} (honeLine : OneLine text)
    (hscan : ∀ r, Delimited r → ScansTo t text r)
    (htree : ∀ q : Place, ∃ u : τ, value u = b ∧ lexemes u = [q.lexeme t]) :
    Rescans lexemes value b text where
  oneLine := honeLine
  scan {r} hr p := by
    obtain ⟨q, p', hp⟩ := hscan r hr p
    obtain ⟨u, hu, hlexemes⟩ := htree q
    exact ⟨u, p', hu, by rw [hp, hlexemes]; rfl⟩

theorem Rescans.cons {bs : List β} {others : List Char} (h : Rescans lexemes value b text)
    (hs : Rescans (List.flatMap lexemes) (List.map value) bs others) :
    Rescans (List.flatMap lexemes) (List.map value) (b :: bs) (text ++ ',' :: ' ' :: others) where
  oneLine := oneLine_append.2 ⟨h.oneLine,
    oneLine_cons.2 ⟨by decide, oneLine_cons.2 ⟨by decide, hs.oneLine⟩⟩⟩
  scan {r} hr p := by
    have hcomma : Delimited (',' :: ' ' :: (others ++ r)) := by simp [Delimited]
    obtain ⟨t, p', ht, hscan⟩ := h.scan hcomma p
    obtain ⟨ts, p'', hts, hscans⟩ := hs.scan hr ((p'.after [',']).after [' '])
    refine ⟨t :: ts, p'', by rw [List.map_cons, ht, hts], ?_⟩
    rw [List.append_assoc, List.cons_append, List.cons_append, hscan,
      Lexeme.scanAt_separator rfl, Lexeme.scanAt_separator rfl, hscans, List.flatMap_cons,
      List.append_assoc]

theorem Rescans.singleton (h : Rescans lexemes value b text) :
    Rescans (List.flatMap lexemes) (List.map value) [b] text where
  oneLine := h.oneLine
  scan hr p := by
    obtain ⟨t, p', ht, hscan⟩ := h.scan hr p
    exact ⟨[t], p', by rw [List.map_singleton, ht], by rw [hscan, List.flatMap_singleton]⟩

theorem rescans_items {f : α → List Char} {g : α → β} {as : List α}
    (h : ∀ a ∈ as, Rescans lexemes value (g a) (f a)) :
    Rescans (List.flatMap lexemes) (List.map value) (as.map g)
      ([',', ' '].intercalate (as.map f)) := by
  induction as with
  | nil => exact ⟨by simp [OneLine], fun _ p => ⟨[], p, rfl, rfl⟩⟩
  | cons a as ih =>
    obtain ⟨ha, has⟩ := List.forall_mem_cons.1 h
    cases as with
    | nil =>
      rw [List.map_singleton, List.map_singleton, List.intercalate_singleton]
      exact ha.singleton
    | cons b bs =>
      have htext : [',', ' '].intercalate ((a :: b :: bs).map f) =
          f a ++ ',' :: ' ' :: [',', ' '].intercalate ((b :: bs).map f) := by
        simp [List.intercalate_cons_cons]
      rw [htext]
      exact ha.cons (ih has)

theorem Rescans.closed {bs : List β}
    (h : Rescans (List.flatMap lexemes) (List.map value) bs text) (t u : Token)
    (opening closing : Char) (hopening : ∀ r, ScansTo t [opening] r)
    (hclosing : ∀ r, ScansTo u [closing] r)
    (hdelimited : ∀ r, Delimited (closing :: r)) (r : List Char) (p : Position) :
    ∃ (o : Place) (ts : List τ) (q : Place) (p' : Position), ts.map value = bs ∧
      Lexeme.scanAt p (opening :: (text ++ [closing]) ++ r) =
        o.lexeme t :: (ts.flatMap lexemes ++ [q.lexeme u]) ++ Lexeme.scanAt p' r := by
  obtain ⟨o, p₁, hscan₁⟩ := hopening (text ++ closing :: r) p
  obtain ⟨ts, p₂, hts, hscan₂⟩ := h.scan (hdelimited r) p₁
  obtain ⟨q, p₃, hscan₃⟩ := hclosing r p₂
  refine ⟨o, ts, q, p₃, hts, ?_⟩
  simp only [List.cons_append, List.append_assoc, List.nil_append] at hscan₁ hscan₃ ⊢
  rw [hscan₁, hscan₂, hscan₃]

end

def AllSpelled (ls : List Lexeme) : Prop := ∀ l ∈ ls, l.token.Spelled

theorem allSpelled_append {ls rs : List Lexeme} :
    AllSpelled (ls ++ rs) ↔ AllSpelled ls ∧ AllSpelled rs :=
  List.forall_mem_append

theorem allSpelled_cons {l : Lexeme} {ls : List Lexeme} :
    AllSpelled (l :: ls) ↔ l.token.Spelled ∧ AllSpelled ls :=
  List.forall_mem_cons

theorem Value.printAll_eq (vs : List Value) : printAll vs = vs.map print := by
  induction vs with
  | nil => rfl
  | cons v vs ih => rw [printAll, ih, List.map_cons]

theorem ObjectField.printAll_eq (fs : List ObjectField) : printAll fs = fs.map print := by
  induction fs with
  | nil => rfl
  | cons f fs ih => rw [printAll, ih, List.map_cons]

abbrev RescansValue (v : Value) (text : List Char) : Prop :=
  Rescans ValueTree.lexemes (ValueTree.value false) v text

abbrev RescansField (f : ObjectField) (text : List Char) : Prop :=
  Rescans EntryTree.lexemes (EntryTree.field false) f text

theorem rescans_numeral {v : Value} {w f e : List Char} (hw : Numeral.IsWhole w)
    (hf : Numeral.IsFraction f) (he : Numeral.IsExponent e)
    (htree : ∀ q : Place, ∃ u : ValueTree, u.value false = v ∧
      u.lexemes = [q.lexeme (Numeral.token w f e)]) : RescansValue v (w ++ f ++ e) := by
  have honeLine : OneLine (w ++ f ++ e) :=
    oneLine_append.2 ⟨oneLine_append.2 ⟨hw.oneLine, hf.oneLine⟩, he.oneLine⟩
  exact rescans_token honeLine (fun _ hr => scansTo_numeral hw hf he hr) htree

theorem rescans_string {text : String} (h : ∀ c ∈ text.toList, c.toNat ≤ 0xFFFF) :
    RescansValue (.string text none) (printedString text).toList := by
  have htext : (printedString text).toList =
      '"' :: (text.toList.flatMap escapedChar ++ ['"']) := by
    rw [printedString, String.toList_ofList]
    rfl
  have honeLine : OneLine (text.toList.flatMap escapedChar) := by
    intro d hd
    obtain ⟨c, hc, hd⟩ := List.mem_flatMap.1 hd
    exact (item_escapedChar (h c hc)).oneLine d hd
  rw [htext]
  refine rescans_token ?_ (fun _ hr => scansTo_string h hr) fun q => ⟨.string q text, rfl, ?_⟩
  · exact oneLine_cons.2 ⟨by decide, oneLine_append.2 ⟨honeLine, by simp [OneLine]⟩⟩
  · rw [String.ofList_toList]
    rfl

theorem rescans_list {vs : List Value} {text : List Char}
    (h : Rescans (List.flatMap ValueTree.lexemes) (List.map (ValueTree.value false)) vs text) :
    RescansValue (.list vs none) ('[' :: (text ++ [']'])) where
  oneLine := oneLine_cons.2 ⟨by decide, oneLine_append.2 ⟨h.oneLine, by simp [OneLine]⟩⟩
  scan {r} _ p := by
    obtain ⟨o, ts, q, p', rfl, hscan⟩ := h.closed .bracketOpen .bracketClose '[' ']'
      (fun r => scansTo_first rfl rfl) (fun r => scansTo_first rfl rfl)
      (fun r => by simp [Delimited]) r p
    refine ⟨.list o ts q, p', ?_, ?_⟩
    · rw [ValueTree.value, ValueTree.values_eq]
      rfl
    · rw [hscan, ValueTree.lexemes, ValueTree.lexemesAll_eq]

theorem rescans_object {fs : List ObjectField} {text : List Char}
    (h : Rescans (List.flatMap EntryTree.lexemes) (List.map (EntryTree.field false)) fs text) :
    RescansValue (.object fs none) ('\x7b' :: (text ++ ['\x7d'])) where
  oneLine := oneLine_cons.2 ⟨by decide, oneLine_append.2 ⟨h.oneLine, by simp [OneLine]⟩⟩
  scan {r} _ p := by
    obtain ⟨o, ts, q, p', rfl, hscan⟩ := h.closed .braceOpen .braceClose '\x7b' '\x7d'
      (fun r => scansTo_first rfl rfl) (fun r => scansTo_first rfl rfl)
      (fun r => by simp [Delimited]) r p
    refine ⟨.object o ts q, p', ?_, ?_⟩
    · rw [ValueTree.value, EntryTree.fields_eq]
      rfl
    · rw [hscan, ValueTree.lexemes, EntryTree.lexemesAll_eq]

theorem rescans_field {name : String} (hname : IsName name.toList) {v : Value}
    {text : List Char} (h : RescansValue v text) :
    RescansField ⟨name, v, none⟩ (name.toList ++ ':' :: ' ' :: text) where
  oneLine := oneLine_append.2 ⟨hname.oneLine,
    oneLine_cons.2 ⟨by decide, oneLine_cons.2 ⟨by decide, h.oneLine⟩⟩⟩
  scan {r} hr p := by
    have hcolon : Delimited (':' :: ' ' :: (text ++ r)) := by simp [Delimited]
    have hpunctuation : ScansTo .colon [':'] (' ' :: (text ++ r)) := scansTo_first rfl rfl
    obtain ⟨n, p₁, hscan₁⟩ := scansTo_name hname hcolon p
    obtain ⟨q, p₂, hscan₂⟩ := hpunctuation p₁
    obtain ⟨t, p₃, rfl, hscan₃⟩ := h.scan hr (p₂.after [' '])
    refine ⟨⟨⟨name, n⟩, q, t⟩, p₃, rfl, ?_⟩
    simp only [List.cons_append, List.append_assoc, List.nil_append,
      String.ofList_toList] at hscan₁ hscan₂ ⊢
    rw [hscan₁, hscan₂, Lexeme.scanAt_separator rfl, hscan₃]
    rfl

theorem toList_list (vs : List ValueTree) (tracked : Bool) (loc : Option Location) :
    (Value.list (ValueTree.values tracked vs) loc).print.toList =
      '[' :: ([',', ' '].intercalate (vs.map fun v => (v.value tracked).print.toList)
        ++ [']']) := by
  simp only [Value.print, Value.printAll_eq, ValueTree.values_eq, String.toList_append,
    String.toList_intercalate, List.map_map]
  rfl

theorem toList_object (es : List EntryTree) (tracked : Bool) (loc : Option Location) :
    (Value.object (EntryTree.fields tracked es) loc).print.toList =
      '\x7b' :: ([',', ' '].intercalate (es.map fun e => (e.field tracked).print.toList)
        ++ ['\x7d']) := by
  simp only [Value.print, ObjectField.printAll_eq, EntryTree.fields_eq, String.toList_append,
    String.toList_intercalate, List.map_map]
  rfl

theorem toList_field (name : String) (v : Value) (loc : Option Location) :
    (ObjectField.print ⟨name, v, loc⟩).toList = name.toList ++ ':' :: ' ' :: v.print.toList := by
  simp only [ObjectField.print, String.toList_append, List.append_assoc]
  rfl

mutual

theorem ValueTree.rescans (tracked : Bool) : ∀ u : ValueTree, AllSpelled u.lexemes →
    (u.value tracked).isBasic = true →
    RescansValue (u.value false) (u.value tracked).print.toList
  | .var p n, hs, _ => by
    have hn : IsName n.toList := (allSpelled_cons.1 hs).1
    have htext : ((ValueTree.var p n).value tracked).print.toList = '$' :: n.toList := by
      rw [ValueTree.value, Value.print, String.toList_append]
      rfl
    rw [htext]
    refine rescans_token (oneLine_cons.2 ⟨by decide, hn.oneLine⟩)
      (fun _ hr => scansTo_variable hn hr) fun q => ⟨.var q n, rfl, ?_⟩
    rw [String.ofList_toList]
    rfl
  | .int p d, hs, _ => by
    obtain ⟨w, f, e, hw, hf, he, ht⟩ := (allSpelled_cons.1 hs).1
    have hd : ((ValueTree.int p d).value tracked).print.toList = w ++ f ++ e :=
      Numeral.token_eq_integer ht.symm
    rw [hd]
    exact rescans_numeral hw hf he fun q => ⟨.int q d, rfl, by rw [← ht]; rfl⟩
  | .float p d, hs, _ => by
    obtain ⟨w, f, e, hw, hf, he, ht⟩ := (allSpelled_cons.1 hs).1
    have hd : ((ValueTree.float p d).value tracked).print.toList = w ++ f ++ e :=
      Numeral.token_eq_float ht.symm
    rw [hd]
    exact rescans_numeral hw hf he fun q => ⟨.float q d, rfl, by rw [← ht]; rfl⟩
  | .string p text, _, hb => by
    refine rescans_string fun c hc => ?_
    exact of_decide_eq_true (List.all_eq_true.1 hb c hc)
  | .name n, hs, _ => by
    have hn : IsName n.text.toList := (allSpelled_cons.1 hs).1
    have htext : ((ValueTree.name n).value tracked).print = n.text := Value.print_ofName _ _
    rw [htext]
    refine rescans_token hn.oneLine (fun _ hr => scansTo_name hn hr) fun q =>
      ⟨.name ⟨n.text, q⟩, rfl, ?_⟩
    rw [String.ofList_toList]
    rfl
  | .list o vs c, hs, hb => by
    have hvs := ValueTree.rescansAll tracked vs
      (allSpelled_append.1 (allSpelled_cons.1 hs).2).1 hb
    rw [ValueTree.value, ValueTree.value, toList_list, ValueTree.values_eq]
    exact rescans_list (rescans_items hvs)
  | .object o es c, hs, hb => by
    have hes := EntryTree.rescansAll tracked es
      (allSpelled_append.1 (allSpelled_cons.1 hs).2).1 hb
    rw [ValueTree.value, ValueTree.value, toList_object, EntryTree.fields_eq]
    exact rescans_object (rescans_items hes)

theorem ValueTree.rescansAll (tracked : Bool) : ∀ us : List ValueTree,
    AllSpelled (ValueTree.lexemesAll us) → Value.allBasic (ValueTree.values tracked us) = true →
    ∀ u ∈ us, RescansValue (u.value false) (u.value tracked).print.toList
  | [], _, _ => fun _ h => absurd h List.not_mem_nil
  | u :: us, hs, hb => by
    have hspelled := allSpelled_append.1 hs
    have hbasic := Bool.and_eq_true_iff.1 hb
    exact List.forall_mem_cons.2 ⟨ValueTree.rescans tracked u hspelled.1 hbasic.1,
      ValueTree.rescansAll tracked us hspelled.2 hbasic.2⟩

theorem EntryTree.rescansAll (tracked : Bool) : ∀ es : List EntryTree,
    AllSpelled (EntryTree.lexemesAll es) →
    ObjectField.allBasic (EntryTree.fields tracked es) = true →
    ∀ e ∈ es, RescansField (e.field false) (e.field tracked).print.toList
  | [], _, _ => fun _ h => absurd h List.not_mem_nil
  | e :: es, hs, hb => by
    have hspelled := allSpelled_append.1 hs
    have hbasic := Bool.and_eq_true_iff.1 hb
    exact List.forall_mem_cons.2 ⟨EntryTree.rescans tracked e hspelled.1 hbasic.1,
      EntryTree.rescansAll tracked es hspelled.2 hbasic.2⟩

theorem EntryTree.rescans (tracked : Bool) : ∀ e : EntryTree, AllSpelled e.lexemes →
    (e.field tracked).isBasic = true →
    RescansField (e.field false) (e.field tracked).print.toList
  | ⟨n, c, v⟩, hs, hb => by
    obtain ⟨hn, htail⟩ := allSpelled_cons.1 hs
    have hv := ValueTree.rescans tracked v (allSpelled_cons.1 htail).2 hb
    rw [EntryTree.field, EntryTree.field, toList_field]
    exact rescans_field hn hv

end

theorem Value.exists_tree {tracked : Bool} {source : String} {v : Value}
    (h : readNode (read false) tracked source = .ok v) :
    ∃ t : ValueTree, AllSpelled t.lexemes ∧ v = t.value tracked := by
  obtain ⟨rest, hread⟩ := readNode_eq_ok.1 h
  obtain ⟨t, -, hc, rfl⟩ := sound_read false _ _ _ hread
  obtain ⟨hscan, -, htracked⟩ := Cursor.mk.inj hc
  refine ⟨t, fun l hl => ?_, by rw [htracked]⟩
  have hmem : l ∈ Lexeme.scan source.toList := hscan ▸ List.mem_append_left _ hl
  exact Lexeme.spelled_of_mem_scan hmem

/-- Printing a value that was read and reading what was printed gives the value back, up to the
places, and leaves nothing over; and values are printed on one line. -/
theorem Value.read_print {tracked : Bool} {source : String} {v : Value}
    (hread : readNode (read false) tracked source = .ok v) (hbasic : v.isBasic = true) :
    (∀ again : Bool, ∃ (w : Value) (rest : Cursor),
      readNode (read false) again v.print = .ok w ∧
      read false (.ofSource again v.print.toList) = .done w rest ∧ rest.ahead = [] ∧
      w.unplaced = v.unplaced) ∧
    ∀ c ∈ v.print.toList, c ≠ '\n' ∧ c ≠ '\r' := by
  obtain ⟨t, hspelled, rfl⟩ := exists_tree hread
  have hrescans := t.rescans tracked hspelled hbasic
  refine ⟨fun again => ?_, hrescans.oneLine⟩
  obtain ⟨u, p, hu, hscan⟩ := hrescans.scan (r := []) (by simp [Delimited]) .start
  have hcursor : Cursor.ofSource again (t.value tracked).print.toList =
      (Cursor.ofSource again (t.value tracked).print.toList).before (u.lexemes ++ []) := by
    rw [List.append_nil, Lexeme.scanAt_nil, List.append_nil] at hscan
    rw [List.append_nil, ← hscan]
    rfl
  have hdone : read false (.ofSource again (t.value tracked).print.toList) =
      .done (u.value again)
        ((Cursor.ofSource again (t.value tracked).print.toList).before []) := by
    rw [hcursor]
    exact complete_read false _ u [] (admits_false u) (Nat.zero_le _)
  refine ⟨_, _, readNode_eq_ok.2 ⟨_, hdone⟩, hdone, rfl, ?_⟩
  rw [ValueTree.unplaced_value, ValueTree.unplaced_value, hu]

def nestedSource : String := "[-1.5e3 \x7b a:\"\\n\\\"\" b: [] \x7d $v null] rest"

def nestedValue : Value :=
  .list [.float "-1.5e3" none, .object [⟨"a", .string "\n\"" none, none⟩,
    ⟨"b", .list [] none, none⟩] none, .variable ⟨"v", none⟩, .null] none

theorem Value.read_print_nested :
    readNode (read false) false nestedSource = .ok nestedValue ∧ nestedValue.isBasic = true ∧
    (∀ again : Bool, ∃ (w : Value) (rest : Cursor),
      readNode (read false) again nestedValue.print = .ok w ∧
      read false (.ofSource again nestedValue.print.toList) = .done w rest ∧ rest.ahead = [] ∧
      w.unplaced = nestedValue.unplaced) ∧
    ∀ c ∈ nestedValue.print.toList, c ≠ '\n' ∧ c ≠ '\r' := by
  have hread : readNode (read false) false nestedSource = .ok nestedValue := rfl
  exact ⟨hread, rfl, read_print hread rfl⟩

end GraphQLCheck
