import GraphQLCheck.Proofs.Rules.Ordered
import GraphQLCheck.Proofs.Schema.Reordered

/-!
Diagnostics do not depend on the order of what a schema has names for, be it the order in which it
is written or that in which it is kept.
-/
namespace GraphQLCheck

namespace Run

/-- However a schema keeps what it has names for, rules find what they find in the order of the
names. -/
theorem result_rearranged {s s' : Schema} (h : s.Rearranged s') (hd : s.Distinct)
    (document : Document) (maxErrors : Option Nat) (paths : Bool) (rules : List StandardRule) :
    (ofDocument ⟨.standard, maxErrors, paths⟩ ⟨s', document⟩
        (rules.map StandardRule.rule)).result =
      (ofDocument ⟨.standard, maxErrors, paths⟩ ⟨s.ordered, document⟩
        (rules.map StandardRule.rule)).result := by
  rw [h.ordered_eq hd, result_ordered]

/-- An accepted text writes declarations. Every text that writes them in another order is accepted
as well, and however the two schemas keep what is looked up by name, all documents get the same
diagnostics, with any rules and any limit. -/
theorem result_reordered {source : String} {s : Schema} (h : Schema.read source = .ok s) :
    (∃ d : Declarations, d.Distinct ∧ d.WrittenIn source) ∧
    ∀ d d' : Declarations, d.Distinct → d.WrittenIn source → d.Reordered d' →
      ∀ source' : String, d'.WrittenIn source' →
        ∃ s', Schema.read source' = .ok s' ∧
          ∀ s₁ s₁' : Schema, s.Rearranged s₁ → s'.Rearranged s₁' →
            ∀ (document : Document) (maxErrors : Option Nat) (paths : Bool)
              (rules : List StandardRule),
              (ofDocument ⟨.standard, maxErrors, paths⟩ ⟨s₁', document⟩
                  (rules.map StandardRule.rule)).result =
                (ofDocument ⟨.standard, maxErrors, paths⟩ ⟨s₁, document⟩
                  (rules.map StandardRule.rule)).result := by
  obtain ⟨a, rest, hread, -, -⟩ := Schema.read_eq_ok_iff.1 h
  refine ⟨Declarations.exists_writtenIn hread, fun d d' hd hwritten hreordered source' hwritten' => ?_⟩
  have hd' : d'.Distinct := hreordered.distinct hd
  have hload : d.merged.load = .ok s := (hwritten.read_eq_ok_iff hd).1 h
  obtain ⟨s', hload', hordered⟩ := hreordered.agree.load (Declarations.distinct_merged hd) hload
  have hdistinct : s.Distinct := Declarations.distinct_load (Declarations.distinct_merged hd)
    d.distinctMembers_merged hload
  have hdistinct' : s'.Distinct := Declarations.distinct_load (Declarations.distinct_merged hd')
    d'.distinctMembers_merged hload'
  refine ⟨s', (hwritten'.read_eq_ok_iff hd').2 hload', fun s₁ s₁' hs₁ hs₁' document maxErrors paths
    rules => ?_⟩
  rw [result_rearranged hs₁ hdistinct, result_rearranged hs₁' hdistinct', hordered]

end Run

namespace Declarations

def shortInput (start stop : Nat) (name type : String) : InputTree :=
  ⟨none, ⟨name, Schema.inFirstLine start (start + 1)⟩, Schema.inFirstLine (start + 1) (start + 2),
    .named ⟨type, Schema.inFirstLine (start + 2) stop⟩ none, none, []⟩

def ascending : Declarations :=
  ⟨[.object ⟨"Query", [⟨"a", .named "Int", []⟩,
      ⟨"b", .named "E", [⟨"x", .named "I", none⟩, ⟨"y", .named "E", none⟩]⟩], []⟩,
    .enum ⟨"E", ["U", "V"]⟩,
    .input ⟨"I", [⟨"f", .named "Int", none⟩, ⟨"g", .named "E", none⟩]⟩],
    [⟨"m", [⟨"p", .named "Int", none⟩, ⟨"q", .named "E", none⟩], [.field], false⟩,
      ⟨"n", [], [.query], false⟩],
    none⟩

def ascendingText : String :=
  "type Query\x7ba:Int b(x:I y:E):E\x7denum E\x7bU V\x7dinput I\x7bf:Int g:E\x7d"
    ++ "directive @m(p:Int q:E)on FIELD directive @n on QUERY"

def ascendingTree : SchemaTree :=
  let p := Schema.inFirstLine
  let named (start stop : Nat) (type : String) : TypeTree := .named ⟨type, p start stop⟩ none
  ⟨[⟨none, .type (.object (p 0 4) ⟨⟨"Query", p 5 10⟩, none, [], some ⟨p 10 11,
      [⟨none, ⟨"a", p 11 12⟩, none, p 12 13, named 13 16 "Int", []⟩,
        ⟨none, ⟨"b", p 17 18⟩, some ⟨p 18 19, [shortInput 19 22 "x" "I",
          shortInput 23 26 "y" "E"], p 26 27⟩, p 27 28, named 28 29 "E", []⟩], p 29 30⟩⟩)⟩,
    ⟨none, .type (.enum (p 30 34) ⟨"E", p 35 36⟩ [] (some ⟨p 36 37, none,
      [⟨⟨"U", p 37 38⟩, by decide, [], none⟩, ⟨⟨"V", p 39 40⟩, by decide, [], none⟩],
      p 40 41⟩))⟩,
    ⟨none, .type (.input (p 41 46) ⟨"I", p 47 48⟩ [] (some ⟨p 48 49,
      [shortInput 49 54 "f" "Int", shortInput 55 58 "g" "E"], p 58 59⟩))⟩,
    ⟨none, .directive ⟨p 59 68, p 69 71, "m", some ⟨p 71 72, [shortInput 72 77 "p" "Int",
      shortInput 78 81 "q" "E"], p 81 82⟩, none, p 82 84, ⟨none, ⟨p 85 90, .field⟩, []⟩⟩⟩,
    ⟨none, .directive ⟨p 91 100, p 101 103, "n", none, none, p 104 106,
      ⟨none, ⟨p 107 112, .query⟩, []⟩⟩⟩],
    none⟩

def descending : Declarations :=
  ⟨[.object ⟨"Query", [⟨"b", .named "E", [⟨"y", .named "E", none⟩, ⟨"x", .named "I", none⟩]⟩,
      ⟨"a", .named "Int", []⟩], []⟩,
    .enum ⟨"E", ["V", "U"]⟩,
    .input ⟨"I", [⟨"g", .named "E", none⟩, ⟨"f", .named "Int", none⟩]⟩],
    [⟨"n", [], [.query], false⟩,
      ⟨"m", [⟨"q", .named "E", none⟩, ⟨"p", .named "Int", none⟩], [.field], false⟩],
    none⟩

def descendingText : String :=
  "directive @n on QUERY directive @m(q:E p:Int)on FIELD "
    ++ "type Query\x7bb(y:E x:I):E a:Int\x7denum E\x7bV U\x7dinput I\x7bg:E f:Int\x7d"

def descendingTree : SchemaTree :=
  let p := Schema.inFirstLine
  let named (start stop : Nat) (type : String) : TypeTree := .named ⟨type, p start stop⟩ none
  ⟨[⟨none, .directive ⟨p 0 9, p 10 12, "n", none, none, p 13 15,
      ⟨none, ⟨p 16 21, .query⟩, []⟩⟩⟩,
    ⟨none, .directive ⟨p 22 31, p 32 34, "m", some ⟨p 34 35, [shortInput 35 38 "q" "E",
      shortInput 39 44 "p" "Int"], p 44 45⟩, none, p 45 47, ⟨none, ⟨p 48 53, .field⟩, []⟩⟩⟩,
    ⟨none, .type (.object (p 54 58) ⟨⟨"Query", p 59 64⟩, none, [], some ⟨p 64 65,
      [⟨none, ⟨"b", p 65 66⟩, some ⟨p 66 67, [shortInput 67 70 "y" "E",
          shortInput 71 74 "x" "I"], p 74 75⟩, p 75 76, named 76 77 "E", []⟩,
        ⟨none, ⟨"a", p 78 79⟩, none, p 79 80, named 80 83 "Int", []⟩], p 83 84⟩⟩)⟩,
    ⟨none, .type (.enum (p 84 88) ⟨"E", p 89 90⟩ [] (some ⟨p 90 91, none,
      [⟨⟨"V", p 91 92⟩, by decide, [], none⟩, ⟨⟨"U", p 93 94⟩, by decide, [], none⟩],
      p 94 95⟩))⟩,
    ⟨none, .type (.input (p 95 100) ⟨"I", p 101 102⟩ [] (some ⟨p 102 103,
      [shortInput 103 106 "g" "E", shortInput 107 112 "f" "Int"], p 112 113⟩))⟩],
    none⟩

theorem reordered_descending : ascending.Reordered descending where
  types := by
    have hmembers : ∀ t ∈ ascending.types, t.DistinctMembers := by
      simp [ascending, TypeDef.DistinctMembers, DistinctFields, DistinctInputs]
    simp only [ascending, List.forall_mem_cons] at hmembers
    obtain ⟨hquery, henum, hinput, -⟩ := hmembers
    have hfields : FieldsRearranged
        [⟨"a", .named "Int", []⟩,
          ⟨"b", .named "E", [⟨"x", .named "I", none⟩, ⟨"y", .named "E", none⟩]⟩]
        [⟨"b", .named "E", [⟨"y", .named "E", none⟩, ⟨"x", .named "I", none⟩]⟩,
          ⟨"a", .named "Int", []⟩] :=
      ⟨_, .cons (.refl _) (.cons ⟨_, .swap .., rfl⟩ .nil), .swap ..⟩
    exact .cons (.inr ⟨hquery, .object ⟨_, hfields, rfl⟩⟩) (.cons (.inr ⟨henum, .enum (.swap ..)⟩)
      (.cons (.inr ⟨hinput, .input (.swap ..)⟩) .nil))
  directives := by
    refine ⟨_, .cons (.inr ⟨?_, _, .swap .., rfl⟩) (.cons (.inl rfl) .nil), .swap ..⟩
    simp [DistinctInputs]
  roots := rfl

end Declarations

theorem Run.result_reordered_descending :
    Declarations.ascending.Distinct ∧
      Declarations.ascending.WrittenIn Declarations.ascendingText ∧
      Declarations.ascending.Reordered Declarations.descending ∧
      Declarations.descending.WrittenIn Declarations.descendingText ∧
      ∃ s s' : Schema, Schema.read Declarations.ascendingText = .ok s ∧
        Schema.read Declarations.descendingText = .ok s' ∧
        ∀ (document : Document) (maxErrors : Option Nat) (paths : Bool)
          (rules : List StandardRule),
          (ofDocument ⟨.standard, maxErrors, paths⟩
              ⟨{ s' with types := s'.types.reverse }, document⟩
              (rules.map StandardRule.rule)).result =
            (ofDocument ⟨.standard, maxErrors, paths⟩ ⟨s, document⟩
              (rules.map StandardRule.rule)).result := by
  have hwritten : Declarations.ascending.WrittenIn Declarations.ascendingText :=
    ⟨Declarations.ascendingTree, ⟨rfl, rfl, rfl⟩, by decide +kernel⟩
  have hwritten' : Declarations.descending.WrittenIn Declarations.descendingText :=
    ⟨Declarations.descendingTree, ⟨rfl, rfl, rfl⟩, by decide +kernel⟩
  have hd : Declarations.ascending.Distinct := by
    refine ⟨by decide, by decide, ?_⟩
    simp [Declarations.ascending, TypeDef.Unlinked]
  have hreordered := Declarations.reordered_descending
  have hload := Declarations.load_of_fits (d := Declarations.ascending.merged) (by decide +kernel)
    (by decide +kernel) rfl
  have hread := (hwritten.read_eq_ok_iff hd).2 hload
  obtain ⟨s', hread', hsame⟩ :=
    (result_reordered hread).2 _ _ hd hwritten hreordered _ hwritten'
  refine ⟨hd, hwritten, hreordered, hwritten', _, s', hread, hread', ?_⟩
  exact hsame _ _ (.of_perm (.refl _) (.refl _)) (.of_perm (List.reverse_perm _).symm (.refl _))

end GraphQLCheck
