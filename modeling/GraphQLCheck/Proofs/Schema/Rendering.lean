import GraphQLCheck.Proofs.Schema.Implementors
import GraphQLCheck.Proofs.Schema.Parsing

/-!
Declarations that are written and loaded again. Whatever text writes them, the schema is the same
and has what is declared, what is built in and not declared again, and nothing else: descriptions,
applied directives and leading separators of the text leave no trace.
-/
namespace GraphQLCheck

def TypeDef.asDeclared : TypeDef → TypeDef
  | .interface i => .interface { i with possibleInterfaces := [], possibleTypes := [] }
  | .scalar s => .scalar { s with check := none }
  | t => t

namespace Schema

/-- The schema has what is declared and what is built in and not declared again, each once and
nothing else. Its scalars have the checks that belong to their names, and its roots are the objects
that are named as roots. -/
structure Holds (s : Schema) (d : Declarations) : Prop where
  distinctTypes : (s.types.map TypeDef.name).Nodup
  distinctDirectives : (s.directives.map DirectiveDef.name).Nodup
  types {t : TypeDef} : t ∈ s.types.map TypeDef.asDeclared ↔ t ∈ d.types ∨
    ∃ name ∈ Builtin.scalarNames, (∀ u ∈ d.types, u.name ≠ name) ∧ t = .scalar ⟨name, none⟩
  directives {x : DirectiveDef} : x ∈ s.directives ↔ x ∈ d.directives ∨
    x ∈ Builtin.directives ∧ ∀ y ∈ d.directives, y.name ≠ x.name
  checks {x : ScalarType} : .scalar x ∈ s.types → x.check = Builtin.check? x.name
  roots {kind : OperationKind} {o : ObjectType} : s.root? kind = some o ↔ d.IsRoot kind o

end Schema

namespace Declarations

variable {d : Declarations}

theorem asDeclared_link {t : TypeDef} (ht : t.Unlinked) (types : List TypeDef) :
    (link types t).asDeclared = t := by
  cases t with
  | interface i =>
    obtain ⟨name, fields, interfaces, possibleInterfaces, possibleTypes⟩ := i
    obtain ⟨rfl, rfl⟩ := ht
    rfl
  | scalar x =>
    obtain ⟨name, check⟩ := x
    obtain rfl : check = none := ht
    rfl
  | _ => rfl

theorem mem_asDeclared_toSchema (hd : d.Distinct) {t : TypeDef} :
    t ∈ d.toSchema.types.map TypeDef.asDeclared ↔ t ∈ d.types ∨
      ∃ name ∈ Builtin.scalarNames, (∀ u ∈ d.types, u.name ≠ name) ∧
        t = .scalar ⟨name, none⟩ := by
  have hlinked : (d.types.map (link d.types)).map TypeDef.asDeclared = d.types := by
    rw [List.map_map]
    exact (List.map_congr_left fun u hu => asDeclared_link (hd.unlinked u hu) d.types).trans
      (List.map_id' _)
  rw [toSchema, List.map_append, hlinked, List.mem_append, List.mem_map]
  simp only [mem_without]
  refine or_congr_right ⟨?_, ?_⟩
  · rintro ⟨_, ⟨name, hname, hfree, rfl⟩, rfl⟩
    exact ⟨name, hname, hfree, rfl⟩
  · rintro ⟨name, hname, hfree, rfl⟩
    exact ⟨_, ⟨name, hname, hfree, rfl⟩, rfl⟩

theorem mem_directives_toSchema {x : DirectiveDef} :
    x ∈ d.toSchema.directives ↔ x ∈ d.directives ∨
      x ∈ Builtin.directives ∧ ∀ y ∈ d.directives, y.name ≠ x.name := by
  simp [toSchema, Named.without, List.mem_filter]

theorem nodup_directives (hd : d.Distinct) :
    (d.toSchema.directives.map DirectiveDef.name).Nodup := by
  have hbuiltin : (Builtin.directives.map DirectiveDef.name).Nodup := by decide
  have hkept := hbuiltin.sublist
    ((List.filter_sublist (p := fun x => !d.directives.any (·.name == x.name))).map
      DirectiveDef.name)
  rw [toSchema, List.map_append, List.nodup_append]
  refine ⟨hd.directives, hkept, ?_⟩
  rintro _ hx _ hy rfl
  obtain ⟨x, hx, hname⟩ := List.mem_map.1 hx
  obtain ⟨y, hy, hsame⟩ := List.mem_map.1 hy
  have hfree := (List.mem_filter.1 hy).2
  simp only [Bool.not_eq_true', List.any_eq_false, beq_iff_eq] at hfree
  exact hfree x hx (hname.trans hsame.symm)

theorem check_toSchema (hd : d.Distinct) {x : ScalarType}
    (hx : .scalar x ∈ d.toSchema.types) : x.check = Builtin.check? x.name := by
  rw [toSchema, List.mem_append, List.mem_map, mem_without] at hx
  obtain ⟨t, ht, hlink⟩ | ⟨name, -, -, heq⟩ := hx
  · cases t with
    | scalar y =>
      obtain ⟨name, check⟩ := y
      obtain rfl : check = none := hd.unlinked _ ht
      obtain rfl := TypeDef.scalar.inj hlink
      rfl
    | _ => simp [link] at hlink
  · obtain rfl := TypeDef.scalar.inj heq
    rfl

theorem directives_load {s : Schema} (h : d.load = .ok s) :
    s.directives = d.toSchema.directives := by
  rw [load] at h
  split at h
  · simp at h
  · obtain rfl := Except.ok.inj h
    rfl

theorem holds_load (hd : d.Distinct) {s : Schema} (h : d.load = .ok s) : s.Holds d := by
  have htypes := types_load h
  have hdirectives := directives_load h
  exact
    { distinctTypes := htypes ▸ nodup_types hd
      distinctDirectives := hdirectives ▸ nodup_directives hd
      types := htypes ▸ mem_asDeclared_toSchema hd
      directives := hdirectives ▸ mem_directives_toSchema
      checks := fun hx => check_toSchema hd (htypes ▸ hx)
      roots := root?_load hd h _ _ }

end Declarations

namespace Schema

/-- Declarations that are closed are loaded from every text that writes them, and what is loaded
is the same for all of these texts. The tree of a text has places for descriptions, applied
directives and leading separators, which thus have no effect. -/
theorem read_written {d : Declarations} (hd : d.Distinct) (hmembers : d.DistinctMembers)
    (hclosed : d.ReferenceClosed) :
    ∃ s : Schema, s.Holds d ∧ ∀ (t : SchemaTree) (source : String), t.Writes false d →
      t.lexemes = Lexeme.scan source.toList → read source = .ok s := by
  obtain ⟨s, hs⟩ := (Declarations.load_isOk hd).2 hclosed
  refine ⟨s, Declarations.holds_load hd hs, fun t source hwrites hlexemes => ?_⟩
  obtain ⟨rest, hread⟩ := readDeclarations_eq_done.2
    ⟨t, d, hlexemes, hwrites, hd, (Declarations.merged_eq_self hmembers).symm⟩
  rw [read_of_done hread, hs]

def inFirstLine (start stop : Nat) : Place := ⟨⟨start, stop⟩, ⟨1, start + 1⟩⟩

def wordsAsNames : Declarations :=
  ⟨[.object ⟨"type", [⟨"implements", .list (.nonNull (.named "enum")),
      [⟨"on", .named "Int", some (.int "1" none)⟩]⟩], ["interface"]⟩,
    .interface ⟨"interface", [], [], [], []⟩,
    .enum ⟨"enum", ["type", "repeatable"]⟩,
    .union ⟨"union", ["type"]⟩,
    .scalar ⟨"scalar", none⟩,
    .input ⟨"input", [⟨"input", .named "scalar",
      some (.object [⟨"a", .int "2" none, none⟩] none)⟩]⟩],
    [⟨"on", [⟨"on", .named "Int", none⟩], [.field, .object], true⟩],
    some ⟨some "type", none, none⟩⟩

def wordsAsNamesText : String :=
  "\"d\" type type implements & interface @on(a: 1) \x7b \"f\" implements(\"a\" on: Int = 1 @on)"
    ++ ": [enum!] @on \x7d interface interface @on enum enum \x7b \"v\" type @on \"w\" repeatable "
    ++ "\x7d union union = | type scalar scalar @on input input \x7b \"x\" input: scalar = \x7ba"
    ++ ": 2\x7d @on \x7d directive @on(\"a\" on: Int) repeatable on | FIELD | OBJECT schema @on "
    ++ "\x7b query: type \x7d \"end\""

/-- The text has descriptions, applied directives and leading separators wherever it can. -/
def wordsAsNamesTree : SchemaTree :=
  let p := inFirstLine
  let applied (start stop : Nat) : DirectiveTree := ⟨p start stop, "on", none⟩
  let int (start stop : Nat) : TypeTree := .named ⟨"Int", p start stop⟩ none
  ⟨[⟨some ⟨p 0 3, "d"⟩, .type (.object (p 4 8) ⟨⟨"type", p 9 13⟩,
      some ⟨p 14 24, ⟨some (p 25 26), ⟨"interface", p 27 36⟩, []⟩⟩,
      [⟨p 37 40, "on", some ⟨p 40 41, [⟨⟨"a", p 41 42⟩, p 42 43, .int (p 44 45) "1"⟩], p 45 46⟩⟩],
      some ⟨p 47 48, [⟨some ⟨p 49 52, "f"⟩, ⟨"implements", p 53 63⟩,
        some ⟨p 63 64, [⟨some ⟨p 64 67, "a"⟩, ⟨"on", p 68 70⟩, p 70 71, int 72 75,
          some ⟨p 76 77, .int (p 78 79) "1", rfl⟩, [applied 80 83]⟩], p 83 84⟩, p 84 85,
        .list (p 86 87) (.named ⟨"enum", p 87 91⟩ (some (p 91 92))) (p 92 93) none,
        [applied 94 97]⟩], p 98 99⟩⟩)⟩,
    ⟨none, .type (.interface (p 100 109) ⟨⟨"interface", p 110 119⟩, none, [applied 120 123],
      none⟩)⟩,
    ⟨none, .type (.enum (p 124 128) ⟨"enum", p 129 133⟩ [] (some ⟨p 134 135,
      some ⟨p 136 139, "v"⟩, [⟨⟨"type", p 140 144⟩, by decide, [applied 145 148],
        some ⟨p 149 152, "w"⟩⟩, ⟨⟨"repeatable", p 153 163⟩, by decide, [], none⟩], p 164 165⟩))⟩,
    ⟨none, .type (.union (p 166 171) ⟨"union", p 172 177⟩ [] (some ⟨p 178 179,
      some (p 180 181), ⟨"type", p 182 186⟩, []⟩))⟩,
    ⟨none, .type (.scalar (p 187 193) ⟨"scalar", p 194 200⟩ [applied 201 204])⟩,
    ⟨none, .type (.input (p 205 210) ⟨"input", p 211 216⟩ [] (some ⟨p 217 218,
      [⟨some ⟨p 219 222, "x"⟩, ⟨"input", p 223 228⟩, p 228 229,
        .named ⟨"scalar", p 230 236⟩ none, some ⟨p 237 238, .object (p 239 240)
          [⟨⟨"a", p 240 241⟩, p 241 242, .int (p 243 244) "2"⟩] (p 244 245), rfl⟩,
        [applied 246 249]⟩], p 250 251⟩))⟩,
    ⟨none, .directive ⟨p 252 261, p 262 265, "on", some ⟨p 265 266, [⟨some ⟨p 266 269, "a"⟩,
      ⟨"on", p 270 272⟩, p 272 273, int 274 277, none, []⟩], p 277 278⟩, some (p 279 289),
      p 290 292, ⟨some (p 293 294), ⟨p 295 300, .field⟩, [(p 301 302, ⟨p 303 309, .object⟩)]⟩⟩⟩,
    ⟨none, .roots ⟨p 310 316, [applied 317 320], p 321 322, [⟨p 323 328, .query, p 328 329,
      ⟨"type", p 330 334⟩⟩], by decide, p 335 336⟩⟩],
    some ⟨p 337 342, "end"⟩⟩

theorem read_written_wordsAsNames :
    wordsAsNames.Distinct ∧ wordsAsNames.DistinctMembers ∧ wordsAsNames.ReferenceClosed ∧
      wordsAsNamesTree.Writes false wordsAsNames ∧
      ∃ s, s.Holds wordsAsNames ∧ read wordsAsNamesText = .ok s := by
  have hd : wordsAsNames.Distinct := by
    refine ⟨by decide, by decide, ?_⟩
    simp [wordsAsNames, TypeDef.Unlinked]
  have hmembers : wordsAsNames.DistinctMembers := by
    constructor <;>
      simp [wordsAsNames, TypeDef.DistinctMembers, DistinctFields, DistinctInputs]
  have hclosed : wordsAsNames.ReferenceClosed :=
    (Declarations.load_isOk hd).1
      ⟨_, Declarations.load_of_fits (by decide +kernel) (by decide +kernel) rfl⟩
  have hwrites : wordsAsNamesTree.Writes false wordsAsNames := ⟨rfl, rfl, rfl⟩
  have hlexemes : wordsAsNamesTree.lexemes = Lexeme.scan wordsAsNamesText.toList := by
    decide +kernel
  obtain ⟨s, hs, hread⟩ := read_written hd hmembers hclosed
  exact ⟨hd, hmembers, hclosed, hwrites, s, hs, hread _ _ hwrites hlexemes⟩

end Schema
end GraphQLCheck
