import GraphQLCheck.Proofs.Schema.Recognition

/-!
Reading definitions of types and directives, and whole schemas, against the grammar. The
declarations that are read are those that a tree writes, members of one name merged, and all
tokens are read (`readDeclarations_eq_done`).
-/
namespace GraphQLCheck
open Reader

def declarationWords : List String :=
  ["schema", "directive", "type", "interface", "union", "enum", "scalar", "input"]

inductive FollowsDeclaration : Token → Prop
  | string (text : String) : FollowsDeclaration (.string text)
  | word {text : String} : text ∈ declarationWords → FollowsDeclaration (.name text)
  | finish : FollowsDeclaration .finish

namespace FollowsDeclaration

variable {t : Token}

theorem endsAt (h : FollowsDeclaration t) : EndsAt 6 t := by
  cases h <;> simp [EndsAt, Token.rank]

theorem ne (h : FollowsDeclaration t) {u : Token} (hu : u.rank < 6) : t ≠ u := by
  rintro rfl
  exact absurd h.endsAt (Nat.not_le_of_lt hu)

theorem endsDirectives (h : FollowsDeclaration t) : EndsDirectives t :=
  ⟨h.ne (by simp [Token.rank]), fun _ => h.ne (by simp [Token.rank])⟩

theorem endsImplements (h : FollowsDeclaration t) : EndsImplements t := by
  cases h with
  | string text => simp [EndsImplements]
  | word hword =>
    refine ⟨fun heq => ?_, by simp⟩
    rw [Token.name.inj heq] at hword
    exact absurd hword (by decide)
  | finish => simp [EndsImplements]

theorem ne_pipe (h : FollowsDeclaration t) : t ≠ .pipe := by
  cases h <;> simp

end FollowsDeclaration

def readFieldsType (build : String → List String → List FieldDef → TypeDef) :
    DeclarationReader TypeDef := do
  let name ← declaredName "type"
  let interfaces ← readImplements
  skipDirectives
  let fields ← readFieldDefs
  pure (build name interfaces fields)

section
variable (build : String → List String → List FieldDef → TypeDef)

def FieldsTypeTree.read (tracked : Bool) (t : FieldsTypeTree) : TypeDef :=
  build t.name.text (ImplementsTree.names t.interfaces) (mergedFields (t.fieldDefs tracked))

theorem sound_readFieldsType :
    Sound (readFieldsType build) FieldsTypeTree.lexemes (FieldsTypeTree.read build) Always := by
  intro c a d h
  simp only [readFieldsType, bind_eq_done, pure_eq_done] at h
  obtain ⟨name, _, hname, is, _, his, _, _, hds, fs, _, hfs, rfl, rfl⟩ := h
  obtain ⟨fs, -, rfl, rfl⟩ := sound_readFieldDefs _ _ _ hfs
  obtain ⟨ds, -, rfl, -⟩ := sound_skipDirectives _ _ _ hds
  obtain ⟨is, -, rfl, rfl⟩ := sound_readImplements _ _ _ his
  obtain ⟨n, -, rfl, rfl⟩ := sound_declaredName _ _ _ _ hname
  refine ⟨⟨n, is, ds, fs⟩, trivial, ?_, rfl⟩
  simp [FieldsTypeTree.lexemes, NameTree.lexemes]

theorem complete_readFieldsType :
    Complete (readFieldsType build) FieldsTypeTree.lexemes (FieldsTypeTree.read build)
      FollowsDeclaration Always := by
  intro c t rest _ hrest
  obtain ⟨n, is, ds, fs⟩ := t
  have hfields : EndsDirectives (headToken (optionalLexemes
      (EnclosedTree.lexemes .braceOpen .braceClose FieldTree.lexemes) fs ++ rest)) :=
    headToken_optional _ (fun _ _ => endsDirectives_braceOpen) fs hrest.endsDirectives
  have hafter : EndsImplements (headToken (ds.flatMap DirectiveTree.lexemes ++
      (optionalLexemes (EnclosedTree.lexemes .braceOpen .braceClose FieldTree.lexemes) fs
        ++ rest))) := by
    refine headToken_flatMap _ (fun _ _ => ?_) ds
      (headToken_optional _ (fun _ _ => ?_) fs hrest.endsImplements)
    · simp [EndsImplements, DirectiveTree.lexemes, headToken_lexeme]
    · simp [EndsImplements, EnclosedTree.lexemes, headToken_lexeme]
  simp only [readFieldsType, FieldsTypeTree.lexemes, List.cons_append, List.append_assoc]
  rw [bind_done (declaredName_done _ _ _),
    bind_done (complete_readImplements c is _ trivial hafter),
    bind_done (complete_skipDirectives c ds _ trivial hfields),
    bind_done (complete_readFieldDefs c fs rest trivial (hrest.ne (by simp [Token.rank])))]
  rfl

end

def readMembers : DeclarationReader (List String) := do
  if ← optional .equal then readSeparated .pipe (declaredName "member type") else pure []

theorem readUnionType_eq :
    readUnionType = (do
      let name ← declaredName "type"
      skipDirectives
      let members ← readMembers
      pure (.union ⟨name, members⟩)) := by
  simp only [readUnionType, readMembers, bind_assoc]
  exact bind_congr fun _ => bind_congr fun _ => bind_congr fun b => by cases b <;> simp

theorem sound_readMembers :
    Sound readMembers (optionalLexemes MembersTree.lexemes) (fun _ => MembersTree.names)
      Always := by
  intro c a d h
  simp only [readMembers, bind_eq_done, optional_eq_done (t := .equal) (by simp)] at h
  obtain ⟨b, m, ⟨rfl, q, rfl⟩ | ⟨rfl, -, rfl⟩, h⟩ := h
  · simp only [if_true] at h
    obtain ⟨s, -, rfl, rfl⟩ := sound_readSeparated (by simp) (sound_declaredName _) _ _ _ h
    exact ⟨some ⟨q, s⟩, trivial, rfl, rfl⟩
  · simp only [Bool.false_eq_true, if_false, pure_eq_done] at h
    obtain ⟨rfl, rfl⟩ := h
    exact ⟨none, trivial, rfl, rfl⟩

theorem complete_readMembers :
    Complete readMembers (optionalLexemes MembersTree.lexemes) (fun _ => MembersTree.names)
      FollowsDeclaration Always := by
  intro c t rest _ hrest
  cases t with
  | none => exact bind_done (optional_absent c (hrest.ne (by simp [Token.rank])))
  | some t =>
    exact (bind_done (optional_done _ _)).trans
      (complete_readSeparated (complete_declaredName _)
        (by simp [NameTree.lexemes, NameTree.lexeme, headToken_lexeme])
        c t.types rest trivial hrest.ne_pipe)

theorem sound_readEnumValue (enum : String) :
    Sound (readEnumValue enum) EnumValueTree.lexemes (fun _ v => v.name.text) Always := by
  intro c a d h
  rw [readEnumValue, bind_done peek_apply] at h
  by_cases hreserved : c.peek = .name "true" ∨ c.peek = .name "false" ∨ c.peek = .name "null"
  · rw [if_pos hreserved] at h
    exact absurd h fail_ne_done
  · simp only [if_neg hreserved, bind_eq_done, pure_eq_done] at h
    obtain ⟨name, _, hname, _, _, hds, _, _, hnext, rfl, rfl⟩ := h
    obtain ⟨x, -, rfl, -⟩ := sound_skipDescription _ _ _ hnext
    obtain ⟨ds, -, rfl, -⟩ := sound_skipDirectives _ _ _ hds
    obtain ⟨q, t, ht, rfl⟩ := (take_eq_done rfl).1 hname
    cases t with
    | name text =>
      obtain rfl := Option.some.inj ht
      simp only [Cursor.peek_before, headToken_lexeme, Token.name.injEq, not_or] at hreserved
      exact ⟨⟨⟨text, q⟩, hreserved, ds, x⟩, trivial,
        by simp [EnumValueTree.lexemes, NameTree.lexeme], rfl⟩
    | _ => simp at ht

theorem EnumValueTree.lexemes_ne_nil (v : EnumValueTree) : v.lexemes ≠ [] := by
  simp [lexemes]

def EndsEnumValue (t : Token) : Prop := NoString t ∧ EndsAt 5 t

theorem EnumValueTree.ends (v : EnumValueTree) (r : List Lexeme) :
    headToken (v.lexemes ++ r) ≠ .braceClose ∧ EndsEnumValue (headToken (v.lexemes ++ r)) := by
  simp [lexemes, NameTree.lexeme, headToken_lexeme, EndsEnumValue, NoString, EndsAt, Token.rank]

theorem complete_readEnumValue (enum : String) :
    Complete (readEnumValue enum) EnumValueTree.lexemes (fun _ v => v.name.text) EndsEnumValue
      Always := by
  intro c v rest _ hrest
  obtain ⟨n, hn, ds, x⟩ := v
  have hnext : EndsDirectives (headToken (optionalLexemes DescriptionTree.lexemes x ++ rest)) :=
    headToken_optional _ (fun t _ => endsDirectives_string t.text) x hrest.2.endsDirectives
  have hunreserved : ¬ (Token.name n.text = .name "true" ∨ Token.name n.text = .name "false" ∨
      Token.name n.text = .name "null") := by
    simpa only [Token.name.injEq, not_or] using hn
  rw [readEnumValue, bind_done peek_apply, Cursor.peek_before]
  simp only [EnumValueTree.lexemes, List.cons_append, List.append_assoc, NameTree.lexeme,
    headToken_lexeme, if_neg hunreserved]
  rw [bind_done (take_done (by rfl) _ _), bind_done (complete_skipDirectives c ds _ trivial hnext),
    bind_done (complete_skipDescription c x rest trivial hrest.1)]
  rfl

def readEnumValues (enum : String) : DeclarationReader (List String) := do
  if ← optional .braceOpen then
    skipDescription
    itemsUntil .braceClose (readEnumValue enum)
  else pure []

theorem readEnumType_eq :
    readEnumType = (do
      let name ← declaredName "type"
      skipDirectives
      let values ← readEnumValues name
      pure (.enum ⟨name, Named.ofList id values⟩)) := by
  simp only [readEnumType, readEnumValues, bind_assoc]
  exact bind_congr fun _ => bind_congr fun _ => bind_congr fun b => by
    cases b <;> simp [Named.ofList]

theorem sound_readEnumValues (enum : String) :
    Sound (readEnumValues enum) (optionalLexemes EnumValuesTree.lexemes)
      (fun _ => EnumValuesTree.names) Always := by
  intro c a d h
  simp only [readEnumValues, bind_eq_done, optional_eq_done (t := .braceOpen) (by simp)] at h
  obtain ⟨b, m, ⟨rfl, q, rfl⟩ | ⟨rfl, -, rfl⟩, h⟩ := h
  · simp only [if_true, bind_eq_done] at h
    obtain ⟨_, _, hdescription, hvalues⟩ := h
    obtain ⟨vs, r, -, rfl, rfl⟩ := sound_itemsUntil (by simp) (sound_readEnumValue enum) hvalues
    obtain ⟨x, -, rfl, -⟩ := sound_skipDescription _ _ _ hdescription
    refine ⟨some ⟨q, x, vs, r⟩, trivial, ?_, rfl⟩
    simp [optionalLexemes, EnumValuesTree.lexemes]
  · simp only [Bool.false_eq_true, if_false, pure_eq_done] at h
    obtain ⟨rfl, rfl⟩ := h
    exact ⟨none, trivial, rfl, rfl⟩

theorem complete_readEnumValues (enum : String) :
    Complete (readEnumValues enum) (optionalLexemes EnumValuesTree.lexemes)
      (fun _ => EnumValuesTree.names) (· ≠ .braceOpen) Always := by
  intro c e rest _ hrest
  cases e with
  | none => exact bind_done (optional_absent c hrest)
  | some e =>
    obtain ⟨q, x, vs, r⟩ := e
    have hclose : EndsEnumValue .braceClose := by simp [EndsEnumValue, NoString, EndsAt, Token.rank]
    have hvalues := complete_itemsUntil .braceClose (complete_readEnumValue enum)
      EnumValueTree.lexemes_ne_nil (fun v _ r => v.ends r) hclose
      (fun v (_ : v ∈ vs) => trivial) c r rest
    have hfirst : NoString (headToken
        (vs.flatMap EnumValueTree.lexemes ++ r.lexeme .braceClose :: rest)) :=
      headToken_flatMap (P := NoString) _ (fun v r => (v.ends r).2.1) vs hclose.1
    simp only [readEnumValues, optionalLexemes_some, EnumValuesTree.lexemes, List.cons_append,
      List.append_assoc, List.nil_append]
    rw [bind_done (optional_done _ _), if_pos rfl,
      bind_done (complete_skipDescription c x _ trivial hfirst)]
    exact hvalues

theorem readTypeDef_done {word : String} {body : DeclarationReader TypeDef}
    (hbody : typeBody? (.name word) = some body) (c : Cursor) (p : Place) (ls : List Lexeme) :
    readTypeDef (c.before (p.lexeme (.name word) :: ls)) = body (c.before ls) := by
  rw [readTypeDef_eq, bind_done peek_apply, Cursor.peek_before, headToken_lexeme, hbody]
  rfl

theorem typeBody?_eq_some {t : Token} {body : DeclarationReader TypeDef}
    (h : typeBody? t = some body) :
    (t, body) ∈ [(.name "type", readObjectType), (.name "interface", readInterfaceType),
      (.name "union", readUnionType), (.name "enum", readEnumType),
      (.name "scalar", readScalarType), (.name "input", readInputObjectType)] := by
  unfold typeBody? at h
  repeat' split at h
  all_goals first
    | exact Option.some.inj h ▸ by simp only [*, List.mem_cons, true_or, or_true]
    | exact absurd h (by simp)

theorem readTypeDef_cases {c d : Cursor} {a : TypeDef} (h : readTypeDef c = .done a d) :
    ∃ (t : Token) (body : DeclarationReader TypeDef) (p : Place) (m : Cursor),
      typeBody? t = some body ∧ c = m.before (p.lexeme t :: m.ahead) ∧ body m = .done a d := by
  rw [readTypeDef_eq, bind_done peek_apply] at h
  cases hbody : typeBody? c.peek with
  | none =>
    simp only [hbody] at h
    exact absurd h fail_ne_done
  | some body =>
    simp only [hbody, bind_done skip_apply] at h
    have hpeek : c.peek ≠ .finish := by
      intro heq
      rw [heq] at hbody
      simp [typeBody?] at hbody
    obtain ⟨p, hp⟩ := Cursor.exists_place hpeek
    exact ⟨c.peek, body, p, c.next, hbody, hp, h⟩

theorem sound_readTypeDef :
    Sound readTypeDef TypeDefTree.lexemes (fun tracked t => (t.type tracked).merged) Always := by
  intro c a d h
  obtain ⟨t, body, p, m, hbody, rfl, h⟩ := readTypeDef_cases h
  have hcases := typeBody?_eq_some hbody
  simp only [List.mem_cons, Prod.mk.injEq, List.not_mem_nil, or_false] at hcases
  obtain ⟨rfl, rfl⟩ | ⟨rfl, rfl⟩ | ⟨rfl, rfl⟩ | ⟨rfl, rfl⟩ | ⟨rfl, rfl⟩ | ⟨rfl, rfl⟩ := hcases
  · obtain ⟨b, -, rfl, rfl⟩ := sound_readFieldsType
      (fun name interfaces fields => .object ⟨name, fields, interfaces⟩) _ _ _ h
    exact ⟨.object p b, trivial, rfl, rfl⟩
  · obtain ⟨b, -, rfl, rfl⟩ := sound_readFieldsType
      (fun name interfaces fields => .interface ⟨name, fields, interfaces, [], []⟩) _ _ _ h
    exact ⟨.interface p b, trivial, rfl, rfl⟩
  · simp only [readUnionType_eq, bind_eq_done, pure_eq_done] at h
    obtain ⟨name, _, hname, _, _, hds, ms, _, hms, rfl, rfl⟩ := h
    obtain ⟨ms, -, rfl, rfl⟩ := sound_readMembers _ _ _ hms
    obtain ⟨ds, -, rfl, -⟩ := sound_skipDirectives _ _ _ hds
    obtain ⟨n, -, rfl, rfl⟩ := sound_declaredName _ _ _ _ hname
    refine ⟨.union p n ds ms, trivial, ?_, rfl⟩
    simp [TypeDefTree.lexemes, NameTree.lexemes]
  · simp only [readEnumType_eq, bind_eq_done, pure_eq_done] at h
    obtain ⟨name, _, hname, _, _, hds, vs, _, hvs, rfl, rfl⟩ := h
    obtain ⟨vs, -, rfl, rfl⟩ := sound_readEnumValues _ _ _ _ hvs
    obtain ⟨ds, -, rfl, -⟩ := sound_skipDirectives _ _ _ hds
    obtain ⟨n, -, rfl, rfl⟩ := sound_declaredName _ _ _ _ hname
    refine ⟨.enum p n ds vs, trivial, ?_, rfl⟩
    simp [TypeDefTree.lexemes, NameTree.lexemes]
  · simp only [readScalarType, bind_eq_done, pure_eq_done] at h
    obtain ⟨name, _, hname, _, _, hds, rfl, rfl⟩ := h
    obtain ⟨ds, -, rfl, -⟩ := sound_skipDirectives _ _ _ hds
    obtain ⟨n, -, rfl, rfl⟩ := sound_declaredName _ _ _ _ hname
    exact ⟨.scalar p n ds, trivial, rfl, rfl⟩
  · simp only [readInputObjectType, bind_eq_done, pure_eq_done] at h
    obtain ⟨name, _, hname, _, _, hds, is, _, his, rfl, rfl⟩ := h
    obtain ⟨is, -, rfl, rfl⟩ := sound_readEnclosed (by simp) (by simp) sound_readInputDef _ _ _ his
    obtain ⟨ds, -, rfl, -⟩ := sound_skipDirectives _ _ _ hds
    obtain ⟨n, -, rfl, rfl⟩ := sound_declaredName _ _ _ _ hname
    refine ⟨.input p n ds is, trivial, ?_, rfl⟩
    simp [TypeDefTree.lexemes, NameTree.lexemes]

theorem complete_readTypeDef :
    Complete readTypeDef TypeDefTree.lexemes (fun tracked t => (t.type tracked).merged)
      FollowsDeclaration Always := by
  intro c t rest _ hrest
  cases t with
  | object p b =>
    have hbody : typeBody? (.name "type") = some readObjectType := by simp [typeBody?]
    exact (readTypeDef_done hbody c p _).trans
      (complete_readFieldsType (fun name interfaces fields => .object ⟨name, fields, interfaces⟩)
        c b rest trivial hrest)
  | interface p b =>
    have hbody : typeBody? (.name "interface") = some readInterfaceType := by simp [typeBody?]
    exact (readTypeDef_done hbody c p _).trans
      (complete_readFieldsType
        (fun name interfaces fields => .interface ⟨name, fields, interfaces, [], []⟩)
        c b rest trivial hrest)
  | union p n ds ms =>
    have hbody : typeBody? (.name "union") = some readUnionType := by simp [typeBody?]
    have hmembers := headToken_optional MembersTree.lexemes
      (fun _ _ => endsDirectives_equal) ms hrest.endsDirectives
    simp only [TypeDefTree.lexemes, List.cons_append, List.append_assoc]
    rw [readTypeDef_done hbody, readUnionType_eq, bind_done (declaredName_done _ _ _),
      bind_done (complete_skipDirectives c ds _ trivial hmembers),
      bind_done (complete_readMembers c ms rest trivial hrest)]
    rfl
  | enum p n ds vs =>
    have hbody : typeBody? (.name "enum") = some readEnumType := by simp [typeBody?]
    have hvalues := headToken_optional EnumValuesTree.lexemes
      (fun _ _ => endsDirectives_braceOpen) vs hrest.endsDirectives
    simp only [TypeDefTree.lexemes, List.cons_append, List.append_assoc]
    rw [readTypeDef_done hbody, readEnumType_eq, bind_done (declaredName_done _ _ _),
      bind_done (complete_skipDirectives c ds _ trivial hvalues),
      bind_done (complete_readEnumValues n.text c vs rest trivial
        (hrest.ne (by simp [Token.rank])))]
    rfl
  | scalar p n ds =>
    have hbody : typeBody? (.name "scalar") = some readScalarType := by simp [typeBody?]
    simp only [TypeDefTree.lexemes, List.cons_append]
    rw [readTypeDef_done hbody, readScalarType, bind_done (declaredName_done _ _ _),
      bind_done (complete_skipDirectives c ds _ trivial hrest.endsDirectives)]
    rfl
  | input p n ds is =>
    have hbody : typeBody? (.name "input") = some readInputObjectType := by simp [typeBody?]
    have hfields := headToken_optional
      (EnclosedTree.lexemes .braceOpen .braceClose InputTree.lexemes)
      (fun _ _ => endsDirectives_braceOpen) is hrest.endsDirectives
    simp only [TypeDefTree.lexemes, List.cons_append, List.append_assoc]
    rw [readTypeDef_done hbody, readInputObjectType, bind_done (declaredName_done _ _ _),
      bind_done (complete_skipDirectives c ds _ trivial hfields),
      bind_done (complete_readInputs (.inr rfl) c is rest trivial
        (hrest.ne (by simp [Token.rank])))]
    rfl

theorem sound_readDirectiveLocation (directive : String) :
    Sound (readDirectiveLocation directive) LocationTree.lexemes (fun _ l => l.location)
      Always := by
  intro c a d h
  obtain ⟨p, t, ht, rfl⟩ := (take_eq_done rfl).1 h
  cases t with
  | name text =>
    have hname : a.name = text := by simpa using List.find?_some ht
    exact ⟨⟨p, a⟩, trivial, by rw [LocationTree.lexemes, hname]; rfl, rfl⟩
  | _ => simp at ht

theorem complete_readDirectiveLocation (directive : String) :
    Complete (readDirectiveLocation directive) LocationTree.lexemes (fun _ l => l.location) Always
      Always :=
  fun _ l rest _ _ => take_done (DirectiveLocation.ofName?_name l.location) l.place rest

theorem sound_readDirectiveDef {c d : Cursor} {a : DirectiveDef}
    (h : readDirectiveDef c = .done a d) (keyword : Place) :
    ∃ t : DirectiveDefTree, c.before (keyword.lexeme (.name "directive") :: c.ahead) =
      d.before (t.lexemes ++ d.ahead) ∧ a = (t.directive d.tracked).merged := by
  simp only [readDirectiveDef, bind_eq_done, expect_eq_done (t := .name "on") (by simp),
    pure_eq_done] at h
  obtain ⟨name, _, hname, as, _, has, b, _, hrepeatable, _, _, ⟨q, rfl⟩, ls, _, hls, rfl, rfl⟩ := h
  obtain ⟨ls, -, rfl, rfl⟩ :=
    sound_readSeparated (by simp) (sound_readDirectiveLocation name) _ _ _ hls
  obtain ⟨r, -, rfl, rfl⟩ := sound_optional (by simp) _ _ _ hrepeatable
  obtain ⟨as, -, rfl, rfl⟩ := sound_readArgumentDefs _ _ _ has
  obtain ⟨p, t, ht, rfl⟩ := (take_eq_done rfl).1 hname
  cases t with
  | directiveName n =>
    obtain rfl := Option.some.inj ht
    refine ⟨⟨keyword, p, n, as, r, q, ls⟩, ?_, rfl⟩
    simp [DirectiveDefTree.lexemes]
  | _ => simp at ht

theorem complete_readDirectiveDef :
    Complete (do skip; readDirectiveDef) DirectiveDefTree.lexemes
      (fun tracked t => (t.directive tracked).merged) FollowsDeclaration Always := by
  intro c t rest _ hrest
  obtain ⟨keyword, p, n, as, r, q, ls⟩ := t
  have harguments : headToken (optionalLexemes (fun p : Place => [p.lexeme (.name "repeatable")]) r
      ++ q.lexeme (.name "on") :: (ls.lexemes .pipe LocationTree.lexemes ++ rest)) ≠ .parenOpen :=
    headToken_optional (P := (· ≠ .parenOpen)) _ (by simp [headToken_lexeme]) r
      (by simp [headToken_lexeme])
  have hlocations := complete_readSeparated (complete_readDirectiveLocation n)
    (by simp [LocationTree.lexemes, headToken_lexeme]) c ls rest trivial hrest.ne_pipe
  simp only [DirectiveDefTree.lexemes, List.cons_append, List.append_assoc]
  rw [bind_done skip_apply, Cursor.next_before, readDirectiveDef,
    bind_done (take_done (by rfl) _ _),
    bind_done (complete_readArgumentDefs c as _ trivial harguments),
    bind_done (complete_optional c r _ trivial (by simp [headToken_lexeme])),
    bind_done (expect_done _ _), bind_done hlocations]
  rfl

theorem RootNames.get?_set (r : RootNames) (k l : OperationKind) (name : String) :
    (r.set k name).get? l = if l = k then some name else r.get? l := by
  cases k <;> cases l <;> rfl

theorem RootTree.lexemes_ne_nil (r : RootTree) : r.lexemes ≠ [] := by
  simp [lexemes]

theorem sound_readRootsWithin (n : Nat) {sofar a : RootNames} {c d : Cursor}
    (h : readRootsWithin sofar n c = .done a d) :
    ∃ roots : List RootTree, (roots.map RootTree.kind).Nodup ∧
      (∀ r ∈ roots, sofar.get? r.kind = none) ∧
      c = d.before (roots.flatMap RootTree.lexemes ++ d.ahead) ∧
      a = RootsTree.setAll sofar roots := by
  induction n generalizing sofar c with
  | zero => exact absurd h unfinished_ne_done
  | succ n ih =>
    rw [readRootsWithin, bind_done peek_apply] at h
    by_cases hend : c.peek = .braceClose ∨ c.peek = .finish
    · rw [if_pos hend, pure_eq_done] at h
      obtain ⟨rfl, rfl⟩ := h
      exact ⟨[], by simp, by simp, rfl, rfl⟩
    · simp only [if_neg hend, bind_eq_done, expectToken_eq_done (t := .colon) (by simp)] at h
      obtain ⟨kind, _, hkind, _, m, ⟨q, rfl⟩, name, k, hname, h⟩ := h
      by_cases hsecond : (sofar.get? kind).isSome = true
      · rw [if_pos hsecond] at h
        exact absurd h fail_ne_done
      · rw [if_neg hsecond] at h
        obtain ⟨roots, hnodup, hfree, rfl, rfl⟩ := ih h
        obtain ⟨nt, -, rfl, rfl⟩ := sound_declaredName _ _ _ _ hname
        obtain ⟨p, t, ht, rfl⟩ := (take_eq_done rfl).1 hkind
        obtain rfl := OperationKind.ofToken?_eq_some.1 ht
        have hother : ∀ r ∈ roots, r.kind ≠ kind ∧ sofar.get? r.kind = none := by
          intro r hr
          have hget := hfree r hr
          rw [RootNames.get?_set] at hget
          by_cases heq : r.kind = kind
          · simp [heq] at hget
          · exact ⟨heq, by rwa [if_neg heq] at hget⟩
        refine ⟨⟨p, kind, q, nt⟩ :: roots, ?_, ?_, ?_, rfl⟩
        · rw [List.map_cons, List.nodup_cons, List.mem_map]
          exact ⟨fun ⟨r, hr, heq⟩ => (hother r hr).1 heq, hnodup⟩
        · refine List.forall_mem_cons.2 ⟨?_, fun r hr => (hother r hr).2⟩
          simpa using hsecond
        · simp [RootTree.lexemes, NameTree.lexemes]

theorem complete_readRootsWithin {roots : List RootTree} {sofar : RootNames}
    (hnodup : (roots.map RootTree.kind).Nodup) (hfree : ∀ r ∈ roots, sofar.get? r.kind = none)
    {n : Nat} (hn : roots.length < n) (c : Cursor) (q : Place) (rest : List Lexeme) :
    readRootsWithin sofar n
        (c.before (roots.flatMap RootTree.lexemes ++ q.lexeme .braceClose :: rest)) =
      .done (RootsTree.setAll sofar roots) (c.before (q.lexeme .braceClose :: rest)) := by
  induction roots generalizing sofar n with
  | nil =>
    obtain ⟨m, rfl⟩ : ∃ m, n = m + 1 := ⟨n - 1, by omega⟩
    rw [readRootsWithin, bind_done peek_apply, if_pos (.inl (Cursor.peek_before _ _))]
    rfl
  | cons r roots ih =>
    obtain ⟨m, rfl⟩ : ∃ m, n = m + 1 := ⟨n - 1, by omega⟩
    obtain ⟨p, kind, colon, nt⟩ := r
    rw [List.map_cons, List.nodup_cons, List.mem_map] at hnodup
    obtain ⟨hkind, hfree⟩ := List.forall_mem_cons.1 hfree
    have hnext : ∀ r ∈ roots, (sofar.set kind nt.text).get? r.kind = none := by
      intro r hr
      rw [RootNames.get?_set, if_neg fun heq => hnodup.1 ⟨r, hr, heq⟩]
      exact hfree r hr
    have hfirst : ¬ ((sofar.get? kind).isSome = true) := by simp [hkind]
    simp only [List.flatMap_cons, RootTree.lexemes, List.cons_append, List.nil_append]
    rw [readRootsWithin, bind_done peek_apply, Cursor.peek_before, headToken_lexeme,
      if_neg (by simp), bind_done (take_done (OperationKind.ofToken?_eq_some.2 rfl) _ _),
      bind_done (expectToken_done _ _ _), bind_done (declaredName_done _ _ _), if_neg hfirst]
    exact ih hnodup.2 hnext (Nat.lt_of_succ_lt_succ hn)

/-- The roots between the braces; each takes tokens, so that their number bounds the steps. -/
def readRootNames : DeclarationReader RootNames := fun c =>
  readRootsWithin .unset (c.ahead.length + 1) c

theorem readRoots_eq :
    readRoots = (do
      skipDirectives
      expectToken .braceOpen
      let roots ← readRootNames
      expectToken .braceClose
      pure roots) := rfl

theorem sound_readRoots {c d : Cursor} {a : RootNames} (h : readRoots c = .done a d)
    (keyword : Place) :
    ∃ t : RootsTree, c.before (keyword.lexeme (.name "schema") :: c.ahead) =
      d.before (t.lexemes ++ d.ahead) ∧ a = t.names := by
  simp only [readRoots_eq, bind_eq_done, expectToken_eq_done (t := .braceOpen) (by simp),
    expectToken_eq_done (t := .braceClose) (by simp), pure_eq_done] at h
  obtain ⟨_, _, hds, _, _, ⟨o, rfl⟩, roots, _, hroots, _, _, ⟨q, rfl⟩, rfl, rfl⟩ := h
  obtain ⟨roots, hnodup, -, rfl, rfl⟩ := sound_readRootsWithin _ hroots
  obtain ⟨ds, -, rfl, -⟩ := sound_skipDirectives _ _ _ hds
  refine ⟨⟨keyword, ds, o, roots, hnodup, q⟩, ?_, rfl⟩
  simp [RootsTree.lexemes]

theorem complete_readRoots (c : Cursor) (t : RootsTree) (rest : List Lexeme) :
    (do skip; readRoots : DeclarationReader RootNames) (c.before (t.lexemes ++ rest)) =
      .done t.names (c.before rest) := by
  obtain ⟨keyword, ds, o, roots, hnodup, q⟩ := t
  have hfree : ∀ r ∈ roots, RootNames.unset.get? r.kind = none := by
    intro r _
    cases r.kind <;> rfl
  have hlength := length_le_flatMap RootTree.lexemes_ne_nil roots
  have hroots : readRootNames
      (c.before (roots.flatMap RootTree.lexemes ++ q.lexeme .braceClose :: rest)) =
      .done (RootsTree.setAll .unset roots) (c.before (q.lexeme .braceClose :: rest)) := by
    refine complete_readRootsWithin hnodup hfree ?_ c q rest
    rw [Cursor.ahead_before, List.length_append]
    omega
  have hbrace : EndsDirectives (headToken (o.lexeme .braceOpen ::
      (roots.flatMap RootTree.lexemes ++ q.lexeme .braceClose :: rest))) := endsDirectives_braceOpen
  simp only [RootsTree.lexemes, List.cons_append, List.append_assoc, List.nil_append]
  rw [bind_done skip_apply, Cursor.next_before, readRoots_eq,
    bind_done (complete_skipDirectives c ds _ trivial hbrace),
    bind_done (expectToken_done _ _ _), bind_done hroots, bind_done (expectToken_done _ _ _)]
  rfl

def Declarations.add (tracked : Bool) (sofar : Declarations) : DeclarationTree → Declarations
  | .roots r => { sofar with roots := some r.names }
  | .directive x =>
    { sofar with directives := sofar.directives ++ [(x.directive tracked).merged] }
  | .type t => { sofar with types := sofar.types ++ [(t.type tracked).merged] }

def Declarations.Lacks (sofar : Declarations) : DeclarationTree → Prop
  | .roots _ => sofar.roots = none
  | .directive x => x.name ∉ sofar.directives.map DirectiveDef.name
  | .type t => (t.type false).name ∉ sofar.types.map TypeDef.name

theorem TypeDefTree.name_type (tracked : Bool) (t : TypeDefTree) :
    (t.type tracked).name = (t.type false).name := by
  cases t <;> rfl

theorem Declarations.any_name {α : Type} {nameOf : α → String} {as : List α} {name : String} :
    ¬ as.any (nameOf · == name) = true ↔ name ∉ as.map nameOf := by
  simp

theorem sound_readDeclaration {sofar a : Declarations} {c d : Cursor}
    (h : readDeclaration sofar c = .done a d) :
    ∃ t : DeclarationTree, sofar.Lacks t ∧ c = d.before (t.lexemes ++ d.ahead) ∧
      a = sofar.add d.tracked t := by
  rw [readDeclaration, bind_done peek_apply] at h
  by_cases hschema : c.peek = .name "schema"
  · rw [if_pos hschema] at h
    by_cases hroots : sofar.roots.isSome = true
    · rw [if_pos hroots] at h
      exact absurd h fail_ne_done
    · simp only [if_neg hroots, bind_eq_done, skip_eq_done, pure_eq_done] at h
      obtain ⟨_, _, rfl, roots, _, h, rfl, rfl⟩ := h
      obtain ⟨p, hp⟩ := Cursor.exists_place (c := c) (by rw [hschema]; simp)
      obtain ⟨t, ht, rfl⟩ := sound_readRoots h p
      rw [hschema, ht] at hp
      exact ⟨.roots t, by simpa [Declarations.Lacks] using hroots, hp, rfl⟩
  rw [if_neg hschema] at h
  by_cases hdirective : c.peek = .name "directive"
  · simp only [if_pos hdirective, bind_eq_done, skip_eq_done] at h
    obtain ⟨_, _, rfl, x, m, hx, h⟩ := h
    obtain ⟨p, hp⟩ := Cursor.exists_place (c := c) (by rw [hdirective]; simp)
    obtain ⟨t, ht, rfl⟩ := sound_readDirectiveDef hx p
    by_cases hsecond : sofar.directives.any (·.name == (t.directive m.tracked).merged.name) = true
    · rw [if_pos hsecond] at h
      exact absurd h fail_ne_done
    · rw [if_neg hsecond, pure_eq_done] at h
      obtain ⟨rfl, rfl⟩ := h
      rw [hdirective, ht] at hp
      exact ⟨.directive t, Declarations.any_name.1 hsecond, hp, rfl⟩
  rw [if_neg hdirective] at h
  by_cases hextend : c.peek = .name "extend"
  · rw [if_pos hextend] at h
    exact absurd h fail_ne_done
  · simp only [if_neg hextend, bind_eq_done] at h
    obtain ⟨_, m, ht, h⟩ := h
    obtain ⟨t, -, rfl, rfl⟩ := sound_readTypeDef _ _ _ ht
    by_cases hsecond : sofar.types.any (·.name == (t.type m.tracked).merged.name) = true
    · rw [if_pos hsecond] at h
      exact absurd h fail_ne_done
    · rw [if_neg hsecond, pure_eq_done] at h
      obtain ⟨rfl, rfl⟩ := h
      rw [TypeDef.name_merged, t.name_type, Declarations.any_name] at hsecond
      exact ⟨.type t, hsecond, rfl, rfl⟩

theorem complete_readDeclaration {sofar : Declarations} (c : Cursor) {t : DeclarationTree}
    (ht : sofar.Lacks t) {rest : List Lexeme} (hrest : FollowsDeclaration (headToken rest)) :
    readDeclaration sofar (c.before (t.lexemes ++ rest)) =
      .done (sofar.add c.tracked t) (c.before rest) := by
  rw [readDeclaration, bind_done peek_apply, Cursor.peek_before]
  cases t with
  | roots t =>
    have hhead : headToken ((DeclarationTree.roots t).lexemes ++ rest) = .name "schema" := rfl
    have hroots : ¬ sofar.roots.isSome = true := by
      rw [show sofar.roots = none from ht]
      simp
    rw [hhead, if_pos rfl, if_neg hroots, ← bind_assoc]
    exact bind_done (complete_readRoots c t rest)
  | directive t =>
    have hhead : headToken ((DeclarationTree.directive t).lexemes ++ rest) = .name "directive" :=
      rfl
    have hsecond : ¬ sofar.directives.any (·.name == (t.directive c.tracked).merged.name) = true :=
      Declarations.any_name.2 ht
    rw [hhead, if_neg (by simp), if_pos rfl, ← bind_assoc]
    refine (bind_done (complete_readDirectiveDef c t rest trivial hrest)).trans ?_
    rw [if_neg hsecond]
    rfl
  | type t =>
    have hhead : ∃ word, headToken ((DeclarationTree.type t).lexemes ++ rest) = .name word ∧
        word ≠ "schema" ∧ word ≠ "directive" ∧ word ≠ "extend" := by
      cases t <;> exact ⟨_, rfl, by decide⟩
    have hsecond : ¬ sofar.types.any (·.name == (t.type c.tracked).merged.name) = true := by
      rw [TypeDef.name_merged, t.name_type, Declarations.any_name]
      exact ht
    obtain ⟨word, hhead, hschema, hdirective, hextend⟩ := hhead
    rw [hhead, if_neg (by simpa using hschema), if_neg (by simpa using hdirective),
      if_neg (by simpa using hextend)]
    refine (bind_done (complete_readTypeDef c t rest trivial hrest)).trans ?_
    rw [if_neg hsecond]
    rfl

def Declarations.addAll (tracked : Bool) (sofar : Declarations) (ts : List DescribedTree) :
    Declarations :=
  ts.foldl (fun sofar t => sofar.add tracked t.declaration) sofar

def Declarations.LacksAll (tracked : Bool) : Declarations → List DescribedTree → Prop
  | _, [] => True
  | sofar, t :: ts =>
    sofar.Lacks t.declaration ∧ LacksAll tracked (sofar.add tracked t.declaration) ts

theorem sound_readDeclarationsWithin (n : Nat) {sofar a : Declarations} {c d : Cursor}
    (h : readDeclarationsWithin sofar n c = .done a d) :
    ∃ (ts : List DescribedTree) (x : Option DescriptionTree), sofar.LacksAll d.tracked ts ∧
      c = d.before (ts.flatMap DescribedTree.lexemes ++
        (optionalLexemes DescriptionTree.lexemes x ++ d.ahead)) ∧
      a = sofar.addAll d.tracked ts ∧ d.peek = .finish := by
  induction n generalizing sofar c with
  | zero => exact absurd h unfinished_ne_done
  | succ n ih =>
    simp only [readDeclarationsWithin, bind_eq_done] at h
    obtain ⟨_, m, hdescription, _, _, hpeek, h⟩ := h
    obtain ⟨rfl, rfl⟩ := Outcome.done.inj hpeek
    obtain ⟨x, -, rfl, -⟩ := sound_skipDescription _ _ _ hdescription
    by_cases hfinish : m.peek = .finish
    · rw [if_pos hfinish, pure_eq_done] at h
      obtain ⟨rfl, rfl⟩ := h
      exact ⟨[], x, trivial, rfl, rfl, hfinish⟩
    · simp only [if_neg hfinish, bind_eq_done] at h
      obtain ⟨_, k, ht, h⟩ := h
      obtain ⟨t, hlacks, rfl, rfl⟩ := sound_readDeclaration ht
      obtain ⟨ts, y, hlacksAll, rfl, rfl, hend⟩ := ih h
      exact ⟨⟨x, t⟩ :: ts, y, ⟨hlacks, hlacksAll⟩, by simp [DescribedTree.lexemes], rfl, hend⟩

theorem DeclarationTree.exists_word (t : DeclarationTree) :
    ∃ word ∈ declarationWords, ∀ ls, headToken (t.lexemes ++ ls) = .name word := by
  cases t with
  | roots t => exact ⟨"schema", by decide, fun _ => rfl⟩
  | directive t => exact ⟨"directive", by decide, fun _ => rfl⟩
  | type t =>
    cases t with
    | object p b => exact ⟨"type", by decide, fun _ => rfl⟩
    | interface p b => exact ⟨"interface", by decide, fun _ => rfl⟩
    | union p n ds m => exact ⟨"union", by decide, fun _ => rfl⟩
    | enum p n ds v => exact ⟨"enum", by decide, fun _ => rfl⟩
    | scalar p n ds => exact ⟨"scalar", by decide, fun _ => rfl⟩
    | input p n ds f => exact ⟨"input", by decide, fun _ => rfl⟩

theorem DescribedTree.follows (t : DescribedTree) (ls : List Lexeme) :
    FollowsDeclaration (headToken (t.lexemes ++ ls)) := by
  obtain ⟨word, hword, hhead⟩ := t.declaration.exists_word
  rw [lexemes, List.append_assoc]
  refine headToken_optional _ (fun x _ => .string x.text) _ ?_
  rw [hhead]
  exact .word hword

theorem DescribedTree.lexemes_ne_nil (t : DescribedTree) : t.lexemes ≠ [] := by
  obtain ⟨word, -, hhead⟩ := t.declaration.exists_word
  intro hnil
  have hdeclaration := (List.append_eq_nil_iff.1 hnil).2
  have hempty := hhead []
  rw [hdeclaration] at hempty
  simp [headToken] at hempty

theorem complete_readDeclarationsWithin {ts : List DescribedTree} {sofar : Declarations}
    (c : Cursor) (hlacks : sofar.LacksAll c.tracked ts) {n : Nat} (hn : ts.length < n)
    (x : Option DescriptionTree) :
    readDeclarationsWithin sofar n
        (c.before (ts.flatMap DescribedTree.lexemes ++ optionalLexemes DescriptionTree.lexemes x)) =
      .done (sofar.addAll c.tracked ts) (c.before []) := by
  induction ts generalizing sofar n with
  | nil =>
    obtain ⟨m, rfl⟩ : ∃ m, n = m + 1 := ⟨n - 1, by omega⟩
    have hdescription := complete_skipDescription c x [] trivial (by simp [NoString, headToken])
    have hend : (c.before []).peek = .finish := Cursor.peek_before _ _
    rw [List.append_nil] at hdescription
    rw [readDeclarationsWithin, List.flatMap_nil, List.nil_append, bind_done hdescription,
      bind_done peek_apply, if_pos hend]
    rfl
  | cons t ts ih =>
    obtain ⟨m, rfl⟩ : ∃ m, n = m + 1 := ⟨n - 1, by omega⟩
    obtain ⟨y, t⟩ := t
    obtain ⟨ht, hts⟩ := hlacks
    obtain ⟨word, -, hhead⟩ := t.exists_word
    have hrest : FollowsDeclaration (headToken (ts.flatMap DescribedTree.lexemes ++
        optionalLexemes DescriptionTree.lexemes x)) := by
      refine headToken_flatMap _ DescribedTree.follows ts ?_
      cases x with
      | none => exact .finish
      | some x => exact .string x.text
    have hname : NoString (headToken (t.lexemes ++ (ts.flatMap DescribedTree.lexemes ++
        optionalLexemes DescriptionTree.lexemes x))) := by
      rw [hhead]
      simp [NoString]
    simp only [List.flatMap_cons, DescribedTree.lexemes, List.append_assoc]
    rw [readDeclarationsWithin, bind_done (complete_skipDescription c y _ trivial hname),
      bind_done peek_apply, Cursor.peek_before, hhead, if_neg (by simp),
      bind_done (complete_readDeclaration c ht hrest)]
    exact ih hts (Nat.lt_of_succ_lt_succ hn)

namespace Declarations

variable (tracked : Bool)

theorem addAll_cons (sofar : Declarations) (t : DescribedTree) (ts : List DescribedTree) :
    sofar.addAll tracked (t :: ts) = (sofar.add tracked t.declaration).addAll tracked ts := rfl

theorem types_addAll (ts : List DescribedTree) (sofar : Declarations) :
    (sofar.addAll tracked ts).types = sofar.types ++
      ((ts.filterMap DescribedTree.type?).map (TypeDefTree.type tracked)).map TypeDef.merged := by
  induction ts generalizing sofar with
  | nil => exact (List.append_nil _).symm
  | cons t ts ih =>
    obtain ⟨x, t⟩ := t
    rw [addAll_cons, ih]
    cases t <;> simp [add, List.filterMap_cons, DescribedTree.type?]

theorem directives_addAll (ts : List DescribedTree) (sofar : Declarations) :
    (sofar.addAll tracked ts).directives = sofar.directives ++
      ((ts.filterMap DescribedTree.directive?).map (DirectiveDefTree.directive tracked)).map
        DirectiveDef.merged := by
  induction ts generalizing sofar with
  | nil => exact (List.append_nil _).symm
  | cons t ts ih =>
    obtain ⟨x, t⟩ := t
    rw [addAll_cons, ih]
    cases t <;> simp [add, List.filterMap_cons, DescribedTree.directive?]

variable {tracked}

theorem roots_addAll {ts : List DescribedTree} {sofar : Declarations}
    (h : sofar.LacksAll tracked ts) :
    (sofar.addAll tracked ts).roots.toList =
      sofar.roots.toList ++ (ts.filterMap DescribedTree.roots?).map RootsTree.names := by
  induction ts generalizing sofar with
  | nil => exact (List.append_nil _).symm
  | cons t ts ih =>
    obtain ⟨x, t⟩ := t
    obtain ⟨ht, hts⟩ := h
    rw [addAll_cons, ih hts]
    cases t with
    | roots r =>
      have hnone : sofar.roots = none := ht
      simp [add, DescribedTree.roots?, hnone]
    | directive y => rfl
    | type y => rfl

theorem not_mem_of_nodup_append {α : Type} {nameOf : α → String} {as bs : List α} {b : α}
    (h : ((as ++ b :: bs).map nameOf).Nodup) : nameOf b ∉ as.map nameOf := by
  rw [List.map_append, List.nodup_append] at h
  exact fun hmem => h.2.2 _ hmem _ List.mem_cons_self rfl

theorem lacksAll_of_nodup {ts : List DescribedTree} {sofar : Declarations}
    (htypes : ((sofar.addAll tracked ts).types.map TypeDef.name).Nodup)
    (hdirectives : ((sofar.addAll tracked ts).directives.map DirectiveDef.name).Nodup)
    (hroots : (sofar.roots.toList ++
      (ts.filterMap DescribedTree.roots?).map RootsTree.names).length ≤ 1) :
    sofar.LacksAll tracked ts := by
  induction ts generalizing sofar with
  | nil => trivial
  | cons t ts ih =>
    obtain ⟨x, t⟩ := t
    cases t with
    | roots r =>
      cases hsofar : sofar.roots with
      | none =>
        rw [hsofar] at hroots
        exact ⟨hsofar, ih htypes hdirectives hroots⟩
      | some names => simp [hsofar, DescribedTree.roots?] at hroots
    | directive y =>
      refine ⟨?_, ih htypes hdirectives hroots⟩
      rw [directives_addAll] at hdirectives
      exact not_mem_of_nodup_append (b := (y.directive tracked).merged) hdirectives
    | type y =>
      refine ⟨?_, ih htypes hdirectives hroots⟩
      rw [types_addAll] at htypes
      have hname := not_mem_of_nodup_append (b := (y.type tracked).merged) htypes
      rwa [TypeDef.name_merged, y.name_type] at hname

end Declarations

theorem TypeDefTree.unlinked_type (tracked : Bool) (t : TypeDefTree) :
    (t.type tracked).Unlinked := by
  cases t with
  | interface p b => exact ⟨rfl, rfl⟩
  | scalar p n ds => exact rfl
  | _ => exact trivial

namespace SchemaTree

variable {tracked : Bool} {t : SchemaTree} {d : Declarations}

theorem Writes.lacksAll (h : t.Writes tracked d) (hd : d.Distinct) :
    Declarations.empty.LacksAll tracked t.declarations := by
  refine Declarations.lacksAll_of_nodup ?_ ?_ ?_
  · rw [Declarations.types_addAll, h.types]
    simpa [Declarations.empty, Function.comp_def] using hd.types
  · rw [Declarations.directives_addAll, h.directives]
    simpa [Declarations.empty, Function.comp_def, DirectiveDef.merged] using hd.directives
  · rw [h.roots]
    cases d.roots <;> simp [Declarations.empty]

theorem Writes.addAll (h : t.Writes tracked d) (hd : d.Distinct) :
    Declarations.empty.addAll tracked t.declarations = d.merged := by
  have htypes := Declarations.types_addAll tracked t.declarations .empty
  have hdirectives := Declarations.directives_addAll tracked t.declarations .empty
  have hroots := Declarations.roots_addAll (h.lacksAll hd)
  rw [h.types] at htypes
  rw [h.directives] at hdirectives
  rw [h.roots] at hroots
  generalize Declarations.empty.addAll tracked t.declarations = a at htypes hdirectives hroots
  obtain ⟨types, directives, roots⟩ := a
  obtain rfl : types = d.types.map TypeDef.merged := htypes
  obtain rfl : directives = d.directives.map DirectiveDef.merged := hdirectives
  obtain rfl : roots = d.roots := by
    cases roots <;> cases hd : d.roots <;> simp_all [Declarations.empty]
  rfl

theorem exists_writes (h : Declarations.empty.LacksAll tracked t.declarations)
    (hd : (Declarations.empty.addAll tracked t.declarations).Distinct) :
    ∃ d, t.Writes tracked d ∧ d.Distinct := by
  refine ⟨⟨_, _, (Declarations.empty.addAll tracked t.declarations).roots⟩,
    ⟨rfl, rfl, (Declarations.roots_addAll h).symm⟩, ?_, ?_, ?_⟩
  · have htypes := hd.types
    rw [Declarations.types_addAll] at htypes
    simpa [Declarations.empty, Function.comp_def] using htypes
  · have hdirectives := hd.directives
    rw [Declarations.directives_addAll] at hdirectives
    simpa [Declarations.empty, Function.comp_def, DirectiveDef.merged] using hdirectives
  · intro u hu
    obtain ⟨t, -, rfl⟩ := List.mem_map.1 hu
    exact t.unlinked_type _

end SchemaTree

/-- The reader of schema definitions recognises the grammar: it takes the tokens of a source, all
of them, exactly if they are those of a tree that declares nothing twice, and yields what the tree
writes, members of one name merged. -/
theorem readDeclarations_eq_done {tracked : Bool} {source : List Char} {a : Declarations} :
    (∃ rest, readDeclarations (.ofSource tracked source) = .done a rest) ↔
      ∃ (t : SchemaTree) (d : Declarations), t.lexemes = Lexeme.scan source ∧
        t.Writes tracked d ∧ d.Distinct ∧ a = d.merged := by
  constructor
  · rintro ⟨rest, h⟩
    have hdistinct := Declarations.distinct_readDeclarations _ _ _ h
    obtain ⟨ts, x, hlacks, hc, rfl, hfinish⟩ := sound_readDeclarationsWithin _ h
    obtain ⟨hscan, -, rfl⟩ := Cursor.mk.inj hc
    have hend : rest.ahead = [] := by
      rw [Cursor.peek_eq] at hfinish
      cases hahead : rest.ahead with
      | nil => rfl
      | cons l ls =>
        have hl : l ∈ Lexeme.scan source := by
          rw [hscan, hahead]
          simp
        rw [hahead] at hfinish
        exact absurd hfinish (Lexeme.ne_finish_of_mem_scan hl)
    rw [hend, List.append_nil] at hscan
    obtain ⟨d, hwrites, hd⟩ := SchemaTree.exists_writes (t := ⟨ts, x⟩) hlacks hdistinct
    exact ⟨⟨ts, x⟩, d, hscan.symm, hwrites, hd, hwrites.addAll hd⟩
  · rintro ⟨t, d, ht, hwrites, hd, rfl⟩
    have hcursor : Cursor.ofSource tracked source =
        (Cursor.ofSource tracked source).before t.lexemes := by
      rw [ht]
      rfl
    have hlength := length_le_flatMap DescribedTree.lexemes_ne_nil t.declarations
    have hbound : t.declarations.length < t.lexemes.length + 1 := by
      rw [SchemaTree.lexemes, List.length_append]
      omega
    refine ⟨(Cursor.ofSource tracked source).before [], ?_⟩
    rw [hcursor, ← hwrites.addAll hd]
    exact complete_readDeclarationsWithin _ (hwrites.lacksAll hd) hbound t.description

end GraphQLCheck
