import GraphQLCheck.Proofs.Document.Lookahead
import GraphQLCheck.Schema.Declarations.Reader

/-!
What the readers of declarations look at. They settle as those of documents do
(`settles_readDeclarations`): every item of a repetition takes a token, and no repetition goes on at
the end of the source. Where they fail, a token did not fit or something was declared twice.
-/
namespace GraphQLCheck
open Reader

namespace SchemaFault

def isSecond : SchemaFault → Bool
  | .secondType _ | .secondDirective _ | .secondRoot _ => true
  | _ => false

def InReading (f : SchemaFault) : Prop := f.isSyntactic = true ∨ f.isSecond = true

end SchemaFault

open SchemaFault (InReading)

def typeBody? (keyword : Token) : Option (DeclarationReader TypeDef) :=
  if keyword = .name "type" then some readObjectType
  else if keyword = .name "interface" then some readInterfaceType
  else if keyword = .name "union" then some readUnionType
  else if keyword = .name "enum" then some readEnumType
  else if keyword = .name "scalar" then some readScalarType
  else if keyword = .name "input" then some readInputObjectType
  else none

theorem readTypeDef_eq :
    readTypeDef = (do
      let keyword ← peek
      match typeBody? keyword with
      | some body =>
        skip
        body
      | none => fail (.definition keyword)) := rfl

theorem mem_of_typeBody? {keyword : Token} {body : DeclarationReader TypeDef}
    (h : typeBody? keyword = some body) :
    body ∈ [readObjectType, readInterfaceType, readUnionType, readEnumType, readScalarType,
      readInputObjectType] := by
  unfold typeBody? at h
  repeat' split at h
  all_goals first
    | exact Option.some.inj h ▸ by simp only [List.mem_cons, true_or, or_true]
    | exact absurd h (by simp)

section
variable {α : Type} {j k : Nat} {c : Cursor}

theorem settles_ofNode {r : Nat → NodeReader α} (h : Settles Always j k r c) :
    Settles InReading j k (fun n => ofNode (r n)) c := h.mapReason fun _ _ => .inl rfl

theorem settles_declaredName (what : String) :
    Settles InReading j 1 (fun _ => declaredName what) c :=
  settles_take rfl fun _ => .inl rfl

theorem settles_expectToken {t : Token} (ht : t ≠ .finish) :
    Settles InReading j 1 (fun _ => expectToken t) c :=
  settles_take (if_neg (Ne.symm ht)) fun _ => .inl rfl

theorem settles_skipDescription : Settles InReading j 0 (fun _ => skipDescription) c := by
  refine settles_peek ?_
  cases hpeek : c.peek with
  | string text => exact (settles_skip (by simp [hpeek]) (settles_pure ())).weaken
  | _ => exact settles_pure _

theorem settles_skipDirectives : Settles InReading 0 0 (fun _ => skipDirectives) c :=
  (settles_ofNode settles_readDirectives).bind fun _ _ _ _ _ => settles_pure _

theorem settles_readTypeRef : Settles InReading 0 1 (fun _ => readTypeRef) c :=
  (settles_ofNode TypeExpr.settles_read).map

section
variable {item : DeclarationReader α}

theorem settles_readEnclosed {opening closing : Token} (hopening : opening ≠ .finish)
    (hclosing : closing ≠ .finish) (h : ∀ d, Settles InReading 0 1 (fun _ => item) d) :
    Settles InReading 0 0 (fun _ => readEnclosed opening closing item) c := by
  refine settles_part hopening fun _ => ?_
  refine (settles_itemsWhile fun d _ _ => h d).bind fun _ items _ _ _ => ?_
  exact (settles_expectToken hclosing).weaken.bind fun _ _ _ _ _ => settles_pure items

theorem settles_separatedItem (hpeek : c.peek ≠ .finish)
    (h : ∀ d, Settles InReading 0 1 (fun _ => item) d) :
    Settles InReading 0 1 (fun _ => (skip >>= fun _ => item : DeclarationReader α)) c :=
  settles_skip hpeek (h _).weaken

theorem settles_readSeparated {separator : Token} (hseparator : separator ≠ .finish)
    (h : ∀ d, Settles InReading 0 1 (fun _ => item) d) :
    Settles InReading 0 1 (fun _ => readSeparated separator item) c := by
  have hitems : ∀ d, Settles InReading 0 1 (fun _ => (do
      let first ← item
      let others ← itemsWhile (· = separator) do
        skip
        item
      pure (first :: others) : DeclarationReader (List α))) d := by
    intro d
    refine (h d).bind fun _ first e _ _ => ?_
    refine (settles_itemsWhile fun e' _ hgo => ?_).bind fun _ others _ _ _ => settles_pure _
    have hpeek : e'.peek = separator := by simpa using hgo
    exact settles_separatedItem (hpeek ▸ hseparator) h
  exact settles_optional hseparator (fun _ => hitems _) fun _ => hitems _

end

theorem settles_readInputDef : Settles InReading 0 1 (fun _ => readInputDef) c := by
  refine settles_skipDescription.bind fun _ _ d _ _ => ?_
  refine (settles_declaredName _).bind fun _ name _ _ _ => ?_
  refine (settles_expectToken (by decide)).weaken.bind fun _ _ _ _ _ => ?_
  refine settles_readTypeRef.weaken.bind fun _ type d' _ _ => ?_
  have htail : ∀ (default : Option Value) e, Settles InReading 0 0 (fun _ => (do
      skipDirectives
      pure ⟨name, type, default⟩ : DeclarationReader InputDef)) e :=
    fun _ _ => settles_skipDirectives.bind fun _ _ _ _ _ => settles_pure _
  refine settles_optional (by decide) (fun _ => ?_) fun _ => htail none d'
  have hvalue : Settles InReading 0 0 (fun _ => some <$> ofNode (Value.read true)) d'.next :=
    (settles_ofNode (Value.settles_read true)).map.weaken
  exact hvalue.bind fun _ default e _ _ => htail default e

theorem settles_readArgumentDefs : Settles InReading 0 0 (fun _ => readArgumentDefs) c :=
  (settles_readEnclosed (by decide) (by decide) fun _ => settles_readInputDef).map

theorem settles_readFieldDef : Settles InReading 0 1 (fun _ => readFieldDef) c := by
  refine settles_skipDescription.bind fun _ _ _ _ _ => ?_
  refine (settles_declaredName _).bind fun _ name _ _ _ => ?_
  refine settles_readArgumentDefs.bind fun _ arguments _ _ _ => ?_
  refine (settles_expectToken (by decide)).weaken.bind fun _ _ _ _ _ => ?_
  refine settles_readTypeRef.weaken.bind fun _ type _ _ _ => ?_
  exact settles_skipDirectives.bind fun _ _ _ _ _ => settles_pure _

theorem settles_readFieldDefs : Settles InReading 0 0 (fun _ => readFieldDefs) c :=
  (settles_readEnclosed (by decide) (by decide) fun _ => settles_readFieldDef).map

theorem settles_readImplements : Settles InReading 0 0 (fun _ => readImplements) c :=
  settles_part (by decide) fun _ =>
    (settles_readSeparated (by decide) fun _ => settles_declaredName _).weaken

theorem settles_readFields (build : String → List String → List FieldDef → TypeDef) :
    Settles InReading 0 1 (fun _ => (do
      let name ← declaredName "type"
      let interfaces ← readImplements
      skipDirectives
      let fields ← readFieldDefs
      pure (build name interfaces fields) : DeclarationReader TypeDef)) c := by
  refine (settles_declaredName _).bind fun _ name _ _ _ => ?_
  refine settles_readImplements.bind fun _ interfaces _ _ _ => ?_
  refine settles_skipDirectives.bind fun _ _ _ _ _ => ?_
  exact settles_readFieldDefs.bind fun _ fields _ _ _ => settles_pure (build name interfaces fields)

theorem settles_readUnionType : Settles InReading 0 1 (fun _ => readUnionType) c := by
  refine (settles_declaredName _).bind fun _ name _ _ _ => ?_
  refine settles_skipDirectives.bind fun _ _ _ _ _ => ?_
  refine settles_optional (by decide) (fun _ => ?_) fun _ => settles_pure _
  have hmembers : ∀ d, Settles InReading 0 0
      (fun _ => readSeparated .pipe (declaredName "member type")) d :=
    fun d => (settles_readSeparated (by decide) fun _ => settles_declaredName _).weaken
  exact (hmembers _).bind fun _ _ _ _ _ => settles_pure _

theorem settles_readEnumValue (enum : String) :
    Settles InReading 0 1 (fun _ => readEnumValue enum) c := by
  refine settles_peek (settles_ite (fun _ => settles_fail (.inl rfl)) fun _ => ?_)
  refine (settles_take rfl fun _ => .inl rfl).bind fun _ value _ _ _ => ?_
  refine settles_skipDirectives.bind fun _ _ _ _ _ => ?_
  exact settles_skipDescription.bind fun _ _ _ _ _ => settles_pure _

theorem settles_readEnumType : Settles InReading 0 1 (fun _ => readEnumType) c := by
  refine (settles_declaredName _).bind fun _ name _ _ _ => ?_
  refine settles_skipDirectives.bind fun _ _ _ _ _ => ?_
  refine settles_optional (by decide) (fun _ => ?_) fun _ => settles_pure _
  refine settles_skipDescription.bind fun _ _ _ _ _ => ?_
  exact (settles_itemsUntil (by decide) fun _ _ => settles_readEnumValue name).bind
    fun _ _ _ _ _ => settles_pure _

theorem settles_readScalarType : Settles InReading 0 1 (fun _ => readScalarType) c := by
  refine (settles_declaredName _).bind fun _ name _ _ _ => ?_
  exact settles_skipDirectives.bind fun _ _ _ _ _ => settles_pure _

theorem settles_readInputObjectType : Settles InReading 0 1 (fun _ => readInputObjectType) c := by
  refine (settles_declaredName _).bind fun _ name _ _ _ => ?_
  refine settles_skipDirectives.bind fun _ _ _ _ _ => ?_
  exact (settles_readEnclosed (by decide) (by decide) fun _ => settles_readInputDef).bind
    fun _ fields _ _ _ => settles_pure _

theorem settles_readTypeDef : Settles InReading 0 1 (fun _ => readTypeDef) c := by
  have hbodies : ∀ body ∈ [readObjectType, readInterfaceType, readUnionType, readEnumType,
      readScalarType, readInputObjectType], ∀ d, Settles InReading 0 1 (fun _ => body) d := by
    simp only [List.forall_mem_cons, List.not_mem_nil, false_implies, implies_true, and_true]
    exact ⟨fun _ => settles_readFields fun name interfaces fields =>
        .object ⟨name, fields, interfaces⟩,
      fun _ => settles_readFields fun name interfaces fields =>
        .interface ⟨name, fields, interfaces, [], []⟩,
      fun _ => settles_readUnionType, fun _ => settles_readEnumType,
      fun _ => settles_readScalarType, fun _ => settles_readInputObjectType⟩
  rw [readTypeDef_eq]
  refine settles_peek ?_
  cases hbody : typeBody? c.peek with
  | none => exact settles_fail (.inl rfl)
  | some body =>
    have hpeek : c.peek ≠ .finish := by
      rintro hfinish
      rw [hfinish] at hbody
      exact absurd hbody (by simp [typeBody?])
    exact settles_skip hpeek (hbodies body (mem_of_typeBody? hbody) _).weaken

theorem settles_readDirectiveLocation (directive : String) :
    Settles InReading 0 1 (fun _ => readDirectiveLocation directive) c :=
  settles_take rfl fun _ => .inl rfl

theorem settles_readDirectiveDef : Settles InReading 0 1 (fun _ => readDirectiveDef) c := by
  refine (settles_take rfl fun _ => .inl rfl).bind fun _ name _ _ _ => ?_
  refine settles_readArgumentDefs.bind fun _ arguments d _ _ => ?_
  have hrest : ∀ (repeatable : Bool) e, Settles InReading 0 0 (fun _ => (do
      expect (.name "on") (.directiveOn name)
      let locations ← readSeparated .pipe (readDirectiveLocation name)
      pure ⟨name, arguments, locations, repeatable⟩ : DeclarationReader DirectiveDef)) e := by
    intro repeatable e
    refine (settles_expect (by decide) (.inl rfl)).weaken.bind fun _ _ _ _ _ => ?_
    exact (settles_readSeparated (by decide) fun _ =>
      settles_readDirectiveLocation name).weaken.bind fun _ _ _ _ _ => settles_pure _
  exact settles_optional (by decide) (fun _ => hrest true _) fun _ => hrest false _

theorem settles_readRootsWithin (roots : RootNames) (c : Cursor) :
    Settles InReading 0 0 (readRootsWithin roots) c := by
  induction hlength : c.ahead.length using Nat.strongRecOn generalizing roots c with
  | ind N ih =>
    apply Settles.of_succ
    refine settles_peek (settles_ite (fun _ => settles_pure _) fun _ => Settles.weaken (k := 1) ?_)
    refine (settles_take rfl fun _ => .inl rfl).bind fun _ kind d _ hd => ?_
    refine (settles_expectToken (by decide)).weaken.bind fun _ _ d' _ hd' => ?_
    refine (settles_declaredName _).weaken.bind fun _ name d'' _ hd'' => ?_
    exact settles_ite (fun _ => settles_fail (.inr rfl)) fun _ =>
      ih d''.ahead.length (by omega) _ d'' rfl

theorem settles_readRoots : Settles InReading 0 1 (fun _ => readRoots) c := by
  refine settles_skipDirectives.bind fun _ _ _ _ _ => ?_
  refine (settles_expectToken (by decide)).bind fun _ _ d _ _ => ?_
  refine (settles_readRootsWithin .unset d).bounded.bind fun _ roots _ _ _ => ?_
  exact (settles_expectToken (by decide)).weaken.bind fun _ _ _ _ _ => settles_pure roots

theorem settles_readDeclaration (sofar : Declarations) :
    Settles InReading 0 1 (fun _ => readDeclaration sofar) c := by
  refine settles_peek (settles_ite (fun hpeek => ?_) fun _ => settles_ite (fun hpeek => ?_) fun _ =>
    settles_ite (fun _ => settles_fail (.inl rfl)) fun _ => ?_)
  · refine settles_ite (fun _ => settles_fail (.inl rfl)) fun _ => settles_skip (by simp [hpeek]) ?_
    exact settles_readRoots.weaken.bind fun _ _ _ _ _ => settles_pure _
  · refine settles_skip (by simp [hpeek]) ?_
    exact settles_readDirectiveDef.weaken.bind fun _ d _ _ _ =>
      settles_ite (fun _ => settles_fail (.inr rfl)) fun _ => settles_pure _
  · exact settles_readTypeDef.bind fun _ t _ _ _ =>
      settles_ite (fun _ => settles_fail (.inr rfl)) fun _ => settles_pure _

theorem settles_readDeclarationsWithin (sofar : Declarations) (c : Cursor) :
    Settles InReading 0 0 (readDeclarationsWithin sofar) c := by
  induction hlength : c.ahead.length using Nat.strongRecOn generalizing sofar c with
  | ind N ih =>
    apply Settles.of_succ
    refine settles_skipDescription.bind fun _ _ d _ hd => ?_
    refine settles_peek (settles_ite (fun _ => settles_pure _) fun _ => Settles.weaken (k := 1) ?_)
    refine (settles_readDeclaration sofar).unbounded.bind fun _ sofar d' _ hd' => ?_
    exact ih d'.ahead.length (by omega) sofar d' rfl

theorem settles_readDeclarations : Settles InReading 0 0 (fun _ => readDeclarations) c :=
  (settles_readDeclarationsWithin .empty c).bounded

end
end GraphQLCheck
