import GraphQLCheck.Document.Reader
import GraphQLCheck.Schema.Declarations.Basic

/-!
Reading the declarations of a schema. Descriptions and applied directives may stand in front of
and behind what is declared; they are passed over. Types, default values and applied directives
are read as in documents.
-/
namespace GraphQLCheck
open Reader

abbrev DeclarationReader (α : Type) : Type := Reader SchemaFault α

def ofNode {α : Type} (r : NodeReader α) : DeclarationReader α := r.mapReason .node

def declaredName (what : String) : DeclarationReader String :=
  take (fun | .name n => some n | _ => none) (.name what)

def expectToken (token : Token) : DeclarationReader Unit :=
  take (fun t => if t = token then some () else none) (.token token)

def skipDescription : DeclarationReader Unit := do
  match ← peek with
  | .string _ => skip
  | _ => pure ()

def skipDirectives : DeclarationReader Unit := do
  let _ ← ofNode readDirectives
  pure ()

def readTypeRef : DeclarationReader TypeRef := TypeRef.ofExpr <$> ofNode TypeExpr.read

/-- Items between an opening and a closing token; nothing where the opening token is missing. -/
def readEnclosed {α : Type} (opening closing : Token) (item : DeclarationReader α) :
    DeclarationReader (List α) := do
  if ← optional opening then
    let items ← itemsWhile (fun t => t ≠ closing ∧ t ≠ .finish) item
    expectToken closing
    pure items
  else pure []

/-- Items with a separator between them, which may also stand in front of the first. -/
def readSeparated {α : Type} (separator : Token) (item : DeclarationReader α) :
    DeclarationReader (List α) := do
  let _ ← optional separator
  let first ← item
  let others ← itemsWhile (· = separator) do
    skip
    item
  pure (first :: others)

def readInputDef : DeclarationReader InputDef := do
  skipDescription
  let name ← declaredName "input value"
  expectToken .colon
  let type ← readTypeRef
  let defaultValue ←
    if ← optional .equal then some <$> ofNode (Value.read true) else pure none
  skipDirectives
  pure ⟨name, type, defaultValue⟩

/-- Of several of one name the last counts. -/
def readArgumentDefs : DeclarationReader (List InputDef) :=
  Named.ofList InputDef.name <$> readEnclosed .parenOpen .parenClose readInputDef

def readFieldDef : DeclarationReader FieldDef := do
  skipDescription
  let name ← declaredName "field"
  let arguments ← readArgumentDefs
  expectToken .colon
  let type ← readTypeRef
  skipDirectives
  pure ⟨name, type, arguments⟩

def readFieldDefs : DeclarationReader (List FieldDef) :=
  Named.ofList FieldDef.name <$> readEnclosed .braceOpen .braceClose readFieldDef

def readImplements : DeclarationReader (List String) := do
  if ← optional (.name "implements") then readSeparated .ampersand (declaredName "interface")
  else pure []

def readObjectType : DeclarationReader TypeDef := do
  let name ← declaredName "type"
  let interfaces ← readImplements
  skipDirectives
  let fields ← readFieldDefs
  pure (.object ⟨name, fields, interfaces⟩)

def readInterfaceType : DeclarationReader TypeDef := do
  let name ← declaredName "type"
  let interfaces ← readImplements
  skipDirectives
  let fields ← readFieldDefs
  pure (.interface ⟨name, fields, interfaces, [], []⟩)

def readUnionType : DeclarationReader TypeDef := do
  let name ← declaredName "type"
  skipDirectives
  let members ←
    if ← optional .equal then readSeparated .pipe (declaredName "member type") else pure []
  pure (.union ⟨name, members⟩)

def readEnumValue (enum : String) : DeclarationReader String := do
  let t ← peek
  if t = .name "true" ∨ t = .name "false" ∨ t = .name "null" then
    fail (.reservedEnumValue enum)
  else
    let value ← take (fun | .name n => some n | _ => none) .enumMember
    skipDirectives
    skipDescription
    pure value

def readEnumType : DeclarationReader TypeDef := do
  let name ← declaredName "type"
  skipDirectives
  if ← optional .braceOpen then
    skipDescription
    let values ← itemsUntil .braceClose (readEnumValue name)
    pure (.enum ⟨name, Named.ofList id values⟩)
  else pure (.enum ⟨name, []⟩)

def readScalarType : DeclarationReader TypeDef := do
  let name ← declaredName "type"
  skipDirectives
  pure (.scalar ⟨name, none⟩)

def readInputObjectType : DeclarationReader TypeDef := do
  let name ← declaredName "type"
  skipDirectives
  let fields ← readEnclosed .braceOpen .braceClose readInputDef
  pure (.input ⟨name, Named.ofList InputDef.name fields⟩)

def readTypeDef : DeclarationReader TypeDef := do
  let keyword ← peek
  let body : Option (DeclarationReader TypeDef) :=
    if keyword = .name "type" then some readObjectType
    else if keyword = .name "interface" then some readInterfaceType
    else if keyword = .name "union" then some readUnionType
    else if keyword = .name "enum" then some readEnumType
    else if keyword = .name "scalar" then some readScalarType
    else if keyword = .name "input" then some readInputObjectType
    else none
  match body with
  | some body =>
    skip
    body
  | none => fail (.definition keyword)

def readDirectiveLocation (directive : String) : DeclarationReader DirectiveLocation :=
  take (fun | .name n => DirectiveLocation.ofName? n | _ => none)
    fun _ => .directiveLocation directive

def readDirectiveDef : DeclarationReader DirectiveDef := do
  let name ← take (fun | .directiveName n => some n | _ => none) .directiveName
  let arguments ← readArgumentDefs
  let repeatable ← optional (.name "repeatable")
  expect (.name "on") (.directiveOn name)
  let locations ← readSeparated .pipe (readDirectiveLocation name)
  pure ⟨name, arguments, locations, repeatable⟩

def readRootsWithin (roots : RootNames) : Nat → DeclarationReader RootNames
  | 0 => unfinished
  | n + 1 => do
    let t ← peek
    if t = .braceClose ∨ t = .finish then pure roots
    else
      let kind ← take OperationKind.ofToken? .operationType
      expectToken .colon
      let name ← declaredName "type"
      if (roots.get? kind).isSome then fail (.secondRoot kind)
      else readRootsWithin (roots.set kind name) n

def readRoots : DeclarationReader RootNames := do
  skipDirectives
  expectToken .braceOpen
  let roots ← fun c => readRootsWithin .unset (c.ahead.length + 1) c
  expectToken .braceClose
  pure roots

def readDeclaration (sofar : Declarations) : DeclarationReader Declarations := do
  let keyword ← peek
  if keyword = .name "schema" then
    if sofar.roots.isSome then fail .secondSchema
    else
      skip
      let roots ← readRoots
      pure { sofar with roots := some roots }
  else if keyword = .name "directive" then
    skip
    let d ← readDirectiveDef
    if sofar.directives.any (·.name == d.name) then fail (.secondDirective d.name)
    else pure { sofar with directives := sofar.directives ++ [d] }
  else if keyword = .name "extend" then fail .extension
  else
    let t ← readTypeDef
    if sofar.types.any (·.name == t.name) then fail (.secondType t.name)
    else pure { sofar with types := sofar.types ++ [t] }

def readDeclarationsWithin (sofar : Declarations) : Nat → DeclarationReader Declarations
  | 0 => unfinished
  | n + 1 => do
    skipDescription
    if (← peek) = .finish then pure sofar
    else
      let sofar ← readDeclaration sofar
      readDeclarationsWithin sofar n

def readDeclarations : DeclarationReader Declarations := fun c =>
  readDeclarationsWithin .empty (c.ahead.length + 1) c

end GraphQLCheck
