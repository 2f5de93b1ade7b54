import GraphQLCheck.Document.Printer
import GraphQLCheck.Schema.Basic
import GraphQLCheck.Text.Decimal

/-!
The scalars and directives that every loaded schema has, unless it defines its own under their
names, and how the built-in scalars check literals.
-/
namespace GraphQLCheck.Builtin

def scalarNames : List String := ["String", "Int", "Float", "Boolean", "ID"]

def isInt32 (digits : String) : Bool := (Decimal.read? digits.toList).any Decimal.passesInt32

def checkInt : LiteralCheck
  | .int digits _ =>
    if isInt32 digits then none
    else some ("Int cannot represent non 32-bit signed integer value: " ++ digits)
  | v => some ("Int cannot represent non-integer value: " ++ v.print)

def checkFloat : LiteralCheck
  | .int _ _ | .float _ _ => none
  | v => some ("Float cannot represent non numeric value: " ++ v.print)

def checkString : LiteralCheck
  | .string _ _ => none
  | v => some ("String cannot represent a non string value: " ++ v.print)

def checkBoolean : LiteralCheck
  | .boolean _ _ => none
  | v => some ("Boolean cannot represent a non boolean value: " ++ v.print)

def checkId : LiteralCheck
  | .string _ _ | .int _ _ => none
  | v => some ("ID cannot represent a non-string and non-integer value: " ++ v.print)

def check? (name : String) : Option LiteralCheck :=
  if name = "String" then some checkString
  else if name = "Int" then some checkInt
  else if name = "Float" then some checkFloat
  else if name = "Boolean" then some checkBoolean
  else if name = "ID" then some checkId
  else none

def scalars : List TypeDef := scalarNames.map fun n => .scalar ⟨n, check? n⟩

def directives : List DirectiveDef :=
  let selectionPlaces : List DirectiveLocation := [.field, .fragmentSpread, .inlineFragment]
  [⟨"skip", [⟨"if", .nonNull (.named "Boolean"), none⟩], selectionPlaces, false⟩,
    ⟨"include", [⟨"if", .nonNull (.named "Boolean"), none⟩], selectionPlaces, false⟩,
    ⟨"deprecated", [⟨"reason", .named "String", some (.string "No longer supported" none)⟩],
      [.fieldDefinition, .argumentDefinition, .inputFieldDefinition, .enumValue], false⟩,
    ⟨"specifiedBy", [⟨"url", .nonNull (.named "String"), none⟩], [.scalar], false⟩]

end GraphQLCheck.Builtin
