import GraphQLCheck.Document.Basic

/-!
Writing values and types on one line, as documents spell them. A string is written so that
reading it gives the same text back for characters of up to four hexadecimal digits.
-/
namespace GraphQLCheck

def upperHex (n : Nat) : List Char :=
  let digits := (Nat.toDigits 16 n).map Char.toUpper
  List.replicate (4 - digits.length) '0' ++ digits

def escapedChar (c : Char) : List Char :=
  if c = '\r' then ['\\', 'r']
  else if c = '\n' then ['\\', 'n']
  else if c = '\t' then ['\\', 't']
  else if c = '"' then ['\\', '"']
  else if c = '\\' then ['\\', '\\']
  else if 0x20 ≤ c.toNat ∧ c.toNat ≤ 0xFFFF then [c]
  else ['\\', 'u'] ++ upperHex c.toNat

def printedString (text : String) : String :=
  String.ofList (['"'] ++ text.toList.flatMap escapedChar ++ ['"'])

mutual

def Value.print : Value → String
  | .variable v => "$" ++ v.name
  | .null => "null"
  | .boolean b _ => if b then "true" else "false"
  | .int digits _ => digits
  | .float digits _ => digits
  | .string text _ => printedString text
  | .enum name _ => name
  | .list values _ => "[" ++ ", ".intercalate (Value.printAll values) ++ "]"
  | .object fields _ => "\x7b" ++ ", ".intercalate (ObjectField.printAll fields) ++ "\x7d"

def Value.printAll : List Value → List String
  | [] => []
  | v :: vs => v.print :: Value.printAll vs

def ObjectField.printAll : List ObjectField → List String
  | [] => []
  | f :: fs => f.print :: ObjectField.printAll fs

def ObjectField.print : ObjectField → String
  | ⟨name, value, _⟩ => name ++ ": " ++ value.print

end

def Variable.print (v : Variable) : String := "$" ++ v.name

def TypeExpr.print : TypeExpr → String
  | .named n => n.text
  | .list t => "[" ++ t.print ++ "]"
  | .nonNull t => t.print ++ "!"

end GraphQLCheck
