import GraphQLCheck.Text.Unprintable

/-!
Text between double quotes as it is shown inside messages. A quote and a backslash are escaped,
line feed, carriage return, tab and the null character have short forms, and any other character
that cannot be shown stands as its number in hexadecimal digits.
-/
namespace GraphQLCheck.Text

def hexDigits (n : Nat) : List Char := Nat.toDigits 16 n

def quotedChar (c : Char) : List Char :=
  match c with
  | '"' => ['\\', '"']
  | '\\' => ['\\', '\\']
  | '\n' => ['\\', 'n']
  | '\r' => ['\\', 'r']
  | '\t' => ['\\', 't']
  | '\x00' => ['\\', '0']
  | c => if isPrintable c then [c] else ['\\', 'u', '\x7b'] ++ hexDigits c.toNat ++ ['\x7d']

def quoted (s : String) : String :=
  String.ofList (['"'] ++ s.toList.flatMap quotedChar ++ ['"'])

end GraphQLCheck.Text
