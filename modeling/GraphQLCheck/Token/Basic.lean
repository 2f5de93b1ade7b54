import GraphQLCheck.Source.Location
import GraphQLCheck.Source.Snippet
import GraphQLCheck.Text.Quoted

/-!
The tokens that documents and schema definitions are written in. `Token.shown` is how a token
appears in messages.
-/
namespace GraphQLCheck

/-- A string token holds the text it stands for; a number token holds its digits as written.
`invalid` is text that begins no token, and `finish` is the end of the source. -/
inductive Token
  | bracketOpen
  | bracketClose
  | braceOpen
  | braceClose
  | parenOpen
  | parenClose
  | colon
  | equal
  | exclam
  | ellipsis
  | ampersand
  | pipe
  | variableName (name : String)
  | directiveName (name : String)
  | name (text : String)
  | float (digits : String)
  | integer (digits : String)
  | string (text : String)
  | invalid
  | finish
deriving DecidableEq

def Token.shown : Token → String
  | .bracketOpen => "BracketOpen"
  | .bracketClose => "BracketClose"
  | .braceOpen => "BraceOpen"
  | .braceClose => "BraceClose"
  | .parenOpen => "ParenOpen"
  | .parenClose => "ParenClose"
  | .colon => "Colon"
  | .equal => "Equal"
  | .exclam => "Exclam"
  | .ellipsis => "Ellipsis"
  | .ampersand => "Ampersand"
  | .pipe => "Pipe"
  | .variableName n => "VariableName(" ++ Text.quoted n ++ ")"
  | .directiveName n => "DirectiveName(" ++ Text.quoted n ++ ")"
  | .name n => "Name(" ++ Text.quoted n ++ ")"
  | .float d => "Float(" ++ Text.quoted d ++ ")"
  | .integer d => "Integer(" ++ Text.quoted d ++ ")"
  | .string s => "String(" ++ Text.quoted s ++ ")"
  | .invalid => "Error"
  | .finish => "End"

structure Lexeme where
  token : Token
  span : Span
  location : Location
deriving DecidableEq

end GraphQLCheck
