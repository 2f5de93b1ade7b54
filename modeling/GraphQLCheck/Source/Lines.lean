import GraphQLCheck.Text.Split

/-!
The lines of a text. Only a line feed separates lines, so there is one more line than line feeds.
-/
namespace GraphQLCheck

def textLines (text : List Char) : List (List Char) := Text.split '\n' text

def joinLines (ls : List (List Char)) : List Char := ['\n'].intercalate ls

end GraphQLCheck
