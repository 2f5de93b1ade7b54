import GraphQLCheck.Text.CharRanges

/-!
White space, as the property of that name gives it, and lines that hold nothing else.
-/
namespace GraphQLCheck.Text

def whiteSpace : CharRanges := #[
    (0x9, 0xD), (0x20, 0x20), (0x85, 0x85), (0xA0, 0xA0), (0x1680, 0x1680), (0x2000, 0x200A),
    (0x2028, 0x2029), (0x202F, 0x202F), (0x205F, 0x205F), (0x3000, 0x3000)]

def isBlank (c : Char) : Bool := whiteSpace.contains c

def isBlankLine (line : List Char) : Bool := line.all isBlank

end GraphQLCheck.Text
