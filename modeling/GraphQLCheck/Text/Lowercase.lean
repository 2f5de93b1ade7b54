import GraphQLCheck.Text.CaseTable

/-!
The lower case of a text. All characters but two have one of their own: a dotted capital I
becomes an i with a dot above it, and a capital sigma at the end of a word becomes a final sigma.
-/
namespace GraphQLCheck.Text

def lowerChar (c : Char) : Char :=
  if c.toNat < 0x80 then c.toLower
  else match lowerRuns.find? (·.covers c.toNat) with
    | some r => Char.ofNat (c.toNat + r.shift).toNat
    | none => c

def facesCased (cs : List Char) : Bool :=
  match cs.dropWhile caseIgnorable.contains with
  | [] => false
  | c :: _ => cased.contains c

/-- The lower case of a text that follows `before`, whose nearest character comes first. -/
def lowerAfter : List Char → List Char → List Char
  | _, [] => []
  | before, c :: cs =>
    (if c = '\u0130' then ['i', '\u0307']
      else if c = '\u03A3' then
        [if facesCased before && !facesCased cs then '\u03C2' else '\u03C3']
      else [lowerChar c]) ++ lowerAfter (c :: before) cs

def lowercase (s : String) : String := String.ofList (lowerAfter [] s.toList)

end GraphQLCheck.Text
