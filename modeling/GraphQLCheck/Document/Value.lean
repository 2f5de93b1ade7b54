import GraphQLCheck.Source.Location

/-!
Literal values. Numbers keep the digits they were written with, and a string holds the text it
stands for. Every node but `null` may know its place in the source.
-/
namespace GraphQLCheck

structure Variable where
  name : String
  loc : Option Location
deriving DecidableEq

mutual

inductive Value
  | variable (v : Variable)
  | null
  | boolean (value : Bool) (loc : Option Location)
  | int (digits : String) (loc : Option Location)
  | float (digits : String) (loc : Option Location)
  | string (text : String) (loc : Option Location)
  | enum (name : String) (loc : Option Location)
  | list (values : List Value) (loc : Option Location)
  | object (fields : List ObjectField) (loc : Option Location)

structure ObjectField where
  name : String
  value : Value
  loc : Option Location

end

instance : Inhabited Value := ⟨.null⟩

namespace Value

def loc : Value → Option Location
  | .variable v => v.loc
  | .null => none
  | .boolean _ l | .int _ l | .float _ l | .string _ l | .enum _ l | .list _ l | .object _ l => l

def isNull : Value → Bool
  | .null => true
  | _ => false

def ofName (name : String) (loc : Option Location) : Value :=
  if name = "null" then null
  else if name = "true" then boolean true loc
  else if name = "false" then boolean false loc
  else enum name loc

mutual

/-- Values are compared with their places. -/
def same : Value → Value → Bool
  | .variable v, .variable w => v == w
  | .null, .null => true
  | .boolean a l, .boolean b m => a == b && l == m
  | .int a l, .int b m | .float a l, .float b m | .string a l, .string b m | .enum a l, .enum b m =>
    a == b && l == m
  | .list as l, .list bs m => sameItems as bs && l == m
  | .object as l, .object bs m => sameFields as bs && l == m
  | _, _ => false

def sameItems : List Value → List Value → Bool
  | [], [] => true
  | a :: as, b :: bs => same a b && sameItems as bs
  | _, _ => false

def sameFields : List ObjectField → List ObjectField → Bool
  | [], [] => true
  | ⟨n, v, l⟩ :: as, ⟨m, w, k⟩ :: bs => n == m && same v w && l == k && sameFields as bs
  | _, _ => false

end

mutual

theorem same_iff : ∀ v w : Value, same v w = true ↔ v = w
  | .list as l, w => by cases w <;> simp [same, sameItems_iff as]
  | .object as l, w => by cases w <;> simp [same, sameFields_iff as]
  | .variable _, w | .null, w | .boolean _ _, w | .int _ _, w | .float _ _, w | .string _ _, w
  | .enum _ _, w => by cases w <;> simp [same]

theorem sameItems_iff : ∀ as bs : List Value, sameItems as bs = true ↔ as = bs
  | [], bs => by cases bs <;> simp [sameItems]
  | a :: as, [] => by simp [sameItems]
  | a :: as, b :: bs => by simp [sameItems, same_iff a, sameItems_iff as]

theorem sameFields_iff : ∀ as bs : List ObjectField, sameFields as bs = true ↔ as = bs
  | [], bs => by cases bs <;> simp [sameFields]
  | a :: as, [] => by simp [sameFields]
  | ⟨n, v, l⟩ :: as, ⟨m, w, k⟩ :: bs => by
    simp [sameFields, same_iff v, sameFields_iff as, and_assoc]

end

instance : DecidableEq Value := fun v w => decidable_of_iff _ (same_iff v w)

end Value
end GraphQLCheck
