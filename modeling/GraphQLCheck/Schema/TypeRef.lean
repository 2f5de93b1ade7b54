import GraphQLCheck.Document.Printer
import GraphQLCheck.Text.Quoted

/-!
References to types by name, under list and non-null wrappers.
-/
namespace GraphQLCheck

inductive TypeRef
  | named (name : String)
  | list (item : TypeRef)
  | nonNull (type : TypeRef)
deriving DecidableEq

namespace TypeRef

def name : TypeRef → String
  | named n => n
  | list t | nonNull t => t.name

def isNonNull : TypeRef → Bool
  | nonNull _ => true
  | _ => false

def nullable : TypeRef → TypeRef
  | nonNull t => t
  | t => t

def listItem? : TypeRef → Option TypeRef
  | list t => some t
  | nonNull (list t) => some t
  | _ => none

def print : TypeRef → String
  | named n => n
  | list t => "[" ++ t.print ++ "]"
  | nonNull t => t.print ++ "!"

def shown : TypeRef → String
  | named n => "Type(" ++ Text.quoted n ++ ")"
  | list t => "ListType(" ++ t.shown ++ ")"
  | nonNull t => "NonNullType(" ++ t.shown ++ ")"

def ofExpr : TypeExpr → TypeRef
  | .named n => named n.text
  | .list t => list (ofExpr t)
  | .nonNull t => nonNull (ofExpr t)

theorem print_ofExpr (t : TypeExpr) : (ofExpr t).print = t.print := by
  induction t with
  | named n => rfl
  | list t ih => simp [ofExpr, print, TypeExpr.print, ih]
  | nonNull t ih => simp [ofExpr, print, TypeExpr.print, ih]

theorem name_ofExpr (t : TypeExpr) : (ofExpr t).name = t.name.text := by
  induction t with
  | named n => rfl
  | list t ih => exact ih
  | nonNull t ih => exact ih

theorem isNonNull_ofExpr (t : TypeExpr) : (ofExpr t).isNonNull = t.isNonNull := by
  cases t <;> rfl

theorem name_nullable (t : TypeRef) : t.nullable.name = t.name := by
  cases t <;> rfl

end TypeRef
end GraphQLCheck
