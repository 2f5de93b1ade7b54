import GraphQLCheck.Source.Location

/-!
Failures of the library's own operations: text that does not follow its grammar, a schema whose
definitions do not fit together, or a request that makes no sense. What is wrong with a document
that was read is no failure; it is reported as diagnostics.
-/
namespace GraphQLCheck

inductive ErrorKind
  | graphQL
  | malformed
  | usage
deriving DecidableEq

def ErrorKind.name : ErrorKind → String
  | .graphQL => "GraphQL"
  | .malformed => "Syntax"
  | .usage => "Usage"

structure Error where
  kind : ErrorKind
  message : String
  location : Option Location
  context : Option String
deriving DecidableEq

namespace Error

def plain (message : String) (kind : Option ErrorKind) : Error :=
  ⟨kind.getD .graphQL, message, none, none⟩

def withContext (message : String) (location : Option Location) (context : String)
    (kind : Option ErrorKind) : Error :=
  ⟨kind.getD .graphQL, message, location, some context⟩

def short (e : Error) : String := e.kind.name ++ " Error: " ++ e.message

def long (e : Error) : String :=
  match e.context with
  | some c => e.short ++ "\n" ++ c
  | none => e.short

def spaced (e : Error) : String := "\n" ++ e.long ++ "\n"

end Error
end GraphQLCheck
