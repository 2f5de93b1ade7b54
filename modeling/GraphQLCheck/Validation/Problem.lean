import GraphQLCheck.Schema.DirectiveLocation
import GraphQLCheck.Suggestion.Basic

/-!
What can be wrong with a document, and how it is said. `custom` is for rules that a caller adds.
-/
namespace GraphQLCheck

inductive Problem
  | repeatedOperation (name : String)
  | anonymousNotAlone
  | unknownType (name : String) (near : List String)
  | fragmentOnLeaf (fragment : Option String) (type : String)
  | variableOfOutputType (var type : String)
  | selectionOnLeaf (field type : String)
  | selectionMissing (field type : String)
  | unknownField (field parent : String) (narrower near : List String)
  | repeatedFragment (name : String)
  | unknownFragment (name : String)
  | unusedFragment (name : String)
  | fragmentCycle (name : String) (via : List String)
  | repeatedVariable (name : String)
  | undefinedVariable (name : String) (operation : Option String)
  | unusedVariable (name : String) (operation : Option String)
  | unknownDirective (name : String)
  | misplacedDirective (name : String) (location : DirectiveLocation)
  | repeatedDirective (name : String)
  | unknownFieldArgument (name parent field : String) (near : List String)
  | unknownDirectiveArgument (name directive : String) (near : List String)
  | repeatedArgument (name : String)
  | missingFieldArgument (name type field : String)
  | missingDirectiveArgument (name type directive : String)
  | scalarRejected (message : String)
  | customScalarRejected (type value message : String)
  | unknownEnumValue (value enum : String) (near : List String)
  | notAnEnumValue (value enum : String) (near : List String)
  | valueOfOtherType (type value : String)
  | missingInputField (object field type : String)
  | unknownInputField (field object : String) (near : List String)
  | nullNotAllowed (type : String)
  | repeatedInputField (name : String)
  | limitReached
  | custom (message : String)
deriving DecidableEq

namespace Problem
open Suggestion

def message : Problem → String
  | .repeatedOperation n => "There can be only one operation named " ++ quoted n ++ "."
  | .anonymousNotAlone => "This anonymous operation must be the only defined operation."
  | .unknownType n near => "Unknown type " ++ quoted n ++ "." ++ sentence none near
  | .fragmentOnLeaf (some f) t =>
    "Fragment " ++ quoted f ++ " cannot condition on non composite type " ++ quoted t ++ "."
  | .fragmentOnLeaf none t =>
    "Fragment cannot condition on non composite type " ++ quoted t ++ "."
  | .variableOfOutputType v t =>
    "Variable " ++ quoted ("$" ++ v) ++ " cannot be non-input type " ++ quoted t ++ "."
  | .selectionOnLeaf f t =>
    "Field " ++ quoted f ++ " must not have a selection since type " ++ quoted t
      ++ " has no subfields."
  | .selectionMissing f t =>
    "Field " ++ quoted f ++ " of type " ++ quoted t ++ " must have a selection of subfields."
      ++ " Did you mean " ++ quoted (f ++ " \x7b ... \x7d") ++ "?"
  | .unknownField f t narrower near =>
    "Cannot query field " ++ quoted f ++ " on type " ++ quoted t ++ "."
      ++ (if narrower.isEmpty then sentence none near
        else sentence (some "to use an inline fragment on") narrower)
  | .repeatedFragment n => "There can be only one fragment named " ++ quoted n ++ "."
  | .unknownFragment n => "Unknown fragment " ++ quoted n ++ "."
  | .unusedFragment n => "Fragment " ++ quoted n ++ " is never used."
  | .fragmentCycle n via =>
    "Cannot spread fragment " ++ quoted n ++ " within itself"
      ++ (if via.isEmpty then "" else " via " ++ ", ".intercalate (via.map quoted)) ++ "."
  | .repeatedVariable n => "There can be only one variable named " ++ quoted ("$" ++ n) ++ "."
  | .undefinedVariable n (some o) =>
    "Variable " ++ quoted ("$" ++ n) ++ " is not defined by operation " ++ quoted o ++ "."
  | .undefinedVariable n none => "Variable " ++ quoted ("$" ++ n) ++ " is not defined."
  | .unusedVariable n (some o) =>
    "Variable " ++ quoted ("$" ++ n) ++ " is never used in operation " ++ quoted o ++ "."
  | .unusedVariable n none => "Variable " ++ quoted ("$" ++ n) ++ " is never used."
  | .unknownDirective n => "Unknown directive " ++ quoted ("@" ++ n) ++ "."
  | .misplacedDirective n l =>
    "Directive " ++ quoted ("@" ++ n) ++ " may not be used on " ++ l.name ++ "."
  | .repeatedDirective n =>
    "The directive " ++ quoted ("@" ++ n) ++ " can only be used once at this location."
  | .unknownFieldArgument a t f near =>
    "Unknown argument " ++ quoted a ++ " on field " ++ quoted (t ++ "." ++ f) ++ "."
      ++ sentence none near
  | .unknownDirectiveArgument a d near =>
    "Unknown argument " ++ quoted a ++ " on directive " ++ quoted ("@" ++ d) ++ "."
      ++ sentence none near
  | .repeatedArgument n => "There can be only one argument named " ++ quoted n ++ "."
  | .missingFieldArgument a t f =>
    "Field " ++ quoted f ++ " argument " ++ quoted a ++ " of type " ++ quoted t
      ++ " is required, but it was not provided."
  | .missingDirectiveArgument a t d =>
    "Directive " ++ quoted ("@" ++ d) ++ " argument " ++ quoted a ++ " of type " ++ quoted t
      ++ " is required, but it was not provided."
  | .scalarRejected m => m
  | .customScalarRejected t v m =>
    "Expected value of type " ++ quoted t ++ ", found " ++ v ++ "; " ++ m
  | .unknownEnumValue v e near =>
    "Value " ++ quoted v ++ " does not exist in " ++ quoted e ++ " enum."
      ++ sentence (some "the enum value") near
  | .notAnEnumValue v e near =>
    "Enum " ++ quoted e ++ " cannot represent non-enum value: " ++ v ++ "."
      ++ sentence (some "the enum value") near
  | .valueOfOtherType t v =>
    "Expected value of type " ++ quoted t ++ ", found " ++ v ++ "."
  | .missingInputField o f t =>
    "Field " ++ quoted (o ++ "." ++ f) ++ " of required type " ++ quoted t
      ++ " was not provided."
  | .unknownInputField f o near =>
    "Field " ++ quoted f ++ " is not defined by type " ++ quoted o ++ "." ++ sentence none near
  | .nullNotAllowed t => "Expected value of type " ++ quoted t ++ ", found null."
  | .repeatedInputField n => "There can be only one input field named " ++ quoted n ++ "."
  | .limitReached =>
    "Too many validation errors, error limit reached. Validation aborted."
  | .custom m => m

end Problem
end GraphQLCheck
