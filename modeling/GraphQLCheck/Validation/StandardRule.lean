import GraphQLCheck.Validation.Rules.Directives
import GraphQLCheck.Validation.Rules.Fields
import GraphQLCheck.Validation.Rules.Fragments
import GraphQLCheck.Validation.Rules.Types
import GraphQLCheck.Validation.Rules.Values

/-!
The rules that the language has, in the order in which they run.
-/
namespace GraphQLCheck

inductive StandardRule
  | uniqueOperationNames
  | loneAnonymousOperation
  | knownTypeNames
  | fragmentsOnCompositeTypes
  | variablesAreInputTypes
  | scalarLeafs
  | fieldsOnCorrectType
  | uniqueFragmentNames
  | knownFragmentNames
  | noUnusedFragments
  | noFragmentCycles
  | uniqueVariableNames
  | noUndefinedVariables
  | noUnusedVariables
  | knownDirectives
  | uniqueDirectivesPerLocation
  | knownArgumentNames
  | uniqueArgumentNames
  | valuesOfCorrectType
  | providedRequiredArguments
  | uniqueInputFieldNames
deriving DecidableEq

namespace StandardRule

def name : StandardRule → String
  | uniqueOperationNames => "UniqueOperationNames"
  | loneAnonymousOperation => "LoneAnonymousOperation"
  | knownTypeNames => "KnownTypeNames"
  | fragmentsOnCompositeTypes => "FragmentsOnCompositeTypes"
  | variablesAreInputTypes => "VariablesAreInputTypes"
  | scalarLeafs => "ScalarLeafs"
  | fieldsOnCorrectType => "FieldsOnCorrectType"
  | uniqueFragmentNames => "UniqueFragmentNames"
  | knownFragmentNames => "KnownFragmentNames"
  | noUnusedFragments => "NoUnusedFragments"
  | noFragmentCycles => "NoFragmentCycles"
  | uniqueVariableNames => "UniqueVariableNames"
  | noUndefinedVariables => "NoUndefinedVariables"
  | noUnusedVariables => "NoUnusedVariables"
  | knownDirectives => "KnownDirectives"
  | uniqueDirectivesPerLocation => "UniqueDirectivesPerLocation"
  | knownArgumentNames => "KnownArgumentNames"
  | uniqueArgumentNames => "UniqueArgumentNames"
  | valuesOfCorrectType => "ValuesOfCorrectType"
  | providedRequiredArguments => "ProvidedRequiredArguments"
  | uniqueInputFieldNames => "UniqueInputFieldNames"

def rule : StandardRule → Rule
  | uniqueOperationNames => Rules.uniqueOperationNames
  | loneAnonymousOperation => Rules.loneAnonymousOperation
  | knownTypeNames => Rules.knownTypeNames
  | fragmentsOnCompositeTypes => Rules.fragmentsOnCompositeTypes
  | variablesAreInputTypes => Rules.variablesAreInputTypes
  | scalarLeafs => Rules.scalarLeafs
  | fieldsOnCorrectType => Rules.fieldsOnCorrectType
  | uniqueFragmentNames => Rules.uniqueFragmentNames
  | knownFragmentNames => Rules.knownFragmentNames
  | noUnusedFragments => Rules.noUnusedFragments
  | noFragmentCycles => Rules.noFragmentCycles
  | uniqueVariableNames => Rules.uniqueVariableNames
  | noUndefinedVariables => Rules.noUndefinedVariables
  | noUnusedVariables => Rules.noUnusedVariables
  | knownDirectives => Rules.knownDirectives
  | uniqueDirectivesPerLocation => Rules.uniqueDirectivesPerLocation
  | knownArgumentNames => Rules.knownArgumentNames
  | uniqueArgumentNames => Rules.uniqueArgumentNames
  | valuesOfCorrectType => Rules.valuesOfCorrectType
  | providedRequiredArguments => Rules.providedRequiredArguments
  | uniqueInputFieldNames => Rules.uniqueInputFieldNames

def all : List StandardRule :=
  [uniqueOperationNames, loneAnonymousOperation, knownTypeNames, fragmentsOnCompositeTypes,
    variablesAreInputTypes, scalarLeafs, fieldsOnCorrectType, uniqueFragmentNames,
    knownFragmentNames, noUnusedFragments, noFragmentCycles, uniqueVariableNames,
    noUndefinedVariables, noUnusedVariables, knownDirectives, uniqueDirectivesPerLocation,
    knownArgumentNames, uniqueArgumentNames, valuesOfCorrectType, providedRequiredArguments,
    uniqueInputFieldNames]

/-- The rules that look at the document only, so that any schema will do. -/
def schemaless : List StandardRule :=
  [uniqueOperationNames, loneAnonymousOperation, uniqueFragmentNames, knownFragmentNames,
    noUnusedFragments, noFragmentCycles, uniqueVariableNames, noUndefinedVariables,
    noUnusedVariables, uniqueArgumentNames, uniqueInputFieldNames]

def ofName? (name : String) : Option StandardRule := all.find? (·.name == name)

theorem blind (r : StandardRule) : r.rule.Blind := by
  cases r <;> exact fun _ _ _ => rfl

theorem blind_of_mem {rules : List StandardRule} {r : Rule} (h : r ∈ rules.map rule) :
    r.Blind := by
  obtain ⟨x, -, rfl⟩ := List.mem_map.1 h
  exact x.blind

theorem mem_all (r : StandardRule) : r ∈ all := by
  cases r <;> decide

theorem nodup_all : all.Nodup := by
  decide

theorem ofName?_name (r : StandardRule) : ofName? r.name = some r := by
  cases r <;> decide

end StandardRule
end GraphQLCheck
