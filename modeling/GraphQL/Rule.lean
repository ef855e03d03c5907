/-!
# Rules

Every diagnostic names the rule that it breaks. The first three rules are about the schema and the syntax as a
whole; each other rule is checked on its own over a parsed document.
-/

namespace GraphQL

inductive Rule where
  | syntaxRule
  | schemaBuild
  | missingSchema
  | uniqueOperationNames
  | loneAnonymousOperation
  | knownOperationType
  | singleFieldSubscriptions
  | unknownField
  | fieldMerging
  | knownArgumentNames
  | uniqueArgumentNames
  | requiredArguments
  | valueType
  | uniqueInputFieldNames
  | uniqueVariableNames
  | variablesAreInputTypes
  | undefinedVariable
  | unusedVariable
  | variableUsage
  | uniqueFragmentNames
  | knownFragmentNames
  | fragmentCycle
  | knownTypeNames
  | fragmentOnCompositeType
  | possibleFragmentSpread
  | unusedFragment
  | knownDirectives
  | directiveLocation
  | uniqueDirectivesPerLocation
  | leafFieldSelections
deriving DecidableEq

namespace Rule

/-- The rules that are checked over a document, in the order of their checks. -/
def documentRules : List Rule :=
  [uniqueOperationNames, loneAnonymousOperation, knownOperationType, singleFieldSubscriptions, unknownField,
    fieldMerging, knownArgumentNames, uniqueArgumentNames, requiredArguments, valueType, uniqueInputFieldNames,
    uniqueVariableNames, variablesAreInputTypes, undefinedVariable, unusedVariable, variableUsage,
    uniqueFragmentNames, knownFragmentNames, fragmentCycle, knownTypeNames, fragmentOnCompositeType,
    possibleFragmentSpread, unusedFragment, knownDirectives, directiveLocation, uniqueDirectivesPerLocation,
    leafFieldSelections]

/-- All rules in the order in which diagnostics of one place are listed. -/
def all : List Rule := [syntaxRule, schemaBuild, missingSchema] ++ documentRules

/-- The place of a rule among all rules. -/
def rank (r : Rule) : Nat := all.idxOf r

/-- The name under which a rule is reported and selected. -/
def id : Rule → String
  | syntaxRule => "syntax"
  | schemaBuild => "schema-build"
  | missingSchema => "missing-schema"
  | uniqueOperationNames => "unique-operation-names"
  | loneAnonymousOperation => "lone-anonymous-operation"
  | knownOperationType => "known-operation-type"
  | singleFieldSubscriptions => "single-field-subscriptions"
  | unknownField => "unknown-field"
  | fieldMerging => "field-merging"
  | knownArgumentNames => "known-argument-names"
  | uniqueArgumentNames => "unique-argument-names"
  | requiredArguments => "required-arguments"
  | valueType => "value-type"
  | uniqueInputFieldNames => "unique-input-field-names"
  | uniqueVariableNames => "unique-variable-names"
  | variablesAreInputTypes => "variables-are-input-types"
  | undefinedVariable => "undefined-variable"
  | unusedVariable => "unused-variable"
  | variableUsage => "variable-usage"
  | uniqueFragmentNames => "unique-fragment-names"
  | knownFragmentNames => "known-fragment-names"
  | fragmentCycle => "fragment-cycle"
  | knownTypeNames => "known-type-names"
  | fragmentOnCompositeType => "fragment-on-composite-type"
  | possibleFragmentSpread => "possible-fragment-spread"
  | unusedFragment => "unused-fragment"
  | knownDirectives => "known-directives"
  | directiveLocation => "directive-location"
  | uniqueDirectivesPerLocation => "unique-directives-per-location"
  | leafFieldSelections => "leaf-field-selections"

def ofId? (text : String) : Option Rule := all.find? (·.id = text)

/-- What is said of a text that names no rule. -/
def unknownMessage (text : String) : String := "unknown rule id `" ++ text ++ "`"

end Rule

end GraphQL
