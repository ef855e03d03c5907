import GraphQL.Validation.Existence
import GraphQL.Validation.FieldConflict
import GraphQL.Validation.Literal
import GraphQL.Validation.Placement
import GraphQL.Validation.Uniqueness
import GraphQL.Validation.VariableFlow

/-!
# Validators

A validator checks a chosen list of rules over a document, each rule on its own, and lists all that they find in
the order of diagnostics.
-/

namespace GraphQL

/-- What a rule finds in a document. Rules on syntax and schemas find nothing here. -/
def Rule.check (rule : Rule) (s : Schema) (d : Document) : List Diagnostic :=
  match rule with
  | .syntaxRule | .schemaBuild | .missingSchema => []
  | .uniqueOperationNames => GraphQL.uniqueOperationNames d
  | .loneAnonymousOperation => GraphQL.loneAnonymousOperation d
  | .knownOperationType => GraphQL.knownOperationType s d
  | .singleFieldSubscriptions => GraphQL.singleFieldSubscriptions s d
  | .unknownField => GraphQL.unknownField s d
  | .fieldMerging => GraphQL.fieldMerging s d
  | .knownArgumentNames => GraphQL.knownArgumentNames s d
  | .uniqueArgumentNames => GraphQL.uniqueArgumentNames s d
  | .requiredArguments => GraphQL.requiredArguments s d
  | .valueType => GraphQL.valueType s d
  | .uniqueInputFieldNames => GraphQL.uniqueInputFieldNames s d
  | .uniqueVariableNames => GraphQL.uniqueVariableNames d
  | .variablesAreInputTypes => GraphQL.variablesAreInputTypes s d
  | .undefinedVariable => GraphQL.undefinedVariable s d
  | .unusedVariable => GraphQL.unusedVariable s d
  | .variableUsage => GraphQL.variableUsage s d
  | .uniqueFragmentNames => GraphQL.uniqueFragmentNames d
  | .knownFragmentNames => GraphQL.knownFragmentNames s d
  | .fragmentCycle => GraphQL.fragmentCycle d
  | .knownTypeNames => GraphQL.knownTypeNames s d
  | .fragmentOnCompositeType => GraphQL.fragmentOnCompositeType s d
  | .possibleFragmentSpread => GraphQL.possibleFragmentSpread s d
  | .unusedFragment => GraphQL.unusedFragment d
  | .knownDirectives => GraphQL.knownDirectives s d
  | .directiveLocation => GraphQL.directiveLocation s d
  | .uniqueDirectivesPerLocation => GraphQL.uniqueDirectivesPerLocation s d
  | .leafFieldSelections => GraphQL.leafFieldSelections s d

structure Validator where
  rules : List Rule

namespace Validator

/-- The validator of all rules on documents. -/
def standard : Validator := ⟨Rule.documentRules⟩

def without (v : Validator) (rule : Rule) : Validator := ⟨v.rules.filter (· ≠ rule)⟩

def validate (v : Validator) (s : Schema) (d : Document) : List Diagnostic :=
  Diagnostic.sorted (v.rules.flatMap (·.check s d))

theorem validate_eq_nil_iff {v : Validator} {s : Schema} {d : Document} :
    v.validate s d = [] ↔ ∀ rule ∈ v.rules, rule.check s d = [] := by
  rw [validate, Diagnostic.sorted_eq_nil_iff, List.flatMap_eq_nil_iff]

end Validator

end GraphQL
