import GraphQL.Diagnostic
import GraphQL.Validation.Visit

/-!
# Names that must be unique

Each repeat of a name is reported together with the place of the first.
-/

namespace GraphQL

/-- Reports each repeat of a name among some items, in words that take the name. -/
def repeatFindings {α : Type} [Named α] (rule : Rule) (message : String → String) (items : List α) :
    List Diagnostic :=
  (Named.repeats [] items).map fun (again, first) =>
    rule.finding (message (Named.nameOf again)) [Named.spanOf again, Named.spanOf first]

def onlyOne (thing : String) (name : String) : String :=
  "There can be only one " ++ thing ++ " named " ++ quote name ++ "."

def uniqueOperationNames (d : Document) : List Diagnostic :=
  repeatFindings .uniqueOperationNames (onlyOne "operation") (d.operations.filterMap (·.name))

/-- An operation without a name must be alone; all of them are reported together. -/
def loneAnonymousOperation (d : Document) : List Diagnostic :=
  let anonymous := d.operations.filter (·.name.isNone)
  if d.operations.length < 2 || anonymous.isEmpty then []
  else [Rule.loneAnonymousOperation.finding "This anonymous operation must be the only defined operation."
    (anonymous.map (·.span))]

def uniqueFragmentNames (d : Document) : List Diagnostic :=
  repeatFindings .uniqueFragmentNames (onlyOne "fragment") (d.fragments.map (·.name))

def uniqueVariableNames (d : Document) : List Diagnostic :=
  d.operations.flatMap fun o =>
    repeatFindings .uniqueVariableNames (fun name => onlyOne "variable" ("$" ++ name)) o.variableDefinitions

/-- The arguments that a visit comes to, one list for each field or directive. -/
def Visit.argumentLists : Visit → List (List Argument)
  | field _ f _ => [f.arguments]
  | directives _ ds => ds.map (·.arguments)
  | _ => []

def uniqueArgumentNames (s : Schema) (d : Document) : List Diagnostic :=
  (s.visits d).flatMap fun v =>
    v.argumentLists.flatMap (repeatFindings .uniqueArgumentNames (onlyOne "argument"))

mutual

/-- The repeated field names of input objects anywhere in a value. -/
def Value.repeatedFields : Value → List Diagnostic
  | .list items _ => repeatedFieldsOfItems items
  | .object fields _ =>
    repeatFindings .uniqueInputFieldNames (onlyOne "input field") fields ++ repeatedFieldsOfFields fields
  | _ => []

def repeatedFieldsOfItems : List Value → List Diagnostic
  | [] => []
  | v :: vs => v.repeatedFields ++ repeatedFieldsOfItems vs

def repeatedFieldsOfFields : List ObjectField → List Diagnostic
  | [] => []
  | ⟨_, v, _⟩ :: fs => v.repeatedFields ++ repeatedFieldsOfFields fs

end

/-- The values that a visit comes to. -/
def Visit.values : Visit → List Value
  | .variable v => v.defaultValue.toList
  | v => v.argumentLists.flatMap fun arguments => arguments.map (·.value)

def uniqueInputFieldNames (s : Schema) (d : Document) : List Diagnostic :=
  (s.visits d).flatMap fun v => v.values.flatMap (·.repeatedFields)

/-- Whether a directive is known to be used at most once in a place. -/
def Schema.usableOnce (s : Schema) (use : Directive) : Bool :=
  (s.directive? use.name.value).any (!·.repeatable)

def uniqueDirectivesPerLocation (s : Schema) (d : Document) : List Diagnostic :=
  (s.visits d).flatMap fun
    | .directives _ uses =>
      repeatFindings .uniqueDirectivesPerLocation
        (fun name => "The directive " ++ quote ("@" ++ name) ++ " can only be used once at this location.")
        (uses.filter s.usableOnce)
    | _ => []

end GraphQL
