import GraphQL.Schema.Subtype
import GraphQL.Validation.SpreadGraph
import GraphQL.Validation.Visit

/-!
# Flow of variables

An operation declares variables, which occur in its arguments and in those of the fragments it reaches. Every
variable that occurs must be declared, every one declared must occur, and its declared type must fit the type
expected where it occurs.
-/

namespace GraphQL

/-- A variable where it occurs, with the type expected there and whether the place has a default value. -/
structure Occurrence where
  use : VariableUse
  expected : Option TypeRef
  hasDefault : Bool

/-- The type of the items of a list where `type` is expected; one item stands for a list of itself. -/
def TypeRef.item : TypeRef → TypeRef
  | .list element _ _ => element
  | .named name nullable span => .named name nullable span

/-- The fields of the input object that a type names. -/
def Schema.inputFieldsOf (s : Schema) (type : Option TypeRef) : List InputValueDefinition :=
  match type.bind fun t => s.type? t.innermost.value with
  | some t => t.body.inputFields
  | none => []

mutual

def valueOccurrences (s : Schema) (expected : Option TypeRef) (hasDefault : Bool) : Value → List Occurrence
  | .var use => [⟨use, expected, hasDefault⟩]
  | .list items _ => itemOccurrences s (expected.map (·.item)) items
  | .object fields _ => fieldOccurrences s (s.inputFieldsOf expected) fields
  | _ => []

def itemOccurrences (s : Schema) (expected : Option TypeRef) : List Value → List Occurrence
  | [] => []
  | v :: vs => valueOccurrences s expected false v ++ itemOccurrences s expected vs

def fieldOccurrences (s : Schema) (definitions : List InputValueDefinition) : List ObjectField → List Occurrence
  | [] => []
  | ⟨name, v, _⟩ :: fs =>
    let definition := Named.find? definitions name.value
    valueOccurrences s (definition.map (·.type)) (definition.any (·.defaultValue.isSome)) v ++
    fieldOccurrences s definitions fs

end

def argumentOccurrences (s : Schema) (parameters : List InputValueDefinition) (arguments : List Argument) :
    List Occurrence :=
  arguments.flatMap fun a =>
    let parameter := Named.find? parameters a.name.value
    valueOccurrences s (parameter.map (·.type)) (parameter.any (·.defaultValue.isSome)) a.value

/-- The occurrences in the arguments that a visit comes to. -/
def visitOccurrences (s : Schema) : Visit → List Occurrence
  | .field _ f definition => argumentOccurrences s (definition.elim [] (·.arguments)) f.arguments
  | .directives _ uses => uses.flatMap fun use =>
    argumentOccurrences s ((s.directive? use.name.value).elim [] (·.arguments)) use.arguments
  | _ => []

def definitionOccurrences (s : Schema) (definition : Definition) : List Occurrence :=
  (s.visitDefinition definition).flatMap (visitOccurrences s)

/-- The occurrences in an operation and in the fragments it reaches. -/
def operationOccurrences (s : Schema) (d : Document) (o : Operation) : List Occurrence :=
  definitionOccurrences s (.operation o) ++
  (d.reachedBy o).flatMap fun f => definitionOccurrences s (.fragment f)

/-- The finding for a variable that an operation uses and does not declare. -/
def undeclaredFinding (o : Operation) (use : VariableUse) : Diagnostic :=
  let owner := match o.name with
    | some name => " by operation " ++ quote name.value
    | none => ""
  Rule.undefinedVariable.finding
    ("Variable " ++ quote ("$" ++ use.name.value) ++ " is not defined" ++ owner ++ ".") [use.span, o.span]

def undefinedVariable (s : Schema) (d : Document) : List Diagnostic :=
  d.operations.flatMap fun o =>
    ((operationOccurrences s d o).filter fun x => !Named.contains o.variableDefinitions x.use.name.value).map fun x =>
      undeclaredFinding o x.use

/-- The finding for a variable that an operation declares and does not use. -/
def unusedFinding (o : Operation) (v : VariableDefinition) : Diagnostic :=
  let owner := match o.name with
    | some name => " in operation " ++ quote name.value
    | none => ""
  Rule.unusedVariable.finding ("Variable " ++ quote ("$" ++ v.name.value) ++ " is never used" ++ owner ++ ".")
    [v.variableSpan]

def unusedVariable (s : Schema) (d : Document) : List Diagnostic :=
  d.operations.flatMap fun o =>
    let used := (operationOccurrences s d o).map (·.use.name.value)
    (o.variableDefinitions.filter (·.name.value ∉ used)).map (unusedFinding o)

/-- A type that also admits null. -/
def TypeRef.orNull : TypeRef → TypeRef
  | .named name _ span => .named name true span
  | .list element _ span => .list element true span

/-- Whether a declared variable may stand where a type is expected. A nullable variable may stand where null is not
accepted if a default value takes the place of null. -/
def usageAllowed (s : Schema) (v : VariableDefinition) (expected : TypeRef) (hasDefault : Bool) : Bool :=
  if !expected.nullable && v.type.nullable then
    (v.defaultValue.any (!·.isNull) || hasDefault) && isSubtype s.types v.type expected.orNull
  else isSubtype s.types v.type expected

/-- The declaration that counts for a name; a repeated one takes the place of those before. -/
def Operation.variable? (o : Operation) (name : String) : Option VariableDefinition :=
  Named.find? o.variableDefinitions.reverse name

def usageFindings (s : Schema) (o : Operation) (x : Occurrence) : List Diagnostic :=
  match x.expected, o.variable? x.use.name.value with
  | some expected, some v =>
    if (s.type? v.type.innermost.value).isNone || usageAllowed s v expected x.hasDefault then []
    else [Rule.variableUsage.finding
      ("Variable " ++ quote ("$" ++ v.name.value) ++ " of type " ++ quote v.type.print ++
        " used in position expecting type " ++ quote expected.print ++ ".") [x.use.span, v.variableSpan]]
  | _, _ => []

def variableUsage (s : Schema) (d : Document) : List Diagnostic :=
  d.operations.flatMap fun o => (operationOccurrences s d o).flatMap (usageFindings s o)

end GraphQL
