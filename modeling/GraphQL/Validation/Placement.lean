import GraphQL.Validation.Expansion
import GraphQL.Diagnostic

/-!
# Things in their places

Selections, fragments, variables and directives that exist may still stand where they cannot: a leaf has nothing to
select, a fragment applies only where some object type satisfies it, a variable holds input, a subscription asks
for one thing.
-/

namespace GraphQL

def leafFieldSelections (s : Schema) (d : Document) : List Diagnostic :=
  (s.visits d).flatMap fun
    | .field _ f (some definition) =>
      let name := f.name.value
      let type := quote definition.type.print
      match s.resultType? (some definition), f.selectionSet with
      | some t, some set =>
        if t.kind.isLeaf then
          [Rule.leafFieldSelections.finding
            ("Field " ++ quote name ++ " must not have a selection since type " ++ type ++ " has no subfields.")
            [set.span]]
        else []
      | some t, none =>
        if t.kind.isComposite then
          [Rule.leafFieldSelections.finding
            ("Field " ++ quote name ++ " of type " ++ type ++ " must have a selection of subfields. Did you mean " ++
              quote (name ++ " \x7b ... \x7d") ++ "?") [f.span]]
        else []
      | none, _ => []
    | _ => []

/-- The spans of the fields whose response keys come after the first key and are new. -/
def furtherKeys (seen : List String) : List Field → List Span
  | [] => []
  | f :: fs =>
    if f.responseKey ∈ seen then furtherKeys seen fs
    else (if seen.isEmpty then [] else [f.span]) ++ furtherKeys (f.responseKey :: seen) fs

/-- An operation as the subject of a message about subscriptions. -/
def subscriptionSubject (o : Operation) : String :=
  match o.name with
  | some name => "Subscription " ++ quote name.value
  | none => "Anonymous Subscription"

def subscriptionFindings (s : Schema) (d : Document) (o : Operation) : List Diagnostic :=
  let fields := (s.topFields d (s.root? o.kind) o.selectionSet).map (·.field)
  let further := furtherKeys [] fields
  (if further.isEmpty then []
    else [Rule.singleFieldSubscriptions.finding (subscriptionSubject o ++ " must select only one top level field.")
      further]) ++
  (fields.filter fun f => isReserved f.name.value).map fun f =>
    Rule.singleFieldSubscriptions.finding
      (subscriptionSubject o ++ " must not select an introspection top level field.") [f.span]

def singleFieldSubscriptions (s : Schema) (d : Document) : List Diagnostic :=
  (d.operations.filter (·.kind = .subscription)).flatMap (subscriptionFindings s d)

/-- Whether a name is that of a type without fields to select. -/
def Schema.isNonComposite (s : Schema) (name : Name) : Bool :=
  (s.type? name.value).any (!·.kind.isComposite)

def fragmentOnCompositeType (s : Schema) (d : Document) : List Diagnostic :=
  (s.visits d).flatMap fun
    | .fragment f => finding ("Fragment " ++ quote f.name.value) f.condition
    | .inline _ ⟨some condition, _, _, _⟩ => finding "Fragment" condition
    | _ => []
where
  finding (subject : String) (condition : TypeCondition) : List Diagnostic :=
    if s.isNonComposite condition.typeName then
      [Rule.fragmentOnCompositeType.finding
        (subject ++ " cannot condition on non composite type " ++ quote condition.typeName.value ++ ".")
        [condition.typeName.span]]
    else []

/-- Reports a fragment on a condition that no object of the type around it can satisfy. -/
def spreadFindings (s : Schema) (subject : String) (parent : TypeDefinition) (condition : TypeCondition)
    (span : Span) : List Diagnostic :=
  match s.conditionType? condition with
  | some t =>
    if parent.kind.isComposite && t.kind.isComposite && !s.overlap t.name.value parent.name.value then
      [Rule.possibleFragmentSpread.finding
        (subject ++ " cannot be spread here as objects of type " ++ quote parent.name.value ++
          " can never be of type " ++ quote t.name.value ++ ".") [span]]
    else []
  | none => []

def possibleFragmentSpread (s : Schema) (d : Document) : List Diagnostic :=
  (s.visits d).flatMap fun
    | .spread (some parent) spread =>
      match d.fragment? spread.name.value with
      | some f => spreadFindings s ("Fragment " ++ quote spread.name.value) parent f.condition spread.span
      | none => []
    | .inline (some parent) ⟨some condition, _, _, span⟩ => spreadFindings s "Fragment" parent condition span
    | _ => []

def variablesAreInputTypes (s : Schema) (d : Document) : List Diagnostic :=
  d.operations.flatMap fun o =>
    (o.variableDefinitions.filter fun v => (s.type? v.type.innermost.value).any (!·.kind.isInput)).map fun v =>
      Rule.variablesAreInputTypes.finding
        ("Variable " ++ quote ("$" ++ v.name.value) ++ " cannot be non-input type " ++ quote v.type.print ++ ".")
        [v.type.span]

def directiveLocation (s : Schema) (d : Document) : List Diagnostic :=
  (s.visits d).flatMap fun
    | .directives place uses =>
      (uses.filter fun use => (s.directive? use.name.value).any (!·.allowedAt place)).map fun use =>
        Rule.directiveLocation.finding
          ("Directive " ++ quote ("@" ++ use.name.value) ++ " may not be used on " ++ place.text ++ ".") [use.span]
    | _ => []

end GraphQL
