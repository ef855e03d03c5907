import GraphQL.Diagnostic
import GraphQL.Validation.Visit

/-!
# Things that must exist

Operations, fields, arguments, types, fragments and directives that a document speaks of must be there, and
required arguments must be given. A thing whose surroundings are unknown is left to the check of those.
-/

namespace GraphQL

def knownOperationType (s : Schema) (d : Document) : List Diagnostic :=
  (d.operations.filter fun o => (s.rootName? o.kind).isNone).map fun o =>
    Rule.knownOperationType.finding ("Schema is not configured to execute " ++ o.kind.keyword ++ " operation.") [o.span]

def unknownField (s : Schema) (d : Document) : List Diagnostic :=
  (s.visits d).flatMap fun
    | .field (some parent) f none =>
      if parent.kind.isComposite then
        [Rule.unknownField.finding
          ("Cannot query field " ++ quote f.name.value ++ " on type " ++ quote parent.name.value ++ ".") [f.name.span]]
      else []
    | _ => []

/-- The arguments that no parameter is named like; `owner` is the field or directive in words. -/
def unknownArguments (parameters : List InputValueDefinition) (owner : String) (arguments : List Argument) :
    List Diagnostic :=
  (arguments.filter fun a => !Named.contains parameters a.name.value).map fun a =>
    Rule.knownArgumentNames.finding ("Unknown argument " ++ quote a.name.value ++ " on " ++ owner ++ ".") [a.name.span]

def knownArgumentNames (s : Schema) (d : Document) : List Diagnostic :=
  (s.visits d).flatMap fun
    | .field (some parent) f (some definition) =>
      unknownArguments definition.arguments ("field " ++ quote (parent.name.value ++ "." ++ f.name.value)) f.arguments
    | .directives _ uses => uses.flatMap fun use =>
      match s.directive? use.name.value with
      | some definition =>
        unknownArguments definition.arguments ("directive " ++ quote ("@" ++ use.name.value)) use.arguments
      | none => []
    | _ => []

/-- The required parameters without an argument; they are reported at the field or directive `owner`. -/
def missingArguments (parameters : List InputValueDefinition) (owner : String) (span : Span)
    (arguments : List Argument) : List Diagnostic :=
  (parameters.filter fun p => p.isRequired && !Named.contains arguments p.name.value).map fun p =>
    Rule.requiredArguments.finding
      (owner ++ " argument " ++ quote p.name.value ++ " of type " ++ quote p.type.print ++
        " is required, but it was not provided.") [span]

def requiredArguments (s : Schema) (d : Document) : List Diagnostic :=
  (s.visits d).flatMap fun
    | .field _ f (some definition) =>
      missingArguments definition.arguments ("Field " ++ quote f.name.value) f.span f.arguments
    | .directives _ uses => uses.flatMap fun use =>
      match s.directive? use.name.value with
      | some definition =>
        missingArguments definition.arguments ("Directive " ++ quote ("@" ++ use.name.value)) use.span use.arguments
      | none => []
    | _ => []

def knownFragmentNames (s : Schema) (d : Document) : List Diagnostic :=
  (s.visits d).flatMap fun
    | .spread _ spread =>
      if (d.fragment? spread.name.value).isSome then []
      else [Rule.knownFragmentNames.finding ("Unknown fragment " ++ quote spread.name.value ++ ".") [spread.name.span]]
    | _ => []

/-- The names of types that a visit comes to. -/
def Visit.typeNames : Visit → List Name
  | fragment f => [f.condition.typeName]
  | .variable v => [v.type.innermost]
  | inline _ i => (i.condition.map (·.typeName)).toList
  | _ => []

def knownTypeNames (s : Schema) (d : Document) : List Diagnostic :=
  (s.visits d).flatMap fun v =>
    (v.typeNames.filter fun name => (s.type? name.value).isNone).map fun name =>
      Rule.knownTypeNames.finding ("Unknown type " ++ quote name.value ++ ".") [name.span]

def knownDirectives (s : Schema) (d : Document) : List Diagnostic :=
  (s.visits d).flatMap fun
    | .directives _ uses => (uses.filter fun use => (s.directive? use.name.value).isNone).map fun use =>
      Rule.knownDirectives.finding ("Unknown directive " ++ quote ("@" ++ use.name.value) ++ ".") [use.span]
    | _ => []

end GraphQL
