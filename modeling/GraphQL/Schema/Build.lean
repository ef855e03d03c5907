import GraphQL.Schema.Basic
import GraphQL.Schema.Conformance
import GraphQL.Schema.DirectiveUse
import GraphQL.Schema.Draft
import GraphQL.Schema.InputCycle
import GraphQL.Schema.Reference
import GraphQL.ParseError.Report

/-!
# Building schemas

A draft becomes a schema once its extensions are applied, if it has no fault and its query root is found. All
faults are reported together, in the order of the checks.
-/

namespace GraphQL

/-- The type at which operations of a kind begin in a schema that does not say so. -/
def OperationKind.defaultRoot : OperationKind → String
  | query => "Query"
  | mutation => "Mutation"
  | subscription => "Subscription"

namespace Draft

/-- The root operations that are declared or, where nothing is said of the schema, those whose types have the usual
names. -/
def rootOperations (d : Draft) : List RootOperation :=
  if d.schemaSpan.isNone && d.roots.isEmpty then
    OperationKind.all.filterMap fun kind =>
      (Named.find? d.types kind.defaultRoot).map fun t => ⟨kind, ⟨kind.defaultRoot, t.span⟩, t.span⟩
  else d.roots

/-- The object type that is the root of a kind. -/
def rootName? (d : Draft) (kind : OperationKind) : Option String :=
  match d.rootOperations.find? (·.kind = kind) with
  | none => none
  | some root => match Named.find? d.types root.typeName.value with
    | some t => if t.kind = .object then some root.typeName.value else none
    | none => none

def rootFaults (d : Draft) : List SchemaFault :=
  (d.rootOperations.flatMap fun root =>
    let name := root.typeName
    match Named.find? d.types name.value with
    | none => [⟨.undefinedType name.value, [name.span]⟩]
    | some t => if t.kind = .object then [] else [⟨.rootKind root.kind name.value, [name.span]⟩]) ++
  if (d.rootName? .query).isNone && !(d.roots.any (·.kind = .query) || Named.contains d.types "Query") then
    [⟨.noQueryRoot, []⟩]
  else []

def emptyFaults (d : Draft) : List SchemaFault :=
  (d.types.filter fun t => !t.isBuiltin && t.body.isEmpty).map fun t =>
    ⟨.emptyType t.kind t.name.value, [t.span]⟩

/-- The faults of one type among all types. -/
def typeFaults (types : List TypeDefinition) (t : TypeDefinition) : List SchemaFault :=
  match t.body with
  | .scalar | .enum _ => []
  | .inputObject fields => fields.flatMap (inputFieldTypeFaults types t.name.value) ++ inputCycleFaults types t
  | .object _ fields | .interface _ fields =>
    conformanceFaults types t ++ fields.flatMap (fieldTypeFaults types t.name.value)
  | .union members => members.flatMap (memberTypeFaults types t.name.value)

def directiveTypeFaults (d : Draft) : List SchemaFault :=
  (d.directives.filter fun directive => !directive.isBuiltin).flatMap fun directive =>
    parameterTypeFaults d.types ("@" ++ directive.name.value) directive.arguments

/-- The faults that show only when all types are known. -/
def finalFaults (d : Draft) : List SchemaFault :=
  d.emptyFaults ++ d.rootFaults ++ d.types.flatMap (typeFaults d.types) ++ d.directiveTypeFaults ++
  directiveUseFaults d.schemaDirectives d.types d.directives

/-- All faults of a draft. -/
def allFaults (d : Draft) : List SchemaFault := d.extended.faults ++ d.extended.finalFaults

/-- The schema of a draft, or all faults that keep it from being one. -/
def build (d : Draft) : Except (List SchemaFault) Schema :=
  let e := d.extended
  match d.allFaults, e.rootName? .query with
  | [], some query => .ok ⟨e.types, e.directives, query, e.rootName? .mutation, e.rootName? .subscription⟩
  | faults, _ => .error faults

end Draft

/-- Why there is no schema. -/
inductive SchemaError where
  | unparsed (cause : ParseError)
  | invalid (faults : List SchemaFault)

namespace SchemaError

def message : SchemaError → String
  | unparsed cause => "schema syntax error: " ++ cause.oneLine none
  | invalid faults =>
    "schema is invalid (" ++ toString faults.length ++ " error" ++ (if faults.length = 1 then "" else "s") ++
      "): " ++ "; ".intercalate (faults.map (·.message))

/-- One diagnostic for each thing that is wrong. -/
def diagnostics : SchemaError → List Diagnostic
  | unparsed cause => [.ofParseError cause]
  | invalid faults => Diagnostic.sorted (faults.map (·.diagnostic))

end SchemaError

namespace Schema

def build (documents : List SchemaDocument) : Except (List SchemaFault) Schema :=
  (documents.foldl Draft.addDocument .start).build

/-- The schema that is written in some texts, which are read one after the other. -/
def ofTexts (texts : List String) : Except SchemaError Schema :=
  match texts.mapM SchemaDocument.parse with
  | .error cause => .error (.unparsed cause)
  | .ok documents => (build documents).mapError .invalid

end Schema

end GraphQL
