import GraphQL.Schema.Fault
import GraphQL.Schema.Types

/-!
# Directives applied in a schema

A directive applied to a part of a schema must be defined, must allow that place, and may stand there twice only if
it is repeatable. Types of the prelude are not looked at.
-/

namespace GraphQL

/-- The faults of the directives applied to one place; `seen` holds the names of the defined ones before. -/
def useFaults (directives : List DirectiveDefinition) (place : DirectiveLocation) (seen : List String) :
    List Directive → List SchemaFault
  | [] => []
  | use :: uses =>
    let name := use.name.value
    match Named.find? directives name with
    | none => ⟨.undefinedDirective name, [use.span]⟩ :: useFaults directives place seen uses
    | some d =>
      (if d.allowedAt place then [] else [⟨.misplacedDirective name place, [use.span]⟩]) ++
      (if name ∈ seen && !d.repeatable then [⟨.repeatedUse name, [use.span]⟩] else []) ++
      useFaults directives place (name :: seen) uses

/-- Lists of applied directives, each with its place. -/
abbrev Uses := List (DirectiveLocation × List Directive)

def parameterUses (parameters : List InputValueDefinition) : Uses :=
  parameters.map fun p => (.argumentDefinition, p.directives)

/-- The directives applied to the parts of a type. -/
def TypeBody.uses : TypeBody → Uses
  | object _ fields | interface _ fields =>
    fields.flatMap fun f => (.fieldDefinition, f.directives) :: parameterUses f.arguments
  | enum values => values.map fun v => (.enumValue, v.directives)
  | inputObject fields => fields.map fun f => (.inputFieldDefinition, f.directives)
  | scalar | union _ => []

/-- The directives applied to a type and its parts. -/
def TypeDefinition.uses (t : TypeDefinition) : Uses := (t.kind.location, t.directives) :: t.body.uses

def usesFaults (directives : List DirectiveDefinition) (uses : Uses) : List SchemaFault :=
  uses.flatMap fun (place, list) => useFaults directives place [] list

/-- The faults of all directives applied in a schema: to the schema itself, to its types, and to the parameters of
its directives. -/
def directiveUseFaults (schemaDirectives : List Directive) (types : List TypeDefinition)
    (directives : List DirectiveDefinition) : List SchemaFault :=
  usesFaults directives <|
    (.schema, schemaDirectives) ::
    (types.filter fun t => !t.isBuiltin).flatMap (·.uses) ++
    directives.flatMap fun d => parameterUses d.arguments

end GraphQL
