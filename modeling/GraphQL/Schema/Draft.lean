import GraphQL.Schema.Members
import GraphQL.Schema.Prelude

/-!
# Drafts of schemas

A draft holds the definitions read so far, from any number of documents, and the faults in them. Where two
definitions have one name the first is kept. Extensions wait until all definitions are known, so that they may come
before the type they extend.
-/

namespace GraphQL

structure Draft where
  types : List TypeDefinition := []
  directives : List DirectiveDefinition := []
  /-- Where the schema itself is defined for the first time. -/
  schemaSpan : Option Span := none
  schemaDirectives : List Directive := []
  roots : List RootOperation := []
  extensions : List TypeDefinition := []
  faults : List SchemaFault := []

namespace Draft

def report (d : Draft) (faults : List SchemaFault) : Draft := { d with faults := d.faults ++ faults }

def addRoot (d : Draft) (root : RootOperation) : Draft :=
  if d.roots.any (·.kind = root.kind) then d.report [⟨.repeatedRoot root.kind, [root.span]⟩]
  else { d with roots := d.roots ++ [root] }

/-- Adds what a definition or an extension says of the schema itself. -/
def addSchemaParts (d : Draft) (s : SchemaDefinition) : Draft :=
  s.rootOperations.foldl addRoot { d with schemaDirectives := d.schemaDirectives ++ s.directives }

def addSchema (d : Draft) (s : SchemaDefinition) : Draft :=
  match d.schemaSpan with
  | some first => (d.report [⟨.repeatedSchema, [s.span, first]⟩]).addSchemaParts s
  | none => { d with schemaSpan := some s.span }.addSchemaParts s

/-- Adds a type; outside the prelude its name must not be reserved. -/
def addType (inPrelude : Bool) (d : Draft) (t : TypeDefinition) : Draft :=
  let d := d.report t.faults
  let name := t.name.value
  if !inPrelude && isReserved name then d.report [⟨.reservedName name, [t.name.span]⟩]
  else match Named.find? d.types name with
    | some other =>
      if other.isBuiltin then d.report [⟨.builtinType other.kind name, [t.name.span]⟩]
      else d.report [⟨.repeatedType name, [t.span, other.span]⟩]
    | none => { d with types := d.types ++ [t.distinct] }

/-- Adds a directive; the faults of its parameters count only if it is kept. -/
def addDirective (inPrelude : Bool) (d : Draft) (directive : DirectiveDefinition) : Draft :=
  let name := directive.name.value
  if !inPrelude && isReserved name then d.report [⟨.reservedName name, [directive.name.span]⟩]
  else match Named.find? d.directives name with
    | some other =>
      if other.isBuiltin then d.report [⟨.builtinDirective name, [directive.name.span]⟩]
      else d.report [⟨.repeatedDirective name, [directive.span, other.span]⟩]
    | none => { d with directives := d.directives ++ [directive.distinct] }.report directive.faults

def add (inPrelude : Bool) (d : Draft) : TypeSystemDefinition → Draft
  | .schema s => d.addSchema s
  | .schemaExtension s => d.addSchemaParts s
  | .type t => d.addType inPrelude t
  | .typeExtension t => { d with extensions := d.extensions ++ [t] }
  | .directive directive => d.addDirective inPrelude directive

/-- The draft that holds the prelude alone. -/
def start : Draft := Prelude.definitions.foldl (add true) {}

def addDocument (d : Draft) (document : SchemaDocument) : Draft := document.definitions.foldl (add false) d

/-- Adds what an extension says to the type of its name. -/
def extendType (d : Draft) (extension : TypeDefinition) : Draft :=
  let name := extension.name.value
  match Named.find? d.types name with
  | none => d.report [⟨.undefinedExtended name, [extension.name.span]⟩]
  | some t =>
    if t.kind = extension.kind then
      let types := d.types.map fun u => if u.name.value = name then u.extend extension else u
      { d with types }.report (t.extendFaults extension)
    else d.report [⟨.extendedKind name t.kind extension.kind, [extension.name.span]⟩]

/-- The draft with all its extensions applied. -/
def extended (d : Draft) : Draft := d.extensions.foldl extendType { d with extensions := [] }

end Draft

end GraphQL
