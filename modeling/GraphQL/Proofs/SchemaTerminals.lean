import GraphQL.Proofs.Terminals
import GraphQL.Syntax.TypeSystem

/-!
# The terminals that schema definitions are written with

Three lists of a schema document may have their separator in front of the first item too: interfaces, the members
of a union, and the places of a directive. Each definition has at most one such list, so that there are two ways to
write it (`TypeSystemDefinition.terminals`), and a document is written with any choice for each of its definitions
(`Spelled`). `SchemaDocument.Fits` collects what the grammar asks for beyond the terminals.
-/

namespace GraphQL

open Terminal

/-- The terminals of a list of items with a separator between each two. -/
def separatedTerminals {α : Type} (separator : Punctuator) (g : α → List Terminal) : List α → List Terminal
  | [] => []
  | a :: as => g a ++ as.flatMap fun b => sign separator :: g b

/-- A list of items that may have its separator in front as well. -/
def listedTerminals {α : Type} (leading : Bool) (separator : Punctuator) (g : α → List Terminal)
    (items : List α) : List Terminal :=
  (if leading then [sign separator] else []) ++ separatedTerminals separator g items

def descriptionTerminals (description : Option StringLiteral) : List Terminal :=
  description.toList.map fun l => .string l.value l.block

def defaultTerminals (defaultValue : Option Value) : List Terminal :=
  defaultValue.toList.flatMap fun v => sign .equals :: v.terminals

def InputValueDefinition.terminals (v : InputValueDefinition) : List Terminal :=
  descriptionTerminals v.description ++ word v.name.value :: sign .colon :: (v.type.terminals ++
    (defaultTerminals v.defaultValue ++ directiveTerminals v.directives))

def argumentDefinitionTerminals (arguments : List InputValueDefinition) : List Terminal :=
  group .openParen .closeParen InputValueDefinition.terminals arguments

def FieldDefinition.terminals (f : FieldDefinition) : List Terminal :=
  descriptionTerminals f.description ++ word f.name.value :: (argumentDefinitionTerminals f.arguments ++
    sign .colon :: (f.type.terminals ++ directiveTerminals f.directives))

def EnumValueDefinition.terminals (v : EnumValueDefinition) : List Terminal :=
  descriptionTerminals v.description ++ word v.name.value :: directiveTerminals v.directives

def interfaceTerminals (leading : Bool) (interfaces : List Name) : List Terminal :=
  if interfaces = [] then [] else word "implements" :: listedTerminals leading .ampersand Name.terminals interfaces

def memberTerminals (leading : Bool) (members : List Name) : List Terminal :=
  if members = [] then [] else sign .equals :: listedTerminals leading .pipe Name.terminals members

/-- What follows the name in the definition of a type. -/
def TypeBody.terminals (leading : Bool) (directives : List Directive) : TypeBody → List Terminal
  | scalar => directiveTerminals directives
  | object interfaces fields | interface interfaces fields =>
    interfaceTerminals leading interfaces ++ (directiveTerminals directives ++
      group .openBrace .closeBrace FieldDefinition.terminals fields)
  | union members => directiveTerminals directives ++ memberTerminals leading members
  | enum values => directiveTerminals directives ++ group .openBrace .closeBrace EnumValueDefinition.terminals values
  | inputObject fields =>
    directiveTerminals directives ++ group .openBrace .closeBrace InputValueDefinition.terminals fields

/-- A definition of a type without its description. -/
def TypeDefinition.terminals (leading : Bool) (t : TypeDefinition) : List Terminal :=
  word t.body.keyword :: word t.name.value :: t.body.terminals leading t.directives

def RootOperation.terminals (o : RootOperation) : List Terminal :=
  word o.kind.keyword :: sign .colon :: o.typeName.terminals

/-- A definition of the schema without its description. -/
def SchemaDefinition.terminals (s : SchemaDefinition) : List Terminal :=
  word "schema" :: (directiveTerminals s.directives ++
    group .openBrace .closeBrace RootOperation.terminals s.rootOperations)

def LocatedPlace.terminals (p : LocatedPlace) : List Terminal := [word p.place.text]

def repeatableTerminals (repeatable : Bool) : List Terminal := if repeatable then [word "repeatable"] else []

/-- A definition of a directive without its description. -/
def DirectiveDefinition.terminals (leading : Bool) (d : DirectiveDefinition) : List Terminal :=
  word "directive" :: sign .atSign :: word d.name.value :: (argumentDefinitionTerminals d.arguments ++
    (repeatableTerminals d.repeatable ++
      word "on" :: listedTerminals leading .pipe LocatedPlace.terminals d.locations))

/-- A definition or extension, `leading` telling whether its list has a separator in front. -/
def TypeSystemDefinition.terminals (leading : Bool) : TypeSystemDefinition → List Terminal
  | schema s => descriptionTerminals s.description ++ s.terminals
  | schemaExtension s => word "extend" :: s.terminals
  | type t => descriptionTerminals t.description ++ t.terminals leading
  | typeExtension t => word "extend" :: t.terminals leading
  | directive d => descriptionTerminals d.description ++ d.terminals leading

/-- Definitions one after the other, each with or without a separator in front of its list. -/
inductive Spelled : List TypeSystemDefinition → List Terminal → Prop where
  | nil : Spelled [] []
  | cons {d : TypeSystemDefinition} {ds : List TypeSystemDefinition} {ts : List Terminal} (leading : Bool)
    (rest : Spelled ds ts) : Spelled (d :: ds) (d.terminals leading ++ ts)

theorem TypeSystemDefinition.terminals_ne_nil (leading : Bool) (d : TypeSystemDefinition) :
    d.terminals leading ≠ [] := by
  cases d <;> simp [terminals, SchemaDefinition.terminals, TypeDefinition.terminals, DirectiveDefinition.terminals]

structure InputValueDefinition.Fits (v : InputValueDefinition) : Prop where
  type : v.type.Fits Parse.maxDepth
  defaultValue : ∀ value ∈ v.defaultValue, value.Fits false Parse.maxDepth
  directives : ∀ d ∈ v.directives, d.Fits false Parse.maxDepth

structure FieldDefinition.Fits (f : FieldDefinition) : Prop where
  arguments : ∀ a ∈ f.arguments, a.Fits
  type : f.type.Fits Parse.maxDepth
  directives : ∀ d ∈ f.directives, d.Fits false Parse.maxDepth

structure EnumValueDefinition.Fits (v : EnumValueDefinition) : Prop where
  /-- The name is none of `true`, `false` and `null`. -/
  name : wordKind v.name.value = .name v.name.value
  directives : ∀ d ∈ v.directives, d.Fits false Parse.maxDepth

def TypeBody.Fits : TypeBody → Prop
  | scalar => True
  | object _ fields | interface _ fields => ∀ f ∈ fields, f.Fits
  | union _ => True
  | enum values => ∀ v ∈ values, v.Fits
  | inputObject fields => ∀ f ∈ fields, f.Fits

/-- Whether a body has no parts. -/
def TypeBody.IsEmpty : TypeBody → Prop
  | scalar => True
  | object interfaces fields | interface interfaces fields => interfaces = [] ∧ fields = []
  | union members => members = []
  | enum values => values = []
  | inputObject fields => fields = []

structure TypeDefinition.Fits (t : TypeDefinition) : Prop where
  directives : ∀ d ∈ t.directives, d.Fits false Parse.maxDepth
  body : t.body.Fits

structure TypeDefinition.Extends (t : TypeDefinition) : Prop extends t.Fits where
  description : t.description = none
  addition : t.directives = [] → ¬ t.body.IsEmpty

structure SchemaDefinition.Fits (s : SchemaDefinition) : Prop where
  directives : ∀ d ∈ s.directives, d.Fits false Parse.maxDepth
  nonempty : s.rootOperations ≠ []

structure SchemaDefinition.Extends (s : SchemaDefinition) : Prop where
  directives : ∀ d ∈ s.directives, d.Fits false Parse.maxDepth
  description : s.description = none
  addition : s.directives = [] → s.rootOperations ≠ []

structure DirectiveDefinition.Fits (d : DirectiveDefinition) : Prop where
  arguments : ∀ a ∈ d.arguments, a.Fits
  nonempty : d.locations ≠ []

def TypeSystemDefinition.Fits : TypeSystemDefinition → Prop
  | schema s => s.Fits
  | schemaExtension s => s.Extends
  | type t => t.Fits
  | typeExtension t => t.Extends
  | directive d => d.Fits

structure SchemaDocument.Fits (d : SchemaDocument) : Prop where
  nonempty : d.definitions ≠ []
  definitions : ∀ definition ∈ d.definitions, definition.Fits

end GraphQL
