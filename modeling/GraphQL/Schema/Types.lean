import GraphQL.Syntax.Named

/-!
# Types of a schema

What is asked of type definitions once they are read: their kind, what they consist of, and whether they belong to
the prelude. Nothing here looks at more than one type.
-/

namespace GraphQL

namespace TypeKind

/-- Kinds whose values have fields to select. -/
def isComposite : TypeKind → Bool
  | object | interface | union => true
  | _ => false

/-- Kinds that stand for several object types. -/
def isAbstract : TypeKind → Bool
  | interface | union => true
  | _ => false

def isLeaf : TypeKind → Bool
  | scalar | enum => true
  | _ => false

def isInput : TypeKind → Bool
  | scalar | enum | inputObject => true
  | _ => false

def isOutput (kind : TypeKind) : Bool := kind ≠ inputObject

/-- The place of a directive on a definition of the kind. -/
def location : TypeKind → DirectiveLocation
  | scalar => .scalar
  | object => .object
  | interface => .interface
  | union => .union
  | enum => .enum
  | inputObject => .inputObject

end TypeKind

namespace TypeBody

/-- The interfaces that an object or interface says it implements. -/
def interfaces : TypeBody → List Name
  | object interfaces _ | interface interfaces _ => interfaces
  | _ => []

/-- The fields of an object or interface; types of other kinds have none to select. -/
def fields? : TypeBody → Option (List FieldDefinition)
  | object _ fields | interface _ fields => some fields
  | _ => none

def fields (body : TypeBody) : List FieldDefinition := body.fields?.getD []

def members : TypeBody → List Name
  | union members => members
  | _ => []

def enumValues : TypeBody → List EnumValueDefinition
  | enum values => values
  | _ => []

def inputFields : TypeBody → List InputValueDefinition
  | inputObject fields => fields
  | _ => []

/-- Whether a body lacks the parts that a type of its kind must have. -/
def isEmpty : TypeBody → Bool
  | scalar => false
  | object _ fields | interface _ fields => fields.isEmpty
  | union members => members.isEmpty
  | enum values => values.isEmpty
  | inputObject fields => fields.isEmpty

end TypeBody

/-- Names that begin with two underscores belong to introspection. -/
def isReserved (name : String) : Bool := name.toList.take 2 = ['_', '_']

def builtinScalars : List String := ["Boolean", "Float", "ID", "Int", "String"]

def builtinDirectives : List String := ["deprecated", "include", "skip", "specifiedBy"]

namespace TypeDefinition

def kind (t : TypeDefinition) : TypeKind := t.body.kind

def interfaces (t : TypeDefinition) : List Name := t.body.interfaces

def fields (t : TypeDefinition) : List FieldDefinition := t.body.fields

def implements (t : TypeDefinition) (interface : String) : Bool := Named.contains t.interfaces interface

def isBuiltin (t : TypeDefinition) : Bool := isReserved t.name.value || t.name.value ∈ builtinScalars

end TypeDefinition

/-- Whether callers must give a value. -/
def InputValueDefinition.isRequired (i : InputValueDefinition) : Bool := !i.type.nullable && i.defaultValue.isNone

namespace FieldDefinition

/-- The reason given where a field is marked as deprecated. -/
def deprecationReason (f : FieldDefinition) : Option String :=
  (f.directives.find? (·.name.value = "deprecated")).map fun mark =>
    match mark.arguments.find? (·.name.value = "reason") with
    | some ⟨_, .string reason, _⟩ => reason.value
    | _ => "No longer supported"

end FieldDefinition

namespace DirectiveDefinition

def isBuiltin (d : DirectiveDefinition) : Bool := d.name.value ∈ builtinDirectives

def allowedAt (d : DirectiveDefinition) (location : DirectiveLocation) : Bool :=
  d.locations.any (·.place = location)

end DirectiveDefinition

end GraphQL
