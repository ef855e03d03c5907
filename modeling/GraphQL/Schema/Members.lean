import GraphQL.Schema.Fault
import GraphQL.Schema.Types

/-!
# Members of types

A definition and its extensions list the members of one type. Among members of one name the first is kept and each
later one is a fault, and so it is with the parameters of one field. The functions on the left of each pair give
what is kept, those on the right (`…Faults`) what is reported.
-/

namespace GraphQL

open Named

def repeatedMember {α : Type} [Named α] (parent : String) (x : α) : SchemaFault :=
  ⟨.repeatedMember parent (nameOf x), [spanOf x]⟩

/-- The faults of `xs` as members of `parent` beside the members `kept`. -/
def memberFaults {α : Type} [Named α] (parent : String) (kept xs : List α) : List SchemaFault :=
  (repeats kept xs).map fun (x, _) => repeatedMember parent x

/-- A field without its repeated parameters. -/
def FieldDefinition.distinct (f : FieldDefinition) : FieldDefinition := { f with arguments := fresh [] f.arguments }

def distinctFields (fields : List FieldDefinition) : List FieldDefinition :=
  (fresh [] fields).map (·.distinct)

/-- The faults of the fields of one definition: field by field, those of its parameters, then its own. -/
def fieldListFaults (parent : String) (kept : List FieldDefinition) : List FieldDefinition → List SchemaFault
  | [] => []
  | f :: fs =>
    memberFaults (parent ++ "." ++ f.name.value) [] f.arguments ++
    if contains kept f.name.value then repeatedMember parent f :: fieldListFaults parent kept fs
    else fieldListFaults parent (kept ++ [f]) fs

namespace TypeBody

/-- A body of the kind without members. -/
def blank : TypeKind → TypeBody
  | .scalar => scalar
  | .object => object [] []
  | .interface => interface [] []
  | .union => union []
  | .enum => enum []
  | .inputObject => inputObject []

/-- Adds the members of a second body of the same kind. -/
def merge : TypeBody → TypeBody → TypeBody
  | object is fs, object js gs => object (is ++ fresh is js) (fs ++ fresh fs (distinctFields gs))
  | interface is fs, interface js gs => interface (is ++ fresh is js) (fs ++ fresh fs (distinctFields gs))
  | union ms, union ns => union (ms ++ fresh ms ns)
  | enum vs, enum ws => enum (vs ++ fresh vs (fresh [] ws))
  | inputObject fs, inputObject gs => inputObject (fs ++ fresh fs (fresh [] gs))
  | body, _ => body

private def typeFieldFaults (parent : String) (fs gs : List FieldDefinition) : List SchemaFault :=
  fieldListFaults parent [] gs ++ memberFaults parent fs (distinctFields gs)

/-- The faults in adding the members of a second body to those of the type `parent`: repeats within the second body
are found before those of members that the type has already. -/
def mergeFaults (parent : String) : TypeBody → TypeBody → List SchemaFault
  | object is fs, object js gs => memberFaults parent is js ++ typeFieldFaults parent fs gs
  | interface is fs, interface js gs => memberFaults parent is js ++ typeFieldFaults parent fs gs
  | union ms, union ns => memberFaults parent ms ns
  | enum vs, enum ws => memberFaults parent [] ws ++ memberFaults parent vs (fresh [] ws)
  | inputObject fs, inputObject gs => memberFaults parent [] gs ++ memberFaults parent fs (fresh [] gs)
  | _, _ => []

end TypeBody

namespace TypeDefinition

/-- A definition without repeated members. -/
def distinct (t : TypeDefinition) : TypeDefinition := { t with body := (TypeBody.blank t.kind).merge t.body }

def faults (t : TypeDefinition) : List SchemaFault := (TypeBody.blank t.kind).mergeFaults t.name.value t.body

/-- A type with what an extension of its kind adds. -/
def extend (t extension : TypeDefinition) : TypeDefinition :=
  { t with directives := t.directives ++ extension.directives, body := t.body.merge extension.body }

def extendFaults (t extension : TypeDefinition) : List SchemaFault :=
  t.body.mergeFaults t.name.value extension.body

end TypeDefinition

namespace DirectiveDefinition

def distinct (d : DirectiveDefinition) : DirectiveDefinition := { d with arguments := fresh [] d.arguments }

def faults (d : DirectiveDefinition) : List SchemaFault := memberFaults ("@" ++ d.name.value) [] d.arguments

end DirectiveDefinition

end GraphQL
