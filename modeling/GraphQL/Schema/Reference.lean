import GraphQL.Schema.Fault
import GraphQL.Schema.Types

/-!
# References to types

Every type that a schema speaks of must be defined, and of a kind that fits its place: fields of objects and
interfaces give results, parameters and input fields take input, and a union is made of object types.
-/

namespace GraphQL

/-- The faults of the type of a parameter or input field; `path` says where it stands. -/
def inputTypeFaults (types : List TypeDefinition) (path : String) (type : TypeRef) : List SchemaFault :=
  let name := type.innermost
  match Named.find? types name.value with
  | some t => if t.kind.isInput then [] else [⟨.outputTypeOfInput path name.value, [type.span]⟩]
  | none => [⟨.undefinedType name.value, [name.span]⟩]

/-- The faults of the type of a field's results. -/
def outputTypeFaults (types : List TypeDefinition) (parent field : String) (type : TypeRef) : List SchemaFault :=
  let name := type.innermost
  match Named.find? types name.value with
  | some t => if t.kind.isOutput then [] else [⟨.inputTypeOfField parent field name.value, [type.span]⟩]
  | none => [⟨.undefinedType name.value, [name.span]⟩]

def parameterTypeFaults (types : List TypeDefinition) (owner : String) (parameters : List InputValueDefinition) :
    List SchemaFault :=
  parameters.flatMap fun p => inputTypeFaults types (parameterPath owner p.name.value) p.type

def fieldTypeFaults (types : List TypeDefinition) (parent : String) (f : FieldDefinition) : List SchemaFault :=
  outputTypeFaults types parent f.name.value f.type ++
  parameterTypeFaults types (parent ++ "." ++ f.name.value) f.arguments

def inputFieldTypeFaults (types : List TypeDefinition) (parent : String) (f : InputValueDefinition) :
    List SchemaFault :=
  inputTypeFaults types (parent ++ "." ++ f.name.value) f.type

def memberTypeFaults (types : List TypeDefinition) (union : String) (member : Name) : List SchemaFault :=
  match Named.find? types member.value with
  | some t => if t.kind = .object then [] else [⟨.memberKind union member.value t.kind, [member.span]⟩]
  | none => [⟨.undefinedType member.value, [member.span]⟩]

end GraphQL
