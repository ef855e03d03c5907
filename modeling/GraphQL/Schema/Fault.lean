import GraphQL.Diagnostic
import GraphQL.Syntax.TypeSystem

/-!
# Faults of schemas

What can be wrong with the definitions that are put together into a schema, and the places that a fault points at,
most relevant first.
-/

namespace GraphQL

/-- A kind of type in words. -/
def TypeKind.describe : TypeKind → String
  | .scalar => "scalar type"
  | .object => "object type"
  | .interface => "interface type"
  | .union => "union type"
  | .enum => "enum type"
  | .inputObject => "input object type"

/-- What a type of a kind consists of. -/
def TypeKind.content : TypeKind → String
  | .union => "member types"
  | .enum => "values"
  | _ => "fields"

/-- Why a definition, or a part of one, does not fit into its schema. -/
inductive SchemaFault.Cause where
  | repeatedType (name : String)
  | repeatedDirective (name : String)
  | builtinType (kind : TypeKind) (name : String)
  | builtinDirective (name : String)
  | repeatedSchema
  | repeatedRoot (kind : OperationKind)
  | repeatedMember (parent member : String)
  | reservedName (name : String)
  | emptyType (kind : TypeKind) (name : String)
  | undefinedExtended (name : String)
  | extendedKind (name : String) (defined extension : TypeKind)
  | undefinedType (name : String)
  | inputTypeOfField (parent field type : String)
  /-- A parameter or input field, named by its path, of a type that only results can have. -/
  | outputTypeOfInput (path type : String)
  | implementsSelf (type : String)
  | undefinedInterface (type interface : String)
  | notInterface (type implemented : String)
  /-- The interfaces along `path` lead to an interface that the type itself does not name. -/
  | missingInterface (type : String) (path : List String) (missing : String)
  | missingField (type interface field : String)
  | fieldNotSubtype (type interface field expected found : String)
  | missingParameter (type interface field parameter : String)
  | parameterType (type interface field parameter expected found : String)
  | requiredParameter (type interface field parameter : String)
  | memberKind (union member : String) (kind : TypeKind)
  | inputCycle (path : List String)
  | noQueryRoot
  | rootKind (kind : OperationKind) (type : String)
  | undefinedDirective (name : String)
  | misplacedDirective (name : String) (location : DirectiveLocation)
  | repeatedUse (directive : String)
deriving DecidableEq

/-- `(parameter:)` after the path of a field or directive. -/
def parameterPath (owner parameter : String) : String := owner ++ "(" ++ parameter ++ ":)"

structure SchemaFault where
  cause : SchemaFault.Cause
  spans : List Span
deriving DecidableEq

namespace SchemaFault

private def quoted (text : String) : String := "`" ++ text ++ "`"

def Cause.message : Cause → String
  | repeatedType name => "the type " ++ quoted name ++ " is defined more than once"
  | repeatedDirective name => "the directive " ++ quoted name ++ " is defined more than once"
  | builtinType kind name => "the " ++ kind.describe ++ " " ++ quoted name ++ " is built in and cannot be redefined"
  | builtinDirective name => "the directive " ++ quoted name ++ " is built in and cannot be redefined"
  | repeatedSchema => "the schema definition is given more than once"
  | repeatedRoot kind => "the " ++ kind.keyword ++ " root operation type is defined more than once"
  | repeatedMember parent member => quoted member ++ " is listed more than once in " ++ quoted parent
  | reservedName name =>
    "the name " ++ quoted name ++ " is reserved: names starting with `__` belong to introspection"
  | emptyType kind name =>
    "the " ++ kind.describe ++ " " ++ quoted name ++ " must define one or more " ++ kind.content
  | undefinedExtended name => "cannot extend " ++ quoted name ++ " because it is not defined"
  | extendedKind name defined extension =>
    "cannot extend the " ++ defined.describe ++ " " ++ quoted name ++ " with " ++
      quoted ("extend " ++ extension.keyword)
  | undefinedType name => "unknown type " ++ quoted name
  | inputTypeOfField parent field type =>
    "the field " ++ quoted (parent ++ "." ++ field) ++ " must have an output type, but " ++ quoted type ++
      " is an input object type"
  | outputTypeOfInput path type =>
    quoted path ++ " must have an input type, but " ++ quoted type ++ " is an output type"
  | implementsSelf type => quoted type ++ " cannot implement itself"
  | undefinedInterface type interface =>
    quoted type ++ " implements " ++ quoted interface ++ ", which is not defined"
  | notInterface type implemented =>
    quoted type ++ " can only implement interfaces, but " ++ quoted implemented ++ " is not an interface"
  | missingInterface type path missing =>
    quoted type ++ " must also implement " ++ quoted missing ++ " because " ++
      quoted ("` > `".intercalate path) ++ " implements it"
  | missingField type interface field =>
    quoted type ++ " is missing the field " ++ quoted field ++ " required by the interface " ++ quoted interface
  | fieldNotSubtype type interface field expected found =>
    quoted (type ++ "." ++ field) ++ " has type " ++ quoted found ++ ", which is not a subtype of " ++
      quoted expected ++ " as required by the interface " ++ quoted interface
  | missingParameter type interface field parameter =>
    quoted (type ++ "." ++ field) ++ " is missing the parameter " ++ quoted parameter ++
      " required by the interface " ++ quoted interface
  | parameterType type interface field parameter expected found =>
    quoted (parameterPath (type ++ "." ++ field) parameter) ++ " has type " ++ quoted found ++ ", but the interface " ++
      quoted interface ++ " declares it as " ++ quoted expected
  | requiredParameter type interface field parameter =>
    quoted (parameterPath (type ++ "." ++ field) parameter) ++ " must be optional because the interface " ++
      quoted interface ++ " does not declare it"
  | memberKind union member kind =>
    "the union " ++ quoted union ++ " can only contain object types, but " ++ quoted member ++ " is a " ++
      kind.describe
  | inputCycle path => "input objects form a cycle of non-nullable fields: " ++ " > ".intercalate path
  | noQueryRoot => "the schema has no query root operation type"
  | rootKind kind type =>
    "the " ++ kind.keyword ++ " root operation type must be an object type, but " ++ quoted type ++ " is not"
  | undefinedDirective name => "unknown directive " ++ quoted ("@" ++ name)
  | misplacedDirective name location =>
    "the directive " ++ quoted ("@" ++ name) ++ " is not allowed on " ++ location.text
  | repeatedUse directive => "the directive " ++ quoted ("@" ++ directive) ++ " can only be used once here"

def message (f : SchemaFault) : String := f.cause.message

def diagnostic (f : SchemaFault) : Diagnostic := ⟨.schemaBuild, f.message, f.spans, []⟩

end SchemaFault

end GraphQL
