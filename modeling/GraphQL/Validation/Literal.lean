import GraphQL.Diagnostic
import GraphQL.Syntax.Number
import GraphQL.Syntax.Print
import GraphQL.Validation.Visit

/-!
# Types of literals

A literal must be coercible to the input type expected in its place. A value that is no list stands for a list of
itself; variables fit everywhere, and are checked by their declared types elsewhere; scalars that the prelude does
not define take any literal.
-/

namespace GraphQL

/-- The type under all list brackets. -/
def TypeRef.base : TypeRef → TypeRef
  | .named name nullable span => .named name nullable span
  | .list element _ _ => element.base

def valueFinding (message : String) (span : Span) : Diagnostic := Rule.valueType.finding message [span]

def unexpectedValue (type : TypeRef) (v : Value) : Diagnostic :=
  valueFinding ("Expected value of type " ++ quote type.print ++ ", found " ++ v.print ++ ".") v.span

/-- The faults of a literal as a value of the scalar that `type` names. -/
def scalarFindings (scalar : String) (type : TypeRef) (v : Value) : List Diagnostic :=
  match scalar, v with
  | "Int", .int raw span =>
    if (Number.int32OfLiteral? raw).isSome then []
    else [valueFinding ("Int cannot represent non 32-bit signed integer value: " ++ raw) span]
  | "Float", .float raw span =>
    if (Number.finiteOfLiteral? raw).isSome then []
    else [valueFinding ("Float cannot represent non numeric value: " ++ raw) span]
  | "Float", .int .. | "String", .string _ | "Boolean", .boolean .. | "ID", .string _ | "ID", .int .. => []
  | scalar, v => if scalar ∈ builtinScalars then [unexpectedValue type v] else []

/-- The faults of a value, neither null nor an input object, at a named type. -/
def leafFindings (s : Schema) (type : TypeRef) (v : Value) : List Diagnostic :=
  match s.type? type.innermost.value with
  | none => []
  | some t => match t.body with
    | .scalar => scalarFindings t.name.value type v
    | .enum values => match v with
      | .enum member span =>
        if Named.contains values member then []
        else [valueFinding ("Value " ++ quote member ++ " does not exist in " ++ quote t.name.value ++ " enum.") span]
      | v => [valueFinding
          ("Enum " ++ quote t.name.value ++ " cannot represent non-enum value: " ++ v.print ++ ".") v.span]
    | .inputObject _ => [unexpectedValue type v]
    | .object .. | .interface .. | .union _ => []

/-- The required fields of an input object that a literal leaves out. -/
def missingInputFields (type : String) (definitions : List InputValueDefinition) (fields : List ObjectField)
    (span : Span) : List Diagnostic :=
  (definitions.filter fun f => f.isRequired && !Named.contains fields f.name.value).map fun f =>
    valueFinding
      ("Field " ++ quote (type ++ "." ++ f.name.value) ++ " of required type " ++ quote f.type.print ++
        " was not provided.") span

mutual

/-- The faults of a literal where a value of the type is expected. -/
def literalFindings (s : Schema) : Value → TypeRef → List Diagnostic
  | .var _, _ => []
  | .null span, type => if type.nullable then [] else [unexpectedValue type (.null span)]
  | .list items _, .list element _ _ => itemFindings s element items
  | .object fields span, type =>
    match s.type? type.innermost.value with
    | some ⟨_, name, _, .inputObject definitions, _⟩ =>
      fieldFindings s name.value definitions fields ++ missingInputFields name.value definitions fields span
    | _ => leafFindings s type.base (.object fields span)
  | v, type => leafFindings s type.base v

def itemFindings (s : Schema) (element : TypeRef) : List Value → List Diagnostic
  | [] => []
  | v :: vs => literalFindings s v element ++ itemFindings s element vs

def fieldFindings (s : Schema) (type : String) (definitions : List InputValueDefinition) :
    List ObjectField → List Diagnostic
  | [] => []
  | ⟨name, v, _⟩ :: fs =>
    (match Named.find? definitions name.value with
      | some definition => literalFindings s v definition.type
      | none =>
        [valueFinding ("Field " ++ quote name.value ++ " is not defined by type " ++ quote type ++ ".") name.span]) ++
    fieldFindings s type definitions fs

end

def argumentFindings (s : Schema) (parameters : List InputValueDefinition) (arguments : List Argument) :
    List Diagnostic :=
  arguments.flatMap fun a =>
    match Named.find? parameters a.name.value with
    | some parameter => literalFindings s a.value parameter.type
    | none => []

def valueType (s : Schema) (d : Document) : List Diagnostic :=
  (s.visits d).flatMap fun
    | .variable v => match v.defaultValue with
      | some value => literalFindings s value v.type
      | none => []
    | .field _ f (some definition) => argumentFindings s definition.arguments f.arguments
    | .directives _ uses => uses.flatMap fun use =>
      match s.directive? use.name.value with
      | some definition => argumentFindings s definition.arguments use.arguments
      | none => []
    | _ => []

end GraphQL
