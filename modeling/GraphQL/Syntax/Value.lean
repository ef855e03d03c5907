import GraphQL.Source.Span

/-!
# Names, values and type references

The parts of the syntax tree that executable and schema documents share. Numbers keep their source text; strings
are already cooked. Non-nullability is a flag on each level of a type reference, so that `T!!` cannot be written.
-/

namespace GraphQL

structure Name where
  value : String
  span : Span
deriving DecidableEq

/-- A string literal after its escapes, or the indentation of its block, have been taken away. -/
structure StringLiteral where
  value : String
  block : Bool
  span : Span
deriving DecidableEq

/-- A variable where a value may stand; the span covers the `$`. -/
structure VariableUse where
  name : Name
  span : Span
deriving DecidableEq

mutual

inductive Value where
  | var (use : VariableUse)
  | int (raw : String) (span : Span)
  | float (raw : String) (span : Span)
  | string (literal : StringLiteral)
  | boolean (value : Bool) (span : Span)
  | null (span : Span)
  | enum (value : String) (span : Span)
  | list (items : List Value) (span : Span)
  | object (fields : List ObjectField) (span : Span)

/-- `name: value` inside an input object. -/
structure ObjectField where
  name : Name
  value : Value
  span : Span

end

namespace Value

def span : Value → Span
  | var use => use.span
  | string literal => literal.span
  | int _ s | float _ s | boolean _ s | null s | enum _ s | list _ s | object _ s => s

/-- A short noun for messages. -/
def describe : Value → String
  | var _ => "a variable"
  | int .. => "an integer"
  | float .. => "a float"
  | string _ => "a string"
  | boolean .. => "a boolean"
  | null _ => "null"
  | enum .. => "an enum value"
  | list .. => "a list"
  | object .. => "an input object"

def isNull : Value → Bool
  | null _ => true
  | _ => false

mutual

/-- The variables anywhere inside a value, in source order. -/
def variableUses : Value → List VariableUse
  | var use => [use]
  | list items _ => listVariableUses items
  | object fields _ => fieldsVariableUses fields
  | _ => []

def listVariableUses : List Value → List VariableUse
  | [] => []
  | v :: vs => v.variableUses ++ listVariableUses vs

def fieldsVariableUses : List ObjectField → List VariableUse
  | [] => []
  | ⟨_, v, _⟩ :: fs => v.variableUses ++ fieldsVariableUses fs

end

end Value

structure Argument where
  name : Name
  value : Value
  span : Span

/-- A directive applied to some place, such as `@include(if: $flag)`. -/
structure Directive where
  name : Name
  arguments : List Argument
  span : Span

inductive TypeRef where
  | named (name : Name) (nullable : Bool) (span : Span)
  | list (element : TypeRef) (nullable : Bool) (span : Span)
deriving DecidableEq

namespace TypeRef

def span : TypeRef → Span
  | named _ _ s | list _ _ s => s

def nullable : TypeRef → Bool
  | named _ n _ | list _ n _ => n

/-- The name under all list brackets. -/
def innermost : TypeRef → Name
  | named name _ _ => name
  | list element _ _ => element.innermost

/-- Whether two references are the same but for their spans. -/
def equivalent : TypeRef → TypeRef → Bool
  | named a n _, named b m _ => n = m && a.value = b.value
  | list a n _, list b m _ => n = m && a.equivalent b
  | _, _ => false

def print : TypeRef → String
  | named name nullable _ => name.value ++ if nullable then "" else "!"
  | list element nullable _ => "[" ++ element.print ++ "]" ++ if nullable then "" else "!"

end TypeRef

end GraphQL
