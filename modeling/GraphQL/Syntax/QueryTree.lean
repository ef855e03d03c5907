import GraphQL.Syntax.Executable
import GraphQL.Syntax.Number

/-!
# Query trees

A query tree is the form of a document for engines that compute with machine numbers: integers of 32 bits and
doubles. Places are lines and columns from one on, non-null is a type of its own, the fields of an object are
sorted by name, and a field without a selection set has an empty one. Variables have no directives there, and
larger integers have no place, so that not every document has a query tree.
-/

namespace GraphQL.QueryTree

/-- A line and a column, both counted from one. -/
abbrev Place := Nat × Nat

inductive Value where
  | var (name : String)
  | int (value : Int)
  | float (value : Float)
  | string (value : String)
  | boolean (value : Bool)
  | null
  | enum (value : String)
  | list (items : List Value)
  | object (fields : List (String × Value))

inductive TypeRef where
  | named (name : String)
  | list (element : TypeRef)
  | nonNull (inner : TypeRef)
deriving DecidableEq

structure Directive where
  place : Place
  name : String
  arguments : List (String × Value)

structure VariableDefinition where
  place : Place
  name : String
  type : TypeRef
  defaultValue : Option Value

mutual

structure SelectionSet where
  first : Place
  last : Place
  items : List Selection

inductive Selection where
  | field (place : Place) (aliasName : Option String) (name : String) (arguments : List (String × Value))
      (directives : List Directive) (set : SelectionSet)
  | spread (place : Place) (name : String) (directives : List Directive)
  | inline (place : Place) (condition : Option String) (directives : List Directive) (set : SelectionSet)

end

inductive Definition where
  | bare (set : SelectionSet)
  | operation (kind : OperationKind) (place : Place) (name : Option String)
      (variableDefinitions : List VariableDefinition) (directives : List Directive) (set : SelectionSet)
  | fragment (place : Place) (name : String) (condition : String) (directives : List Directive) (set : SelectionSet)

/-- What a query tree has no room for. -/
inductive Misfit where
  | variableDirectives (name : String) (span : Span)
  | intOutOfRange (raw : String) (span : Span)
deriving DecidableEq

namespace Misfit

def message : Misfit → String
  | variableDirectives name _ => "variable `$" ++ name ++ "` has directives, which graphql_parser cannot represent"
  | intOutOfRange raw _ =>
    "integer `" ++ raw ++ "` does not fit the 32-bit integers graphql_parser can represent"

def span : Misfit → Span
  | variableDirectives _ s | intOutOfRange _ s => s

end Misfit

/-- Puts a field at its place among fields sorted by name, where it replaces one of its name. -/
def insertField {α : Type} (name : String) (a : α) : List (String × α) → List (String × α)
  | [] => [(name, a)]
  | (other, b) :: rest =>
    if name = other then (name, a) :: rest
    else if name < other then (name, a) :: (other, b) :: rest
    else (other, b) :: insertField name a rest

/-- Sorts fields by name; of fields with one name the last stays. -/
def sortFields {α : Type} (fields : List (String × α)) : List (String × α) :=
  fields.foldl (fun sorted (name, a) => insertField name a sorted) []

mutual

def value : GraphQL.Value → Except Misfit Value
  | .var use => return .var use.name.value
  | .int raw span =>
    match Number.int32OfLiteral? raw with
    | some n => return .int n
    | none => throw (.intOutOfRange raw span)
  | .float raw _ => return .float (Number.floatOfLiteral raw)
  | .string literal => return .string literal.value
  | .boolean b _ => return .boolean b
  | .null _ => return .null
  | .enum value _ => return .enum value
  | .list items _ => return .list (← valueItems items)
  | .object fields _ => return .object (sortFields (← valueFields fields))

def valueItems : List GraphQL.Value → Except Misfit (List Value)
  | [] => return []
  | v :: vs => return (← value v) :: (← valueItems vs)

def valueFields : List GraphQL.ObjectField → Except Misfit (List (String × Value))
  | [] => return []
  | ⟨name, v, _⟩ :: fs => return (name.value, ← value v) :: (← valueFields fs)

end

def nullable (isNullable : Bool) (inner : TypeRef) : TypeRef := if isNullable then inner else .nonNull inner

def typeRef : GraphQL.TypeRef → TypeRef
  | .named name isNullable _ => nullable isNullable (.named name.value)
  | .list element isNullable _ => nullable isNullable (.list (typeRef element))

def startOf (s : Span) : Place := s.first.lineColumn

def arguments (as : List GraphQL.Argument) : Except Misfit (List (String × Value)) :=
  as.mapM fun a => return (a.name.value, ← value a.value)

def directives (ds : List GraphQL.Directive) : Except Misfit (List Directive) :=
  ds.mapM fun d => return ⟨startOf d.span, d.name.value, ← arguments d.arguments⟩

mutual

def selectionSet : GraphQL.SelectionSet → Except Misfit SelectionSet
  | ⟨items, span⟩ => return ⟨startOf span, span.stop.lineColumn, ← selections items⟩

def selections : List GraphQL.Selection → Except Misfit (List Selection)
  | [] => return []
  | s :: rest => return (← selection s) :: (← selections rest)

def selection : GraphQL.Selection → Except Misfit Selection
  | .field ⟨aliasName, name, args, dirs, set, span⟩ => do
    let args ← arguments args
    let dirs ← directives dirs
    let set ← match set with
      | some set => selectionSet set
      | none => pure ⟨startOf span, startOf span, []⟩
    return .field (startOf span) (aliasName.map (·.value)) name.value args dirs set
  | .spread s => return .spread (startOf s.span) s.name.value (← directives s.directives)
  | .inline ⟨condition, dirs, set, span⟩ => do
    let dirs ← directives dirs
    return .inline (startOf span) (condition.map (·.typeName.value)) dirs (← selectionSet set)

end

def variableDefinition (v : GraphQL.VariableDefinition) : Except Misfit VariableDefinition := do
  if !v.directives.isEmpty then throw (.variableDirectives v.name.value v.span)
  return ⟨startOf v.span, v.name.value, typeRef v.type, ← v.defaultValue.mapM value⟩

def operation (o : Operation) : Except Misfit Definition := do
  let set ← selectionSet o.selectionSet
  if o.kind = .query && o.name.isNone && o.variableDefinitions.isEmpty && o.directives.isEmpty then return .bare set
  let definitions ← o.variableDefinitions.mapM variableDefinition
  let dirs ← directives o.directives
  return .operation o.kind (startOf o.span) (o.name.map (·.value)) definitions dirs set

def fragment (f : Fragment) : Except Misfit Definition := do
  let dirs ← directives f.directives
  return .fragment (startOf f.span) f.name.value f.condition.typeName.value dirs (← selectionSet f.selectionSet)

def definition : GraphQL.Definition → Except Misfit Definition
  | .operation o => operation o
  | .fragment f => fragment f

end GraphQL.QueryTree

namespace GraphQL

/-- The query tree of a document, or the first thing that it has no room for. -/
def Document.toQueryTree (d : Document) : Except QueryTree.Misfit (List QueryTree.Definition) :=
  d.definitions.mapM QueryTree.definition

end GraphQL
