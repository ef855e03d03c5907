import GraphQL.Syntax.Value

/-!
# Executable documents

Operations and fragments, in source order. A bare selection set is an anonymous query with the flag `shorthand`.
-/

namespace GraphQL

inductive OperationKind where
  | query
  | mutation
  | subscription
deriving DecidableEq

namespace OperationKind

def all : List OperationKind := [query, mutation, subscription]

def keyword : OperationKind → String
  | query => "query"
  | mutation => "mutation"
  | subscription => "subscription"

def ofKeyword? (word : String) : Option OperationKind := all.find? (·.keyword = word)

end OperationKind

/-- `on Type` -/
structure TypeCondition where
  typeName : Name
  span : Span
deriving DecidableEq

/-- `$name: Type = default @directives`; the name leaves out the `$`, `variableSpan` covers it. -/
structure VariableDefinition where
  name : Name
  variableSpan : Span
  type : TypeRef
  defaultValue : Option Value
  directives : List Directive
  span : Span

/-- `...Name @directives` -/
structure FragmentSpread where
  name : Name
  directives : List Directive
  span : Span

mutual

inductive Selection where
  | field (field : Field)
  | spread (spread : FragmentSpread)
  | inline (fragment : InlineFragment)

structure Field where
  aliasName : Option Name
  name : Name
  arguments : List Argument
  directives : List Directive
  selectionSet : Option SelectionSet
  span : Span

/-- `... on Type @directives` with a selection set; the type condition is optional. -/
structure InlineFragment where
  condition : Option TypeCondition
  directives : List Directive
  selectionSet : SelectionSet
  span : Span

structure SelectionSet where
  selections : List Selection
  span : Span

end

structure Operation where
  kind : OperationKind
  name : Option Name
  variableDefinitions : List VariableDefinition
  directives : List Directive
  selectionSet : SelectionSet
  shorthand : Bool
  span : Span

structure Fragment where
  name : Name
  condition : TypeCondition
  directives : List Directive
  selectionSet : SelectionSet
  span : Span

inductive Definition where
  | operation (operation : Operation)
  | fragment (fragment : Fragment)

structure Document where
  definitions : List Definition
  span : Span

/-- The key under which a field answers: its alias, or else its name. -/
def Field.responseKey (f : Field) : String := (f.aliasName.getD f.name).value

/-- The first argument with the name. -/
def Field.argument? (f : Field) (name : String) : Option Argument := f.arguments.find? (·.name.value = name)

namespace Selection

def span : Selection → Span
  | field f => f.span
  | spread s => s.span
  | inline i => i.span

def directives : Selection → List Directive
  | field f => f.directives
  | spread s => s.directives
  | inline i => i.directives

/-- The selection set nested in a selection, if it has one. -/
def children : Selection → Option SelectionSet
  | field f => f.selectionSet
  | spread _ => none
  | inline i => some i.selectionSet

end Selection

def Definition.span : Definition → Span
  | operation o => o.span
  | fragment f => f.span

namespace Document

def operations (d : Document) : List Operation :=
  d.definitions.filterMap fun | .operation o => some o | .fragment _ => none

def fragments (d : Document) : List Fragment :=
  d.definitions.filterMap fun | .operation _ => none | .fragment f => some f

/-- The first fragment with the name. -/
def fragment? (d : Document) (name : String) : Option Fragment := d.fragments.find? (·.name.value = name)

end Document

end GraphQL
