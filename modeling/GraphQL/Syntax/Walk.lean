import GraphQL.Syntax.Executable

/-!
# Walks over executable documents

Everything of one sort that a document holds, each thing before the things inside it and otherwise in source order.
-/

namespace GraphQL

namespace Value

mutual

/-- A value and the values inside it. -/
def all : Value → List Value
  | list items span => list items span :: allOfItems items
  | object fields span => object fields span :: allOfFields fields
  | v => [v]

def allOfItems : List Value → List Value
  | [] => []
  | v :: vs => v.all ++ allOfItems vs

def allOfFields : List ObjectField → List Value
  | [] => []
  | ⟨_, v, _⟩ :: fs => v.all ++ allOfFields fs

end

end Value

mutual

/-- All selections of a selection set, nested ones included. -/
def SelectionSet.allSelections : SelectionSet → List Selection
  | ⟨selections, _⟩ => allOfSelections selections

def allOfSelections : List Selection → List Selection
  | [] => []
  | s :: rest => s.allSelections ++ allOfSelections rest

/-- A selection and the selections nested in it. -/
def Selection.allSelections : Selection → List Selection
  | .field ⟨a, n, args, dirs, some set, span⟩ => .field ⟨a, n, args, dirs, some set, span⟩ :: set.allSelections
  | .field ⟨a, n, args, dirs, none, span⟩ => [.field ⟨a, n, args, dirs, none, span⟩]
  | .spread s => [.spread s]
  | .inline ⟨c, dirs, set, span⟩ => .inline ⟨c, dirs, set, span⟩ :: set.allSelections

end

def argumentValues (arguments : List Argument) : List Value := arguments.flatMap (·.value.all)

def directiveValues (directives : List Directive) : List Value := directives.flatMap (argumentValues ·.arguments)

/-- The values that a selection holds itself, not those of nested selections. -/
def Selection.ownValues : Selection → List Value
  | .field f => argumentValues f.arguments ++ directiveValues f.directives
  | .spread s => directiveValues s.directives
  | .inline i => directiveValues i.directives

def SelectionSet.values (set : SelectionSet) : List Value := set.allSelections.flatMap (·.ownValues)

def VariableDefinition.values (v : VariableDefinition) : List Value :=
  v.defaultValue.toList.flatMap (·.all) ++ directiveValues v.directives

namespace Definition

def selectionSet : Definition → SelectionSet
  | operation o => o.selectionSet
  | fragment f => f.selectionSet

def values : Definition → List Value
  | operation o => o.variableDefinitions.flatMap (·.values) ++ directiveValues o.directives ++ o.selectionSet.values
  | fragment f => directiveValues f.directives ++ f.selectionSet.values

def variableTypes : Definition → List TypeRef
  | operation o => o.variableDefinitions.map (·.type)
  | fragment _ => []

end Definition

namespace Document

def values (d : Document) : List Value := d.definitions.flatMap (·.values)

def selections (d : Document) : List Selection := d.definitions.flatMap (·.selectionSet.allSelections)

def variableTypes (d : Document) : List TypeRef := d.definitions.flatMap (·.variableTypes)

end Document

end GraphQL
