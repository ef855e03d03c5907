import GraphQL.Schema.Basic

/-!
# Visits

A visit is one thing that a walk over a document comes to, with the type it stands on where the schema tells it.
The walk goes through every definition once, in source order, and does not follow fragment spreads.
-/

namespace GraphQL

inductive Visit where
  | operation (operation : Operation)
  | fragment (fragment : Fragment)
  | variable (definition : VariableDefinition)
  | selectionSet (parent : Option TypeDefinition) (set : SelectionSet)
  | field (parent : Option TypeDefinition) (field : Field) (definition : Option FieldDefinition)
  | spread (parent : Option TypeDefinition) (spread : FragmentSpread)
  | inline (parent : Option TypeDefinition) (fragment : InlineFragment)
  | directives (place : DirectiveLocation) (directives : List Directive)

/-- The place of a directive on an operation of the kind. -/
def OperationKind.location : OperationKind → DirectiveLocation
  | query => .query
  | mutation => .mutation
  | subscription => .subscription

namespace Schema

/-- The field that a selection on `parent` means, where both are known. -/
def fieldOn? (s : Schema) (parent : Option TypeDefinition) (name : String) : Option FieldDefinition :=
  parent.bind fun t => s.field? t.name.value name

/-- The type that the results of a field are of. -/
def resultType? (s : Schema) (definition : Option FieldDefinition) : Option TypeDefinition :=
  definition.bind fun f => s.type? f.type.innermost.value

def conditionType? (s : Schema) (condition : TypeCondition) : Option TypeDefinition :=
  s.type? condition.typeName.value

/-- The type inside an inline fragment: that of its condition, or else the one around it. -/
def inlineType? (s : Schema) (parent : Option TypeDefinition) : Option TypeCondition → Option TypeDefinition
  | some condition => s.conditionType? condition
  | none => parent

mutual

def visitSet (s : Schema) (parent : Option TypeDefinition) : SelectionSet → List Visit
  | ⟨selections, span⟩ => .selectionSet parent ⟨selections, span⟩ :: s.visitSelections parent selections

def visitSelections (s : Schema) (parent : Option TypeDefinition) : List Selection → List Visit
  | [] => []
  | selection :: rest => s.visitSelection parent selection ++ s.visitSelections parent rest

def visitSelection (s : Schema) (parent : Option TypeDefinition) : Selection → List Visit
  | .field ⟨aliasName, name, arguments, directives, none, span⟩ =>
    [.field parent ⟨aliasName, name, arguments, directives, none, span⟩ (s.fieldOn? parent name.value),
      .directives .field directives]
  | .field ⟨aliasName, name, arguments, directives, some set, span⟩ =>
    let definition := s.fieldOn? parent name.value
    .field parent ⟨aliasName, name, arguments, directives, some set, span⟩ definition ::
      .directives .field directives :: s.visitSet (s.resultType? definition) set
  | .spread spread => [.spread parent spread, .directives .fragmentSpread spread.directives]
  | .inline ⟨condition, directives, set, span⟩ =>
    .inline parent ⟨condition, directives, set, span⟩ :: .directives .inlineFragment directives ::
      s.visitSet (s.inlineType? parent condition) set

end

/-- The type that the selection set of a definition stands on. -/
def definitionType? (s : Schema) : Definition → Option TypeDefinition
  | .operation o => s.root? o.kind
  | .fragment f => s.conditionType? f.condition

def visitDefinition (s : Schema) : Definition → List Visit
  | .operation o =>
    .operation o ::
    (o.variableDefinitions.flatMap fun v => [.variable v, .directives .variableDefinition v.directives]) ++
    .directives o.kind.location o.directives :: s.visitSet (s.root? o.kind) o.selectionSet
  | .fragment f =>
    .fragment f :: .directives .fragmentDefinition f.directives ::
      s.visitSet (s.conditionType? f.condition) f.selectionSet

def visits (s : Schema) (d : Document) : List Visit := d.definitions.flatMap s.visitDefinition

end Schema

end GraphQL
