import GraphQL.Syntax.Executable

/-!
# Node trees

A node tree shows a document in one uniform shape: every node has a kind, a span, and its fields in a fixed order.
Non-null types are nodes of their own here, which wrap a named type or a list type.
-/

namespace GraphQL

inductive NodeKind where
  | name
  | document
  | operationDefinition
  | variableDefinition
  | selectionSet
  | field
  | argument
  | fragmentSpread
  | inlineFragment
  | fragmentDefinition
  | variableName
  | intValue
  | floatValue
  | stringValue
  | booleanValue
  | nullValue
  | enumValue
  | listValue
  | objectValue
  | objectField
  | directive
  | namedType
  | listType
  | nonNullType
deriving DecidableEq

/-- The tag that names a kind of node. -/
def NodeKind.tag : NodeKind → String
  | name => "name"
  | document => "document"
  | operationDefinition => "operation_definition"
  | variableDefinition => "variable_definition"
  | selectionSet => "selection_set"
  | field => "field"
  | argument => "argument"
  | fragmentSpread => "fragment_spread"
  | inlineFragment => "inline_fragment"
  | fragmentDefinition => "fragment_definition"
  | variableName => "variable"
  | intValue => "int_value"
  | floatValue => "float_value"
  | stringValue => "string_value"
  | booleanValue => "boolean_value"
  | nullValue => "null_value"
  | enumValue => "enum_value"
  | listValue => "list_value"
  | objectValue => "object_value"
  | objectField => "object_field"
  | directive => "directive"
  | namedType => "named_type"
  | listType => "list_type"
  | nonNullType => "non_null_type"

mutual

structure Node where
  kind : NodeKind
  span : Span
  fields : List NodeField

structure NodeField where
  key : String
  content : NodeContent

inductive NodeContent where
  | absent
  | text (text : String)
  | flag (flag : Bool)
  | node (node : Node)
  | nodes (nodes : List Node)

end

namespace Node

/-- The keys of a node: that of its location, then those of its fields. -/
def keys (n : Node) : List String := "loc" :: n.fields.map (·.key)

mutual

/-- A node and all nodes under it, in the order of the fields. -/
def all : Node → List Node
  | ⟨kind, span, fields⟩ => ⟨kind, span, fields⟩ :: allOfFields fields

def allOfFields : List NodeField → List Node
  | [] => []
  | ⟨_, content⟩ :: rest => allOfContent content ++ allOfFields rest

def allOfContent : NodeContent → List Node
  | .node n => n.all
  | .nodes ns => allOfNodes ns
  | .absent | .text _ | .flag _ => []

def allOfNodes : List Node → List Node
  | [] => []
  | n :: ns => n.all ++ allOfNodes ns

end

end Node

/-- A node, or an absent one. -/
def NodeContent.ofOption : Option Node → NodeContent
  | some n => node n
  | none => absent

def Name.toNode (n : Name) : Node := ⟨.name, n.span, [⟨"value", .text n.value⟩]⟩

/-- A named type, at a span that leaves out the sign of a non-null type. -/
def Name.toTypeNode (n : Name) (span : Span) : Node := ⟨.namedType, span, [⟨"name", .node n.toNode⟩]⟩

/-- A type in the wrapper of non-null types, unless it is nullable. -/
def nullableNode (nullable : Bool) (span : Span) (inner : Node) : Node :=
  if nullable then inner else ⟨.nonNullType, span, [⟨"type", .node inner⟩]⟩

def TypeRef.toNode : TypeRef → Node
  | .named name nullable span => nullableNode nullable span (name.toTypeNode (if nullable then span else name.span))
  | .list element nullable span => nullableNode nullable span ⟨.listType, span, [⟨"type", .node element.toNode⟩]⟩

def VariableUse.toNode (u : VariableUse) : Node :=
  ⟨.variableName, u.span, [⟨"name", .node u.name.toNode⟩]⟩

mutual

def Value.toNode : Value → Node
  | .var use => use.toNode
  | .int raw span => ⟨.intValue, span, [⟨"value", .text raw⟩]⟩
  | .float raw span => ⟨.floatValue, span, [⟨"value", .text raw⟩]⟩
  | .string l => ⟨.stringValue, l.span, [⟨"value", .text l.value⟩, ⟨"block", .flag l.block⟩]⟩
  | .boolean b span => ⟨.booleanValue, span, [⟨"value", .flag b⟩]⟩
  | .null span => ⟨.nullValue, span, []⟩
  | .enum value span => ⟨.enumValue, span, [⟨"value", .text value⟩]⟩
  | .list items span => ⟨.listValue, span, [⟨"values", .nodes (Value.itemNodes items)⟩]⟩
  | .object fields span => ⟨.objectValue, span, [⟨"fields", .nodes (Value.fieldNodes fields)⟩]⟩

def Value.itemNodes : List Value → List Node
  | [] => []
  | v :: vs => v.toNode :: Value.itemNodes vs

def Value.fieldNodes : List ObjectField → List Node
  | [] => []
  | ⟨name, v, span⟩ :: fs =>
    ⟨.objectField, span, [⟨"name", .node name.toNode⟩, ⟨"value", .node v.toNode⟩]⟩ :: Value.fieldNodes fs

end

def Argument.toNode (a : Argument) : Node :=
  ⟨.argument, a.span, [⟨"name", .node a.name.toNode⟩, ⟨"value", .node a.value.toNode⟩]⟩

def Directive.toNode (d : Directive) : Node :=
  ⟨.directive, d.span, [⟨"name", .node d.name.toNode⟩, ⟨"arguments", .nodes (d.arguments.map (·.toNode))⟩]⟩

/-- The field that holds the directives of a node. -/
def directivesField (directives : List Directive) : NodeField := ⟨"directives", .nodes (directives.map (·.toNode))⟩

def TypeCondition.toNode (c : TypeCondition) : Node := c.typeName.toTypeNode c.typeName.span

def VariableDefinition.toNode (v : VariableDefinition) : Node :=
  ⟨.variableDefinition, v.span, [⟨"variable", .node (VariableUse.toNode ⟨v.name, v.variableSpan⟩)⟩,
    ⟨"type", .node v.type.toNode⟩, ⟨"default_value", .ofOption (v.defaultValue.map (·.toNode))⟩,
    directivesField v.directives]⟩

mutual

def SelectionSet.toNode : SelectionSet → Node
  | ⟨selections, span⟩ => ⟨.selectionSet, span, [⟨"selections", .nodes (selectionNodes selections)⟩]⟩

def selectionNodes : List Selection → List Node
  | [] => []
  | s :: rest => s.toNode :: selectionNodes rest

def Selection.toNode : Selection → Node
  | .field ⟨aliasName, name, arguments, directives, set, span⟩ =>
    ⟨.field, span, [directivesField directives, ⟨"alias", .ofOption (aliasName.map (·.toNode))⟩,
      ⟨"name", .node name.toNode⟩, ⟨"arguments", .nodes (arguments.map (·.toNode))⟩,
      ⟨"selection_set", match set with
        | some set => .node set.toNode
        | none => .absent⟩]⟩
  | .spread s => ⟨.fragmentSpread, s.span, [directivesField s.directives, ⟨"name", .node s.name.toNode⟩]⟩
  | .inline ⟨condition, directives, set, span⟩ =>
    ⟨.inlineFragment, span, [directivesField directives,
      ⟨"type_condition", .ofOption (condition.map (·.toNode))⟩, ⟨"selection_set", .node set.toNode⟩]⟩

end

def Operation.toNode (o : Operation) : Node :=
  ⟨.operationDefinition, o.span, [⟨"name", .ofOption (o.name.map (·.toNode))⟩, directivesField o.directives,
    ⟨"variable_definitions", .nodes (o.variableDefinitions.map (·.toNode))⟩,
    ⟨"selection_set", .node o.selectionSet.toNode⟩, ⟨"operation", .text o.kind.keyword⟩]⟩

/-- Fragments have no variables of their own, but their nodes have room for them. -/
def Fragment.toNode (f : Fragment) : Node :=
  ⟨.fragmentDefinition, f.span, [⟨"name", .node f.name.toNode⟩, directivesField f.directives,
    ⟨"variable_definitions", .absent⟩, ⟨"selection_set", .node f.selectionSet.toNode⟩,
    ⟨"type_condition", .node f.condition.toNode⟩]⟩

def Definition.toNode : Definition → Node
  | operation o => o.toNode
  | fragment f => f.toNode

def Document.toNode (d : Document) : Node :=
  ⟨.document, d.span, [⟨"definitions", .nodes (d.definitions.map (·.toNode))⟩]⟩

end GraphQL
