import GraphQL.Data
import GraphQL.Syntax.Executable

/-!
# Executable documents as plain data

Every node is a record of its parts, spans included.
-/

namespace GraphQL

instance : ToData Name := ⟨fun n => .record [("value", data n.value), ("span", data n.span)]⟩

instance : ToData StringLiteral where
  data l := .record [("value", data l.value), ("block", data l.block), ("span", data l.span)]

instance : ToData VariableUse := ⟨fun v => .record [("name", data v.name), ("span", data v.span)]⟩

mutual

def Value.toData : Value → Data
  | .var use => .shape "Variable" (data use)
  | .int raw span => .shape "Int" (.record [("raw", data raw), ("span", data span)])
  | .float raw span => .shape "Float" (.record [("raw", data raw), ("span", data span)])
  | .string literal => .shape "String" (data literal)
  | .boolean b span => .shape "Boolean" (.record [("value", data b), ("span", data span)])
  | .null span => .shape "Null" (.record [("span", data span)])
  | .enum value span => .shape "Enum" (.record [("value", data value), ("span", data span)])
  | .list items span => .shape "List" (.record [("values", .list (Value.listToData items)), ("span", data span)])
  | .object fields span =>
    .shape "Object" (.record [("fields", .list (Value.fieldsToData fields)), ("span", data span)])

def Value.listToData : List Value → List Data
  | [] => []
  | v :: vs => v.toData :: Value.listToData vs

def Value.fieldsToData : List ObjectField → List Data
  | [] => []
  | ⟨name, v, span⟩ :: fs =>
    .record [("name", data name), ("value", v.toData), ("span", data span)] :: Value.fieldsToData fs

end

instance : ToData Value := ⟨Value.toData⟩

instance : ToData Argument where
  data a := .record [("name", data a.name), ("value", data a.value), ("span", data a.span)]

instance : ToData Directive where
  data d := .record [("name", data d.name), ("arguments", data d.arguments), ("span", data d.span)]

def TypeRef.toData : TypeRef → Data
  | .named name nullable span =>
    .shape "Named" (.record [("name", data name), ("nullable", data nullable), ("span", data span)])
  | .list element nullable span =>
    .shape "List" (.record [("element_type", element.toData), ("nullable", data nullable), ("span", data span)])

instance : ToData TypeRef := ⟨TypeRef.toData⟩

instance : ToData TypeCondition := ⟨fun c => .record [("named_type", data c.typeName), ("span", data c.span)]⟩

instance : ToData FragmentSpread where
  data s := .record [("name", data s.name), ("directives", data s.directives), ("span", data s.span)]

mutual

def SelectionSet.toData : SelectionSet → Data
  | ⟨selections, span⟩ => .record [("selections", .list (Selection.listToData selections)), ("span", data span)]

def Selection.listToData : List Selection → List Data
  | [] => []
  | s :: rest => s.toData :: Selection.listToData rest

def Selection.toData : Selection → Data
  | .field ⟨aliasName, name, arguments, directives, set, span⟩ =>
    .shape "Field" (.record [("alias", data aliasName), ("name", data name), ("arguments", data arguments),
      ("directives", data directives), ("selection_set", match set with | some set => set.toData | none => .null),
      ("span", data span)])
  | .spread s => .shape "FragmentSpread" (data s)
  | .inline ⟨condition, directives, set, span⟩ =>
    .shape "InlineFragment" (.record [("type_condition", data condition), ("directives", data directives),
      ("selection_set", set.toData), ("span", data span)])

end

instance : ToData SelectionSet := ⟨SelectionSet.toData⟩

instance : ToData OperationKind where
  data
    | .query => data "Query"
    | .mutation => data "Mutation"
    | .subscription => data "Subscription"

instance : ToData VariableDefinition where
  data v := .record [("variable", data v.name), ("variable_span", data v.variableSpan), ("var_type", data v.type),
    ("default_value", data v.defaultValue), ("directives", data v.directives), ("span", data v.span)]

instance : ToData Operation where
  data o := .record [("kind", data o.kind), ("name", data o.name), ("variable_definitions", data o.variableDefinitions),
    ("directives", data o.directives), ("selection_set", data o.selectionSet), ("shorthand", data o.shorthand),
    ("span", data o.span)]

instance : ToData Fragment where
  data f := .record [("name", data f.name), ("type_condition", data f.condition), ("directives", data f.directives),
    ("selection_set", data f.selectionSet), ("span", data f.span)]

instance : ToData Definition where
  data
    | .operation o => .shape "Operation" (data o)
    | .fragment f => .shape "Fragment" (data f)

instance : ToData Document := ⟨fun d => .record [("definitions", data d.definitions), ("span", data d.span)]⟩

end GraphQL
