import GraphQL.Compact.Document
import GraphQL.Data.Executable

/-!
# Compact documents as plain data

Names and literals stay numbers of the table of strings.
-/

namespace GraphQL.Compact

instance : ToData Ident := ⟨fun i => .record [("value", data i.word), ("span", data i.span)]⟩

instance : ToData Range := ⟨fun r => .record [("start", data r.start), ("len", data r.size)]⟩

/-- A value of some shape, with its span beside it. -/
private def valueData (name : String) (content : Data) (span : Span) : Data :=
  .record [("kind", .shape name content), ("span", data span)]

mutual

def Value.toData : Value → Data
  | .var name s => valueData "Variable" (data name) s
  | .int w s => valueData "Int" (data w) s
  | .float w s => valueData "Float" (data w) s
  | .string w s => valueData "String" (data w) s
  | .boolean b s => valueData "Boolean" (data b) s
  | .null s => .record [("kind", data "Null"), ("span", data s)]
  | .enum w s => valueData "Enum" (data w) s
  | .list items s => valueData "List" (.list (Value.listToData items)) s
  | .object fields s => valueData "Object" (.list (Value.fieldsToData fields)) s

def Value.listToData : List Value → List Data
  | [] => []
  | v :: vs => v.toData :: Value.listToData vs

def Value.fieldsToData : List ObjectField → List Data
  | [] => []
  | ⟨name, v, s⟩ :: fs =>
    .record [("name", data name), ("value", v.toData), ("span", data s)] :: Value.fieldsToData fs

end

instance : ToData Value := ⟨Value.toData⟩

instance : ToData Argument where
  data a := .record [("name", data a.name), ("value", data a.value), ("span", data a.span)]

instance : ToData Directive where
  data d := .record [("name", data d.name), ("arguments", data d.arguments), ("span", data d.span)]

def TypeRef.toData : TypeRef → Data
  | .named name nullable s =>
    .shape "Named" (.record [("name", data name), ("nullable", data nullable), ("span", data s)])
  | .list element nullable s =>
    .shape "List" (.record [("element", element.toData), ("nullable", data nullable), ("span", data s)])

instance : ToData TypeRef := ⟨TypeRef.toData⟩

instance : ToData Selection where
  data
    | .field f => .shape "Field" (.record [("alias", data f.aliasName), ("name", data f.name),
        ("arguments", data f.arguments), ("directives", data f.directives), ("selections", data f.selections),
        ("span", data f.span)])
    | .spread name directives s => .shape "FragmentSpread" (.record [("name", data name),
        ("directives", data directives), ("span", data s)])
    | .inline condition directives range s => .shape "InlineFragment" (.record [("type_condition", data condition),
        ("directives", data directives), ("selections", data range), ("span", data s)])

instance : ToData VariableDefinition where
  data v := .record [("name", data v.name), ("var_type", data v.type), ("default_value", data v.defaultValue),
    ("directives", data v.directives), ("span", data v.span)]

instance : ToData Definition where
  data
    | .operation i => .shape "Operation" (data i)
    | .fragment i => .shape "Fragment" (data i)

instance : ToData Operation where
  data o := .record [("kind", data o.kind), ("name", data o.name), ("variable_definitions", data o.variableDefinitions),
    ("directives", data o.directives), ("selections", data o.selections), ("span", data o.span)]

instance : ToData Fragment where
  data f := .record [("name", data f.name), ("type_condition", data f.condition), ("directives", data f.directives),
    ("selections", data f.selections), ("span", data f.span)]

instance : ToData Document where
  data d := .record [("strings", data d.strings), ("definitions", data d.definitions),
    ("operations", data d.operations), ("fragments", data d.fragments), ("selections", data d.selections),
    ("span", data d.span)]

end GraphQL.Compact
