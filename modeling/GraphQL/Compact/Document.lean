import GraphQL.Syntax.Walk

/-!
# Compact documents

A compact document keeps each name and literal once in a table of strings and refers to it by number. Operations,
fragments and selections stand in three arenas; a selection set is a range of the arena of selections, and a nested
range starts after the selection that owns it. Block and shorthand flags are left out.
-/

namespace GraphQL.Compact

/-- A name by its number in the table of strings. -/
structure Ident where
  word : Nat
  span : Span
deriving DecidableEq

/-- The selections of one selection set: `size` entries of the arena from `start` on. -/
structure Range where
  start : Nat
  size : Nat
deriving DecidableEq

mutual

inductive Value where
  | var (name : Ident) (span : Span)
  | int (word : Nat) (span : Span)
  | float (word : Nat) (span : Span)
  | string (word : Nat) (span : Span)
  | boolean (value : Bool) (span : Span)
  | null (span : Span)
  | enum (word : Nat) (span : Span)
  | list (items : List Value) (span : Span)
  | object (fields : List ObjectField) (span : Span)

structure ObjectField where
  name : Ident
  value : Value
  span : Span

end

deriving instance BEq for Value, ObjectField

structure Argument where
  name : Ident
  value : Value
  span : Span
deriving BEq

structure Directive where
  name : Ident
  arguments : List Argument
  span : Span
deriving BEq

inductive TypeRef where
  | named (name : Ident) (nullable : Bool) (span : Span)
  | list (element : TypeRef) (nullable : Bool) (span : Span)
deriving DecidableEq

structure VariableDefinition where
  name : Ident
  type : TypeRef
  defaultValue : Option Value
  directives : List Directive
  span : Span
deriving BEq

structure Field where
  aliasName : Option Ident
  name : Ident
  arguments : List Argument
  directives : List Directive
  selections : Option Range
  span : Span
deriving BEq

inductive Selection where
  | field (field : Field)
  | spread (name : Ident) (directives : List Directive) (span : Span)
  | inline (condition : Option Ident) (directives : List Directive) (selections : Range) (span : Span)
deriving BEq

structure Operation where
  kind : OperationKind
  name : Option Ident
  variableDefinitions : List VariableDefinition
  directives : List Directive
  selections : Range
  span : Span
deriving BEq

structure Fragment where
  name : Ident
  condition : Ident
  directives : List Directive
  selections : Range
  span : Span
deriving BEq

/-- A definition by its number among the operations or the fragments. -/
inductive Definition where
  | operation (index : Nat)
  | fragment (index : Nat)
deriving DecidableEq

structure Document where
  strings : List String
  definitions : List Definition
  operations : List Operation
  fragments : List Fragment
  selections : List Selection
  span : Span
deriving BEq

def Value.span : Value → Span
  | .var _ s | .int _ s | .float _ s | .string _ s | .boolean _ s | .null s | .enum _ s | .list _ s | .object _ s => s

namespace Selection

def span : Selection → Span
  | field f => f.span
  | spread _ _ s | inline _ _ _ s => s

def directives : Selection → List Directive
  | field f => f.directives
  | spread _ ds _ | inline _ ds _ _ => ds

/-- The range of the nested selection set, if there is one. -/
def children : Selection → Option Range
  | field f => f.selections
  | spread .. => none
  | inline _ _ range _ => some range

end Selection

namespace Document

/-- The string with the number. -/
def string? (d : Document) (word : Nat) : Option String := d.strings[word]?

/-- The first fragment with the name. -/
def fragment? (d : Document) (name : String) : Option Fragment :=
  d.fragments.find? fun f => d.string? f.name.word = some name

/-- The selections of a range. -/
def selectionsIn (d : Document) (range : Range) : List Selection := (d.selections.drop range.start).take range.size

end Document

/-- The same node with its spans changed by a function. -/
def Ident.mapSpans (f : Span → Span) (i : Ident) : Ident := ⟨i.word, f i.span⟩

namespace Value

mutual

def mapSpans (f : Span → Span) : Value → Value
  | var name span => var (name.mapSpans f) (f span)
  | int word span => int word (f span)
  | float word span => float word (f span)
  | string word span => string word (f span)
  | boolean value span => boolean value (f span)
  | null span => null (f span)
  | enum word span => enum word (f span)
  | list items span => list (mapSpansItems f items) (f span)
  | object fields span => object (mapSpansFields f fields) (f span)

def mapSpansItems (f : Span → Span) : List Value → List Value
  | [] => []
  | v :: vs => v.mapSpans f :: mapSpansItems f vs

def mapSpansFields (f : Span → Span) : List ObjectField → List ObjectField
  | [] => []
  | ⟨name, v, span⟩ :: fs => ⟨name.mapSpans f, v.mapSpans f, f span⟩ :: mapSpansFields f fs

end

end Value

def Argument.mapSpans (f : Span → Span) (a : Argument) : Argument :=
  ⟨a.name.mapSpans f, a.value.mapSpans f, f a.span⟩

def Directive.mapSpans (f : Span → Span) (d : Directive) : Directive :=
  ⟨d.name.mapSpans f, d.arguments.map (·.mapSpans f), f d.span⟩

def TypeRef.mapSpans (f : Span → Span) : TypeRef → TypeRef
  | .named name nullable span => .named (name.mapSpans f) nullable (f span)
  | .list element nullable span => .list (element.mapSpans f) nullable (f span)

def VariableDefinition.mapSpans (f : Span → Span) (v : VariableDefinition) : VariableDefinition where
  name := v.name.mapSpans f
  type := v.type.mapSpans f
  defaultValue := v.defaultValue.map (·.mapSpans f)
  directives := v.directives.map (·.mapSpans f)
  span := f v.span

def Selection.mapSpans (f : Span → Span) : Selection → Selection
  | .field ⟨aliasName, name, arguments, directives, selections, span⟩ =>
    .field ⟨aliasName.map (·.mapSpans f), name.mapSpans f, arguments.map (·.mapSpans f),
      directives.map (·.mapSpans f), selections, f span⟩
  | .spread name directives span => .spread (name.mapSpans f) (directives.map (·.mapSpans f)) (f span)
  | .inline condition directives selections span =>
    .inline (condition.map (·.mapSpans f)) (directives.map (·.mapSpans f)) selections (f span)

def Operation.mapSpans (f : Span → Span) (o : Operation) : Operation where
  kind := o.kind
  name := o.name.map (·.mapSpans f)
  variableDefinitions := o.variableDefinitions.map (·.mapSpans f)
  directives := o.directives.map (·.mapSpans f)
  selections := o.selections
  span := f o.span

def Fragment.mapSpans (f : Span → Span) (g : Fragment) : Fragment where
  name := g.name.mapSpans f
  condition := g.condition.mapSpans f
  directives := g.directives.map (·.mapSpans f)
  selections := g.selections
  span := f g.span

namespace Document

def mapSpans (f : Span → Span) (d : Document) : Document where
  strings := d.strings
  definitions := d.definitions
  operations := d.operations.map (·.mapSpans f)
  fragments := d.fragments.map (·.mapSpans f)
  selections := d.selections.map (·.mapSpans f)
  span := f d.span

/-- Forgets all places, so that documents which differ in layout alone become equal. -/
def eraseSpans (d : Document) : Document := d.mapSpans fun _ => .nowhere

end Document

end GraphQL.Compact
