import GraphQL.Compact.Document

/-!
# The compact form of a document

The strings of a document are numbered in the order of their first use (`words`). The arena of selections holds the
selections of a set next to each other, then the sets nested in them, one after the other (`arena`).
-/

namespace GraphQL

mutual

def Value.words : Value → List String
  | .var use => [use.name.value]
  | .int raw _ | .float raw _ => [raw]
  | .string literal => [literal.value]
  | .enum value _ => [value]
  | .list items _ => Value.wordsOfItems items
  | .object fields _ => Value.wordsOfFields fields
  | .boolean .. | .null _ => []

def Value.wordsOfItems : List Value → List String
  | [] => []
  | v :: vs => v.words ++ Value.wordsOfItems vs

def Value.wordsOfFields : List ObjectField → List String
  | [] => []
  | ⟨name, v, _⟩ :: fs => name.value :: v.words ++ Value.wordsOfFields fs

end

def wordsOfArguments (arguments : List Argument) : List String :=
  arguments.flatMap fun a => a.name.value :: a.value.words

def wordsOfDirectives (directives : List Directive) : List String :=
  directives.flatMap fun d => d.name.value :: wordsOfArguments d.arguments

def VariableDefinition.words (v : VariableDefinition) : List String :=
  v.name.value :: v.type.innermost.value :: v.defaultValue.toList.flatMap (·.words) ++ wordsOfDirectives v.directives

/-- The words of a selection, without those of its nested selections. -/
def Selection.ownWords : Selection → List String
  | .field f => (f.aliasName.toList ++ [f.name]).map (·.value) ++ wordsOfArguments f.arguments ++
      wordsOfDirectives f.directives
  | .spread s => s.name.value :: wordsOfDirectives s.directives
  | .inline i => i.condition.toList.map (·.typeName.value) ++ wordsOfDirectives i.directives

mutual

/-- The words of a selection set: those of its selections, then those of the sets nested in them. -/
def SelectionSet.words : SelectionSet → List String
  | ⟨selections, _⟩ => selections.flatMap (·.ownWords) ++ nestedWords selections

def nestedWords : List Selection → List String
  | [] => []
  | s :: rest => s.nestedWords ++ nestedWords rest

def Selection.nestedWords : Selection → List String
  | .field ⟨_, _, _, _, some set, _⟩ => set.words
  | .field ⟨_, _, _, _, none, _⟩ => []
  | .spread _ => []
  | .inline ⟨_, _, set, _⟩ => set.words

end

def Definition.words : Definition → List String
  | .operation o => o.name.toList.map (·.value) ++ o.variableDefinitions.flatMap (·.words) ++
      wordsOfDirectives o.directives ++ o.selectionSet.words
  | .fragment f => f.name.value :: f.condition.typeName.value :: wordsOfDirectives f.directives ++ f.selectionSet.words

def Document.words (d : Document) : List String := d.definitions.flatMap (·.words)

mutual

/-- The number of selections in a set, nested ones included. -/
def SelectionSet.count : SelectionSet → Nat
  | ⟨selections, _⟩ => selections.length + nestedCount selections

def nestedCount : List Selection → Nat
  | [] => 0
  | s :: rest => s.nestedCount + nestedCount rest

/-- The number of selections nested in a selection. -/
def Selection.nestedCount : Selection → Nat
  | .field ⟨_, _, _, _, some set, _⟩ => set.count
  | .field ⟨_, _, _, _, none, _⟩ => 0
  | .spread _ => 0
  | .inline ⟨_, _, set, _⟩ => set.count

end

namespace Compact

/-- Keeps the first of equal strings. -/
def table (words : List String) : List String :=
  words.foldl (fun strings w => if w ∈ strings then strings else strings ++ [w]) []

/-- How words are numbered while a document is built. -/
abbrev Numbering := String → Nat

section
variable (number : Numbering)

def ident (n : Name) : Ident := ⟨number n.value, n.span⟩

mutual

def value : GraphQL.Value → Value
  | .var use => .var (ident number use.name) use.span
  | .int raw span => .int (number raw) span
  | .float raw span => .float (number raw) span
  | .string literal => .string (number literal.value) literal.span
  | .boolean b span => .boolean b span
  | .null span => .null span
  | .enum value span => .enum (number value) span
  | .list items span => .list (valueItems items) span
  | .object fields span => .object (valueFields fields) span

def valueItems : List GraphQL.Value → List Value
  | [] => []
  | v :: vs => value v :: valueItems vs

def valueFields : List GraphQL.ObjectField → List ObjectField
  | [] => []
  | ⟨name, v, span⟩ :: fs => ⟨ident number name, value v, span⟩ :: valueFields fs

end

def arguments (as : List GraphQL.Argument) : List Argument :=
  as.map fun a => ⟨ident number a.name, value number a.value, a.span⟩

def directives (ds : List GraphQL.Directive) : List Directive :=
  ds.map fun d => ⟨ident number d.name, arguments number d.arguments, d.span⟩

def typeRef : GraphQL.TypeRef → TypeRef
  | .named name nullable span => .named (ident number name) nullable span
  | .list element nullable span => .list (typeRef element) nullable span

def variableDefinition (v : GraphQL.VariableDefinition) : VariableDefinition where
  name := ident number v.name
  type := typeRef number v.type
  defaultValue := v.defaultValue.map (value number)
  directives := directives number v.directives
  span := v.span

/-- The range of a selection set whose selections start at `start`. -/
def rangeAt (start : Nat) (set : SelectionSet) : Range := ⟨start, set.selections.length⟩

/-- A selection whose nested selections start at `next`. -/
def selection (next : Nat) : GraphQL.Selection → Selection
  | .field f => .field ⟨f.aliasName.map (ident number), ident number f.name, arguments number f.arguments,
      directives number f.directives, f.selectionSet.map (rangeAt next), f.span⟩
  | .spread s => .spread (ident number s.name) (directives number s.directives) s.span
  | .inline i => .inline (i.condition.map (ident number ·.typeName)) (directives number i.directives)
      (rangeAt next i.selectionSet) i.span

/-- Selections next to each other, their nested selections one after the other from `next` on. -/
def siblings (next : Nat) : List GraphQL.Selection → List Selection
  | [] => []
  | s :: rest => selection number next s :: siblings (next + s.nestedCount) rest

mutual

/-- The part of the arena that a selection set takes up from `start` on. -/
def arena (start : Nat) : SelectionSet → List Selection
  | ⟨selections, _⟩ =>
    let next := start + selections.length
    siblings number next selections ++ nestedArena next selections

def nestedArena (next : Nat) : List GraphQL.Selection → List Selection
  | [] => []
  | s :: rest => selectionArena next s ++ nestedArena (next + s.nestedCount) rest

def selectionArena (next : Nat) : GraphQL.Selection → List Selection
  | .field ⟨_, _, _, _, some set, _⟩ => arena next set
  | .field ⟨_, _, _, _, none, _⟩ => []
  | .spread _ => []
  | .inline ⟨_, _, set, _⟩ => arena next set

end

def operation (start : Nat) (o : GraphQL.Operation) : Operation where
  kind := o.kind
  name := o.name.map (ident number)
  variableDefinitions := o.variableDefinitions.map (variableDefinition number)
  directives := directives number o.directives
  selections := rangeAt start o.selectionSet
  span := o.span

def fragment (start : Nat) (f : GraphQL.Fragment) : Fragment where
  name := ident number f.name
  condition := ident number f.condition.typeName
  directives := directives number f.directives
  selections := rangeAt start f.selectionSet
  span := f.span

/-- Adds a definition and its selections at the end of the arenas. -/
def addDefinition (d : Document) (definition : GraphQL.Definition) : Document :=
  let start := d.selections.length
  let d := { d with selections := d.selections ++ arena number start definition.selectionSet }
  match definition with
  | .operation o =>
    { d with definitions := d.definitions ++ [.operation d.operations.length],
             operations := d.operations ++ [operation number start o] }
  | .fragment f =>
    { d with definitions := d.definitions ++ [.fragment d.fragments.length],
             fragments := d.fragments ++ [fragment number start f] }

end

/-- The compact form of a document. -/
def Document.ofDocument (d : GraphQL.Document) : Document :=
  let strings := table d.words
  d.definitions.foldl (addDefinition strings.idxOf) ⟨strings, [], [], [], [], d.span⟩

end Compact

end GraphQL
