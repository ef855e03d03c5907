import GraphQL.Grammar.Executable
import GraphQL.Proofs.Lexemes

/-!
# The terminals that a syntax tree is written with

A terminal is what the grammar sees of a token: its kind, and for a string the value in the place of the text.
`Document.terminals` writes a document out as terminals, and `Document.Fits` collects what the grammar asks for
beyond that: constructs that are not empty, words that are not reserved, constants without variables, and nesting
that is not too deep.
-/

namespace GraphQL

inductive Terminal where
  | plain (kind : Token.Kind)
  | string (value : String) (block : Bool)
deriving DecidableEq

/-- The terminal of a kind of token; a string that cannot be cooked stays as it is. -/
def Token.Kind.terminal : Token.Kind → Terminal
  | string raw => match Quoted.cook raw with
    | .ok value => .string value false
    | .error _ => .plain (string raw)
  | blockString raw => match Block.cook raw with
    | .ok value => .string value true
    | .error _ => .plain (blockString raw)
  | kind => .plain kind

def Token.terminal (t : Token) : Terminal := t.kind.terminal

namespace Terminal

def sign (p : Punctuator) : Terminal := plain (.punctuator p)

def word (w : String) : Terminal := plain (wordKind w)

/-- Terminals between two signs. -/
def between (opening close : Punctuator) (ts : List Terminal) : List Terminal :=
  sign opening :: (ts ++ [sign close])

/-- The terminals of some items between two signs, or nothing where there is no item. -/
def group {α : Type} (opening close : Punctuator) (g : α → List Terminal) (items : List α) : List Terminal :=
  if items = [] then [] else between opening close (items.flatMap g)

/-- A group of changed items is a group. -/
theorem group_map {α β : Type} (opening close : Punctuator) (g : β → List Terminal) (f : α → β) (items : List α) :
    group opening close g (items.map f) = group opening close (fun a => g (f a)) items := by
  simp [group, List.flatMap_map]

end Terminal

open Terminal

theorem terminal_wordKind (w : String) : (wordKind w).terminal = word w := by
  unfold wordKind word wordKind
  split
  · rfl
  · split
    · rfl
    · split <;> rfl

theorem terminal_of_sign {t : Token} {p : Punctuator} (h : t.kind = .punctuator p) : t.terminal = sign p := by
  rw [Token.terminal, h]
  rfl

/-- A terminal that is no string tells the kind of its token. -/
theorem Token.Kind.eq_of_terminal {kind kind' : Token.Kind} (h : kind.terminal = .plain kind') : kind = kind' := by
  unfold terminal at h
  split at h
  · split at h
    · cases h
    · simp_all
  · split at h
    · cases h
    · simp_all
  · simpa using h

theorem kind_of_terminal {t : Token} {kind : Token.Kind} (h : t.terminal = .plain kind) : t.kind = kind :=
  Token.Kind.eq_of_terminal h

/-- A terminal of a kind of token that the lexer reads from some text. -/
def Terminal.Genuine (t : Terminal) : Prop := ∃ kind : Token.Kind, kind.Genuine ∧ kind.terminal = t

def Name.terminals (n : Name) : List Terminal := [word n.value]

mutual

def Value.terminals : Value → List Terminal
  | .var use => sign .dollar :: use.name.terminals
  | .int raw _ => [.plain (.int raw)]
  | .float raw _ => [.plain (.float raw)]
  | .string l => [.string l.value l.block]
  | .boolean b _ => [word (if b then "true" else "false")]
  | .null _ => [word "null"]
  | .enum value _ => [word value]
  | .list items _ => between .openBracket .closeBracket (Value.itemTerminals items)
  | .object fields _ => between .openBrace .closeBrace (Value.fieldTerminals fields)

def Value.itemTerminals : List Value → List Terminal
  | [] => []
  | v :: vs => v.terminals ++ Value.itemTerminals vs

def Value.fieldTerminals : List ObjectField → List Terminal
  | [] => []
  | ⟨name, v, _⟩ :: fs => (name.terminals ++ sign .colon :: v.terminals) ++ Value.fieldTerminals fs

end

def ObjectField.terminals (f : ObjectField) : List Terminal := f.name.terminals ++ sign .colon :: f.value.terminals

theorem Value.itemTerminals_eq (items : List Value) : itemTerminals items = items.flatMap (·.terminals) := by
  induction items with
  | nil => rfl
  | cons v vs ih => rw [itemTerminals, List.flatMap_cons, ih]

theorem Value.fieldTerminals_eq (fields : List ObjectField) :
    fieldTerminals fields = fields.flatMap (·.terminals) := by
  induction fields with
  | nil => rfl
  | cons f fs ih =>
    obtain ⟨name, v, span⟩ := f
    rw [fieldTerminals, List.flatMap_cons, ih]
    rfl

/-- Every value takes a terminal. -/
theorem Value.terminals_ne_nil (v : Value) : v.terminals ≠ [] := by
  cases v <;> simp [terminals, between]

def Argument.terminals (a : Argument) : List Terminal := a.name.terminals ++ sign .colon :: a.value.terminals

def argumentTerminals (arguments : List Argument) : List Terminal :=
  group .openParen .closeParen Argument.terminals arguments

def Directive.terminals (d : Directive) : List Terminal :=
  sign .atSign :: (d.name.terminals ++ argumentTerminals d.arguments)

def directiveTerminals (directives : List Directive) : List Terminal := directives.flatMap (·.terminals)

/-- The sign of a type that is not nullable. -/
def bangTerminals (nullable : Bool) : List Terminal := if nullable then [] else [sign .bang]

def TypeRef.terminals : TypeRef → List Terminal
  | named name nullable _ => name.terminals ++ bangTerminals nullable
  | list element nullable _ =>
    between .openBracket .closeBracket element.terminals ++ bangTerminals nullable

/-- Whether a value nests at most `n` deep, writes no reserved word as an enum value, and holds variables only
where they are allowed. -/
def Value.Fits (vars : Bool) : Nat → Value → Prop
  | 0, _ => False
  | n + 1, v => match v with
    | .var _ => vars = true
    | .enum value _ => wordKind value = .name value
    | .list items _ => ∀ v ∈ items, v.Fits vars n
    | .object fields _ => ∀ f ∈ fields, f.value.Fits vars n
    | _ => True

def Argument.Fits (vars : Bool) (n : Nat) (a : Argument) : Prop := a.value.Fits vars n

def Directive.Fits (vars : Bool) (n : Nat) (d : Directive) : Prop := ∀ a ∈ d.arguments, a.Fits vars n

/-- Whether a type nests at most `n` deep. -/
def TypeRef.Fits : Nat → TypeRef → Prop
  | 0, _ => False
  | _ + 1, .named .. => True
  | n + 1, .list element _ _ => element.Fits n

/-! ### Selections -/

def TypeCondition.terminals (c : TypeCondition) : List Terminal := word "on" :: c.typeName.terminals

def conditionTerminals (condition : Option TypeCondition) : List Terminal :=
  condition.toList.flatMap (·.terminals)

/-- The alias of a field, with the colon after it. -/
def aliasTerminals (aliasName : Option Name) : List Terminal :=
  aliasName.toList.flatMap fun a => a.terminals ++ [sign .colon]

mutual

def SelectionSet.terminals : SelectionSet → List Terminal
  | ⟨selections, _⟩ => between .openBrace .closeBrace (selectionTerminals selections)

def selectionTerminals : List Selection → List Terminal
  | [] => []
  | s :: rest => s.terminals ++ selectionTerminals rest

def Selection.terminals : Selection → List Terminal
  | .field ⟨aliasName, name, arguments, directives, none, _⟩ =>
    aliasTerminals aliasName ++ name.terminals ++ argumentTerminals arguments ++ directiveTerminals directives
  | .field ⟨aliasName, name, arguments, directives, some set, _⟩ =>
    aliasTerminals aliasName ++ name.terminals ++ argumentTerminals arguments ++ directiveTerminals directives ++
      set.terminals
  | .spread s => sign .ellipsis :: (s.name.terminals ++ directiveTerminals s.directives)
  | .inline ⟨condition, directives, set, _⟩ =>
    sign .ellipsis :: (conditionTerminals condition ++ directiveTerminals directives ++ set.terminals)

end

private theorem selectionTerminals_eq (selections : List Selection) :
    selectionTerminals selections = selections.flatMap (·.terminals) := by
  induction selections with
  | nil => rfl
  | cons s rest ih => rw [selectionTerminals, List.flatMap_cons, ih]

/-- A selection set is written between braces, selection by selection. -/
theorem SelectionSet.terminals_eq (set : SelectionSet) :
    set.terminals = between .openBrace .closeBrace (set.selections.flatMap (·.terminals)) := by
  obtain ⟨selections, span⟩ := set
  rw [terminals, selectionTerminals_eq]

def Field.terminals (f : Field) : List Terminal :=
  aliasTerminals f.aliasName ++ f.name.terminals ++ argumentTerminals f.arguments ++
    directiveTerminals f.directives ++ f.selectionSet.toList.flatMap (·.terminals)

theorem Selection.terminals_field (f : Field) : (field f).terminals = f.terminals := by
  obtain ⟨_, _, _, _, set, _⟩ := f
  cases set <;> simp [Selection.terminals, Field.terminals]

/-- An inline fragment is written behind dots, its condition first. -/
theorem Selection.terminals_inline (i : InlineFragment) : (inline i).terminals =
    sign .ellipsis :: (conditionTerminals i.condition ++ directiveTerminals i.directives ++
      i.selectionSet.terminals) := by
  obtain ⟨_, _, _, _⟩ := i
  rfl

/-- Every selection takes a terminal. -/
theorem Selection.terminals_ne_nil (s : Selection) : s.terminals ≠ [] := by
  cases s with
  | field f => simp [terminals_field, Field.terminals, Name.terminals]
  | spread => simp [terminals]
  | inline => simp [terminals_inline]

theorem SelectionSet.terminals_ne_nil (set : SelectionSet) : set.terminals ≠ [] := by
  simp [terminals_eq, between]

/-- What is asked of a selection whose arguments nest at most `n` deep; `inner` is asked of a nested set. -/
def Selection.Fits (n : Nat) (inner : SelectionSet → Prop) : Selection → Prop
  | .field f => (∀ a ∈ f.arguments, a.Fits true n) ∧ (∀ d ∈ f.directives, d.Fits true n) ∧
      ∀ set ∈ f.selectionSet, inner set
  | .spread s => s.name.value ≠ "on" ∧ ∀ d ∈ s.directives, d.Fits true n
  | .inline i => (∀ d ∈ i.directives, d.Fits true n) ∧ inner i.selectionSet

/-- Whether a selection set nests at most `n` deep, values included, and has selections on every level. -/
def SelectionSet.Fits : Nat → SelectionSet → Prop
  | 0, _ => False
  | n + 1, set => set.selections ≠ [] ∧ ∀ s ∈ set.selections, s.Fits n (SelectionSet.Fits n)

def VariableDefinition.terminals (v : VariableDefinition) : List Terminal :=
  sign .dollar :: (v.name.terminals ++ sign .colon :: (v.type.terminals ++
    (v.defaultValue.toList.flatMap fun value => sign .equals :: value.terminals) ++
      directiveTerminals v.directives))

structure VariableDefinition.Fits (v : VariableDefinition) : Prop where
  type : v.type.Fits Parse.maxDepth
  defaultValue : ∀ value ∈ v.defaultValue, value.Fits false Parse.maxDepth
  directives : ∀ d ∈ v.directives, d.Fits false Parse.maxDepth

/-- What stands before the selection set of an operation. -/
def Operation.headTerminals (o : Operation) : List Terminal :=
  word o.kind.keyword :: (o.name.toList.flatMap (·.terminals) ++
    group .openParen .closeParen VariableDefinition.terminals o.variableDefinitions ++
      directiveTerminals o.directives)

def Operation.terminals (o : Operation) : List Terminal :=
  if o.shorthand then o.selectionSet.terminals else o.headTerminals ++ o.selectionSet.terminals

/-- Whether an operation may be written as its selection set alone. -/
def Operation.IsBare (o : Operation) : Prop :=
  o.kind = .query ∧ o.name = none ∧ o.variableDefinitions = [] ∧ o.directives = []

instance (o : Operation) : Decidable o.IsBare := inferInstanceAs (Decidable (_ ∧ _ ∧ _ ∧ _))

structure Operation.Fits (o : Operation) : Prop where
  variableDefinitions : ∀ v ∈ o.variableDefinitions, v.Fits
  directives : ∀ d ∈ o.directives, d.Fits true Parse.maxDepth
  selectionSet : o.selectionSet.Fits Parse.maxDepth
  shorthand : o.shorthand = true → o.IsBare

def Fragment.terminals (f : Fragment) : List Terminal :=
  word "fragment" :: (f.name.terminals ++ f.condition.terminals ++ directiveTerminals f.directives ++
    f.selectionSet.terminals)

structure Fragment.Fits (f : Fragment) : Prop where
  name : f.name.value ≠ "on"
  directives : ∀ d ∈ f.directives, d.Fits true Parse.maxDepth
  selectionSet : f.selectionSet.Fits Parse.maxDepth

namespace Definition

def terminals : Definition → List Terminal
  | operation o => o.terminals
  | fragment f => f.terminals

/-- Every definition takes a terminal. -/
theorem terminals_ne_nil (definition : Definition) : definition.terminals ≠ [] := by
  cases definition with
  | operation o =>
    simp only [terminals, Operation.terminals]
    split <;> simp [SelectionSet.terminals_ne_nil]
  | fragment => simp [terminals, Fragment.terminals]

def Fits : Definition → Prop
  | operation o => o.Fits
  | fragment f => f.Fits

end Definition

namespace Document

def terminals (d : Document) : List Terminal := d.definitions.flatMap (·.terminals)

structure Fits (d : Document) : Prop where
  nonempty : d.definitions ≠ []
  definitions : ∀ definition ∈ d.definitions, definition.Fits

end Document

end GraphQL
