import GraphQL.StringLiteral.BlockPrint
import GraphQL.StringLiteral.Quoted
import GraphQL.Syntax.Executable
import GraphQL.Text.Units

/-!
# Printing executable documents

The canonical layout of a document: definitions apart by a blank line, each selection on its own line and indented
by two spaces per level, arguments on one line unless a field with its arguments is longer than 80 bytes. A
document is printed to characters first, which the lexer reads back.
-/

namespace GraphQL

namespace Layout

/-- Joins the parts that are not empty. -/
def join (separator : List Char) (parts : List (List Char)) : List Char :=
  separator.intercalate (parts.filter (· ≠ []))

/-- The text between two others, or nothing when it is empty. -/
def wrap (before text after : List Char) : List Char := if text = [] then [] else before ++ text ++ after

/-- Moves all lines of a text to the right by two spaces. -/
def indent (text : List Char) : List Char :=
  wrap [' ', ' '] (text.flatMap fun c => if c = '\n' then ['\n', ' ', ' '] else [c]) []

/-- Lines between braces. -/
def block (items : List (List Char)) : List Char := wrap ['{', '\n'] (indent (join ['\n'] items)) ['\n', '}']

def commaSpace : List Char := [',', ' ']

def parens (text : List Char) : List Char := wrap ['('] text [')']

end Layout

open Layout

def quotedText (value : String) : List Char := '"' :: Quoted.encode value.toList ++ ['"']

/-- A string in the form it was written in, if that form gives its value back. -/
def literalText (l : StringLiteral) : List Char :=
  if l.block then (Block.print? l.value.toList).getD (quotedText l.value) else quotedText l.value

mutual

/-- The text of a value, with strings written by `literal`. -/
def Value.text (literal : StringLiteral → List Char) : Value → List Char
  | .var use => '$' :: use.name.value.toList
  | .int raw _ | .float raw _ => raw.toList
  | .string l => literal l
  | .boolean b _ => (if b then "true" else "false").toList
  | .null _ => "null".toList
  | .enum value _ => value.toList
  | .list items _ => '[' :: commaSpace.intercalate (Value.itemTexts literal items) ++ [']']
  | .object fields _ => '{' :: commaSpace.intercalate (Value.fieldTexts literal fields) ++ ['}']

def Value.itemTexts (literal : StringLiteral → List Char) : List Value → List (List Char)
  | [] => []
  | v :: vs => v.text literal :: Value.itemTexts literal vs

def Value.fieldTexts (literal : StringLiteral → List Char) : List ObjectField → List (List Char)
  | [] => []
  | ⟨name, v, _⟩ :: fs => (name.value.toList ++ ':' :: ' ' :: v.text literal) :: Value.fieldTexts literal fs

end

/-- The text of a value on one line, with all strings quoted. -/
def Value.print (v : Value) : String := String.ofList (v.text fun l => quotedText l.value)

def Argument.text (a : Argument) : List Char := a.name.value.toList ++ ':' :: ' ' :: a.value.text literalText

def Directive.text (d : Directive) : List Char :=
  '@' :: d.name.value.toList ++ parens (join commaSpace (d.arguments.map (·.text)))

def directivesText (directives : List Directive) : List Char := join [' '] (directives.map (·.text))

def VariableDefinition.text (v : VariableDefinition) : List Char :=
  '$' :: v.name.value.toList ++ ':' :: ' ' :: v.type.print.toList ++
    wrap " = ".toList ((v.defaultValue.map (·.text literalText)).getD []) [] ++
    wrap [' '] (directivesText v.directives) []

/-- How many bytes a field with its arguments may take on one line. -/
def maxLineLength : Nat := 80

/-- A field's alias, name and arguments; one argument per line when they are too long for one line. -/
def Field.headText (aliasName : Option Name) (name : Name) (arguments : List Argument) : List Char :=
  let start := (aliasName.map fun a => a.value.toList ++ [':', ' ']).getD [] ++ name.value.toList
  let arguments := arguments.map (·.text)
  let line := start ++ parens (join commaSpace arguments)
  if utf8Length line > maxLineLength then
    start ++ wrap ['(', '\n'] (indent (join ['\n'] arguments)) ['\n', ')']
  else line

mutual

def SelectionSet.text : SelectionSet → List Char
  | ⟨selections, _⟩ => block (selectionTexts selections)

def selectionTexts : List Selection → List (List Char)
  | [] => []
  | s :: rest => s.text :: selectionTexts rest

def Selection.text : Selection → List Char
  | .field ⟨aliasName, name, arguments, directives, some set, _⟩ =>
    join [' '] [Field.headText aliasName name arguments, directivesText directives, set.text]
  | .field ⟨aliasName, name, arguments, directives, none, _⟩ =>
    join [' '] [Field.headText aliasName name arguments, directivesText directives]
  | .spread s => "...".toList ++ s.name.value.toList ++ wrap [' '] (directivesText s.directives) []
  | .inline ⟨condition, directives, set, _⟩ =>
    join [' '] ["...".toList, (condition.map fun c => "on ".toList ++ c.typeName.value.toList).getD [],
      directivesText directives, set.text]

end

/-- An anonymous query without variables and directives is printed as its bare selection set. -/
def Operation.text (o : Operation) : List Char :=
  let name := (o.name.map (·.value.toList)).getD []
  let definitions := parens (join commaSpace (o.variableDefinitions.map (·.text)))
  let start := join [' '] [o.kind.keyword.toList, name ++ definitions, directivesText o.directives]
  if start = "query".toList then o.selectionSet.text else start ++ ' ' :: o.selectionSet.text

def Fragment.text (f : Fragment) : List Char :=
  "fragment ".toList ++ f.name.value.toList ++ " on ".toList ++ f.condition.typeName.value.toList ++ [' '] ++
    wrap [] (directivesText f.directives) [' '] ++ f.selectionSet.text

def Definition.text : Definition → List Char
  | operation o => o.text
  | fragment f => f.text

namespace Document

def text (d : Document) : List Char := join ['\n', '\n'] (d.definitions.map (·.text))

/-- Prints a document in the canonical layout. -/
def print (d : Document) : String := String.ofList d.text

end Document

end GraphQL
