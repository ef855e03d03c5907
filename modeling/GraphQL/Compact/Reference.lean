import GraphQL.Compact.Document

/-!
# References inside a compact document

Everything in a compact document that points into its tables: the numbers of strings and definitions, and the
ranges of selection sets. A document is sound when none of them points outside, and a nested range starts after the
selection that owns it.
-/

namespace GraphQL.Compact

/-- Numbers above this one do not fit into 32 bits. -/
def maxWord : Nat := UInt32.size - 1

/-- Where a range ends; a sum that 32 bits do not hold counts as the largest number they hold. -/
def Range.stop (r : Range) : Nat := min maxWord (r.start + r.size)

inductive Reference where
  | word (number : Nat)
  | definition (definition : Definition)
  /-- A range that may not start before `least`, unless it is empty. -/
  | range (range : Range) (least : Nat)

/-- Why a byte string is not a compact document. -/
inductive DecodeError where
  | malformed
  | trailingBytes (count : Nat)
  | stringOutOfRange (number count : Nat)
  | selectionRangeOutOfRange (range : Range) (count : Nat)
  | definitionOutOfRange (definition : Definition) (count : Nat)
deriving DecidableEq

def DecodeError.message : DecodeError → String
  | malformed => "failed to decode compact document"
  | trailingBytes count => toString count ++ " unexpected trailing byte(s) after the encoded document"
  | stringOutOfRange number count =>
    "string id " ++ toString number ++ " is out of range: the document interns " ++ toString count ++ " string(s)"
  | selectionRangeOutOfRange range count =>
    "selection range " ++ toString range.start ++ ".." ++ toString range.stop ++
      " is out of range: the document holds " ++ toString count ++ " selection(s)"
  | definitionOutOfRange definition count =>
    let (kind, index) := match definition with
      | .operation index => ("operation", index)
      | .fragment index => ("fragment", index)
    kind ++ " index " ++ toString index ++ " is out of range: the document holds " ++ toString count

def Ident.reference (i : Ident) : Reference := .word i.word

mutual

def Value.references : Value → List Reference
  | .var name _ => [name.reference]
  | .int word _ | .float word _ | .string word _ | .enum word _ => [.word word]
  | .boolean .. | .null _ => []
  | .list items _ => Value.referencesOfItems items
  | .object fields _ => Value.referencesOfFields fields

def Value.referencesOfItems : List Value → List Reference
  | [] => []
  | v :: vs => v.references ++ Value.referencesOfItems vs

def Value.referencesOfFields : List ObjectField → List Reference
  | [] => []
  | ⟨name, v, _⟩ :: fs => name.reference :: v.references ++ Value.referencesOfFields fs

end

def referencesOfArguments (arguments : List Argument) : List Reference :=
  arguments.flatMap fun a => a.name.reference :: a.value.references

def referencesOfDirectives (directives : List Directive) : List Reference :=
  directives.flatMap fun d => d.name.reference :: referencesOfArguments d.arguments

def TypeRef.references : TypeRef → List Reference
  | .named name _ _ => [name.reference]
  | .list element _ _ => element.references

def VariableDefinition.references (v : VariableDefinition) : List Reference :=
  v.name.reference :: v.type.references ++ v.defaultValue.toList.flatMap (·.references) ++
    referencesOfDirectives v.directives

def Operation.references (o : Operation) : List Reference :=
  o.name.toList.map (·.reference) ++ o.variableDefinitions.flatMap (·.references) ++
    referencesOfDirectives o.directives ++ [.range o.selections 0]

def Fragment.references (f : Fragment) : List Reference :=
  f.name.reference :: f.condition.reference :: referencesOfDirectives f.directives ++ [.range f.selections 0]

/-- The references of the selection at the index. -/
def Selection.references (index : Nat) (s : Selection) : List Reference :=
  let own := match s with
    | .field f =>
      (f.aliasName.toList ++ [f.name]).map (·.reference) ++ referencesOfArguments f.arguments
    | .spread name _ _ => [name.reference]
    | .inline condition _ _ _ => condition.toList.map (·.reference)
  own ++ referencesOfDirectives s.directives ++ s.children.toList.map (.range · (index + 1))

def Document.references (d : Document) : List Reference :=
  d.definitions.map .definition ++ d.operations.flatMap (·.references) ++ d.fragments.flatMap (·.references) ++
    (d.selections.mapIdx Selection.references).flatten

/-- What is wrong with a reference of the document, if it points outside. -/
def Reference.error? (d : Document) : Reference → Option DecodeError
  | word number =>
    if number < d.strings.length then none else some (.stringOutOfRange number d.strings.length)
  | definition (.operation index) =>
    if index < d.operations.length then none else some (.definitionOutOfRange (.operation index) d.operations.length)
  | definition (.fragment index) =>
    if index < d.fragments.length then none else some (.definitionOutOfRange (.fragment index) d.fragments.length)
  | range r least =>
    if (r.start < least ∧ r.size ≠ 0) ∨ r.stop > d.selections.length ∨ r.start + r.size > maxWord then
      some (.selectionRangeOutOfRange r d.selections.length)
    else none

/-- The first reference that points outside. -/
def Document.referenceError? (d : Document) : Option DecodeError := d.references.findSome? (·.error? d)

end GraphQL.Compact
