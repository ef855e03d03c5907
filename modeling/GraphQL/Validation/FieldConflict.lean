import Std.Data.TreeMap
import GraphQL.Diagnostic
import GraphQL.Syntax.Equality
import GraphQL.Syntax.Walk
import GraphQL.Validation.Expansion

/-!
# Conflicts between fields

Fields that answer under one key of a selection set, fragments opened, must be able to share it: they are the same
field with the same arguments, unless their parents are different object types, and the shapes of their results
agree. The comparison goes down into their selection sets. A pair of fields is compared at most twice over the
whole document: with parents that exclude each other, and without.
-/

namespace GraphQL

/-- Why two fields cannot share a response key. -/
inductive FieldConflict where
  | fields (a b : String)
  | arguments
  | types (a b : TypeRef)
  | subfields (key : String) (reason : FieldConflict)

def FieldConflict.message : FieldConflict → String
  | fields a b => quote a ++ " and " ++ quote b ++ " are different fields"
  | arguments => "they have differing arguments"
  | types a b => "they return conflicting types " ++ quote a.print ++ " and " ++ quote b.print
  | subfields key reason => "subfields " ++ quote key ++ " conflict because " ++ reason.message

namespace PlacedField

def key (p : PlacedField) : String := p.field.responseKey

/-- Where a field begins, which tells it from all other fields of its document. -/
def offset (p : PlacedField) : Nat := p.field.span.first.offset

/-- Whether the parents of two fields are known to be different object types. -/
def parentsDiffer (a b : PlacedField) : Bool :=
  match a.parent, b.parent with
  | some p, some q => p.name.value ≠ q.name.value && p.kind = .object && q.kind = .object
  | _, _ => false

end PlacedField

/-- Whether results of the two types cannot stand under one key. Brackets and null must agree, and leaves must be
of one type; composite types are told apart by their fields. -/
def typesConflict (s : Schema) : TypeRef → TypeRef → Bool
  | .list a n _, .list b m _ => n ≠ m || typesConflict s a b
  | .named a n _, .named b m _ => n ≠ m || (a.value ≠ b.value && (isLeaf a || isLeaf b))
  | _, _ => true
where
  isLeaf (name : Name) : Bool := (s.type? name.value).any (·.kind.isLeaf)

/-- A conflict between two fields that shows without a look at their selection sets. -/
def ownConflict? (s : Schema) (exclusive : Bool) (a b : PlacedField) : Option FieldConflict :=
  if !exclusive && a.field.name.value ≠ b.field.name.value then
    some (.fields a.field.name.value b.field.name.value)
  else if !exclusive && !argumentsEqual a.field.arguments b.field.arguments then some .arguments
  else match a.definition, b.definition with
    | some f, some g => if typesConflict s f.type g.type then some (.types f.type g.type) else none
    | _, _ => none

/-- Two fields with the key that they share. -/
structure FieldPair where
  key : String
  left : PlacedField
  right : PlacedField

/-- The response keys of some fields, in the order of their first fields. -/
def responseKeys (fields : List PlacedField) : List String := (fields.map (·.key)).eraseDups

/-- The pairs of distinct entries of a list, in order. -/
def orderedPairs {α : Type} : List α → List (α × α)
  | [] => []
  | x :: xs => xs.map (x, ·) ++ orderedPairs xs

/-- The pairs within one selection set. -/
def pairsWithin (fields : List PlacedField) : List FieldPair :=
  (responseKeys fields).flatMap fun key =>
    (orderedPairs (fields.filter (·.key = key))).map fun (a, b) => ⟨key, a, b⟩

/-- The pairs between two selection sets. -/
def pairsBetween (as bs : List PlacedField) : List FieldPair :=
  (responseKeys as).flatMap fun key =>
    let rights := bs.filter (·.key = key)
    (as.filter (·.key = key)).flatMap fun a => rights.map fun b => ⟨key, a, b⟩

def PlacedField.topFields (s : Schema) (d : Document) (p : PlacedField) (set : SelectionSet) : List PlacedField :=
  s.topFields d (s.resultType? p.definition) set

/-- The pairs of fields selected on the results of two fields. -/
def subPairs (s : Schema) (d : Document) (a b : PlacedField) : List FieldPair :=
  match a.field.selectionSet, b.field.selectionSet with
  | some x, some y => pairsBetween (a.topFields s d x) (b.topFields s d y)
  | _, _ => []

/-- Pairs of places are ordered by their first places, and then by their second. -/
def placeOrder (p q : Nat × Nat) : Ordering := (compare p.1 q.1).then (compare p.2 q.2)

instance : Std.TransCmp placeOrder :=
  inferInstanceAs (Std.TransCmp (compareLex (compareOn Prod.fst) (compareOn Prod.snd)))

theorem placeOrder_eq_iff (p q : Nat × Nat) : placeOrder p q = .eq ↔ p = q := by
  simp only [placeOrder, Ordering.then_eq_eq, Nat.compare_eq_eq, Prod.ext_iff]

/-- The pairs compared so far, by the places of their fields, and whether their parents excluded each other when
they were compared last. -/
abbrev Compared := Std.TreeMap (Nat × Nat) Bool placeOrder

namespace Compared

def place (a b : PlacedField) : Nat × Nat := (min a.offset b.offset, max a.offset b.offset)

/-- Whether a comparison would repeat one that was at least as strict. -/
def covers (compared : Compared) (exclusive : Bool) (a b : PlacedField) : Bool :=
  match compared[place a b]? with
  | some before => !before || exclusive
  | none => false

def record (compared : Compared) (exclusive : Bool) (a b : PlacedField) : Compared :=
  compared.insert (place a b) exclusive

theorem getElem?_record (compared : Compared) (exclusive : Bool) (a b : PlacedField) (p : Nat × Nat) :
    (compared.record exclusive a b)[p]? = if place a b = p then some exclusive else compared[p]? := by
  simp only [record, Std.TreeMap.getElem?_insert, placeOrder_eq_iff]

end Compared

/-- The first pair with a conflict. -/
def firstConflict (check : PlacedField → PlacedField → Compared → Option FieldConflict × Compared) :
    List FieldPair → Compared → Option FieldConflict × Compared
  | [], compared => (none, compared)
  | p :: ps, compared =>
    match check p.left p.right compared with
    | (some reason, compared) => (some (.subfields p.key reason), compared)
    | (none, compared) => firstConflict check ps compared

/-- The conflict between two fields, if there is one that no comparison before has covered; the comparison goes
down at most `depth` levels. -/
def findConflict (s : Schema) (d : Document) : Nat → Bool → PlacedField → PlacedField → Compared →
    Option FieldConflict × Compared
  | 0, _, _, _, compared => (none, compared)
  | depth + 1, exclusive, a, b, compared =>
    if a.offset = b.offset || compared.covers exclusive a b then (none, compared)
    else
      let compared := compared.record exclusive a b
      let exclusive := exclusive || a.parentsDiffer b
      match ownConflict? s exclusive a b with
      | some reason => (some reason, compared)
      | none => firstConflict (findConflict s d depth exclusive) (subPairs s d a b) compared

/-- A bound for the depth of comparisons: each level records a pair of fields that was not recorded in that way,
and there are two ways. -/
def comparisonDepth (d : Document) : Nat :=
  let fields := (d.selections.filter fun | .field _ => true | _ => false).length
  fields * fields + 1

/-- The pairs with a conflict, each with its reason. -/
def conflictsAmong (check : PlacedField → PlacedField → Compared → Option FieldConflict × Compared) :
    List FieldPair → Compared → List (FieldPair × FieldConflict)
  | [], _ => []
  | p :: ps, compared =>
    match check p.left p.right compared with
    | (some reason, compared) => (p, reason) :: conflictsAmong check ps compared
    | (none, compared) => conflictsAmong check ps compared

/-- The pairs within the selection sets of a document, set by set. -/
def documentPairs (s : Schema) (d : Document) : List FieldPair :=
  (s.visits d).flatMap fun
    | .selectionSet parent set => pairsWithin (s.topFields d parent set)
    | _ => []

def fieldMerging (s : Schema) (d : Document) : List Diagnostic :=
  let check := findConflict s d (comparisonDepth d) false
  (conflictsAmong check (documentPairs s d) ∅).map fun (p, reason) =>
    Rule.fieldMerging.finding
      ("Fields " ++ quote p.key ++ " conflict because " ++ reason.message ++
        ". Use different aliases on the fields to fetch both if this was intentional.")
      [p.left.field.span, p.right.field.span]

end GraphQL
