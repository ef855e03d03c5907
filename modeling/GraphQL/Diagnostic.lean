import GraphQL.ParseError
import GraphQL.Rule

/-!
# Diagnostics

A diagnostic says which rule is broken, and where. Its first span is the main place; further spans point at what
the main place is in conflict with. Lists of diagnostics are ordered by place, then by rule.
-/

namespace GraphQL

structure Diagnostic where
  rule : Rule
  message : String
  spans : List Span
  notes : List String := []
deriving DecidableEq

/-- A diagnostic without notes. -/
def Rule.finding (rule : Rule) (message : String) (spans : List Span) : Diagnostic := ⟨rule, message, spans, []⟩

/-- A name in the message of a diagnostic. -/
def quote (name : String) : String := "\"" ++ name ++ "\""

namespace Diagnostic

def ofParseError (e : ParseError) : Diagnostic where
  rule := .syntaxRule
  message := e.message
  spans := e.span :: e.notes.filterMap (·.span)
  notes := e.notes.map fun note => note.kind.label ++ ": " ++ note.message

/-- Line and column, from one, at which each span starts. -/
def locations (d : Diagnostic) : List (Nat × Nat) := d.spans.map (·.first.lineColumn)

/-- The diagnostic on one line. -/
def text (d : Diagnostic) : String :=
  let place := match d.locations with
    | (line, column) :: _ => toString line ++ ":" ++ toString column ++ ": "
    | [] => ""
  place ++ d.message ++ " [" ++ d.rule.id ++ "]"

/-- Where a diagnostic is listed: by the start of its main place, or at the start of the source if it has none. -/
def offset (d : Diagnostic) : Nat := (d.spans.head?.map (·.first.offset)).getD 0

/-- Whether `a` may be listed before `b`. -/
def precedes (a b : Diagnostic) : Bool :=
  a.offset < b.offset || (a.offset = b.offset && a.rule.rank ≤ b.rule.rank)

/-- The diagnostics in order; those of one place and rule keep the order in which they were found. -/
def sorted (ds : List Diagnostic) : List Diagnostic := ds.mergeSort precedes

theorem sorted_eq_nil_iff {ds : List Diagnostic} : sorted ds = [] ↔ ds = [] := by
  rw [← List.length_eq_zero_iff, sorted, List.length_mergeSort, List.length_eq_zero_iff]

end Diagnostic

end GraphQL
