import GraphQL.Source.Span

/-!
# Notes

A note is a line of context under an error's message, with a second place in the source if it speaks of one.
-/

namespace GraphQL

inductive Note.Kind where
  | general
  | help
  /-- A link into the language's specification. -/
  | spec
deriving DecidableEq

/-- The word that introduces a note of the kind. -/
def Note.Kind.label : Note.Kind → String
  | .general => "note"
  | .help => "help"
  | .spec => "spec"

structure Note where
  kind : Note.Kind
  message : String
  span : Option Span := none
deriving DecidableEq

end GraphQL
