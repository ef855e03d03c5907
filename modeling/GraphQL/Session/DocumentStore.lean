import GraphQL.Diagnostic
import GraphQL.Grammar.Executable

/-!
# Stores of documents

A store keeps the executable documents of one session in the order of their registration, with the outcome of
parsing each one. Documents are only added; a handle names a store and a place in it, and is found in that store
alone.
-/

namespace GraphQL

/-- A document that has been registered. -/
structure StoredDocument where
  source : String
  path : Option String
  outcome : Except Diagnostic Document

/-- A name for a registered document. -/
structure Handle where
  store : Nat
  index : Nat
deriving DecidableEq

structure DocumentStore where
  id : Nat
  documents : List StoredDocument := []

/-- The document that a text holds, or the diagnostic of its syntax. -/
def Document.read (source : String) : Except Diagnostic Document :=
  (Document.parse source).mapError .ofParseError

namespace DocumentStore

/-- Registers a text, whether or not it parses. -/
def add (store : DocumentStore) (source : String) (path : Option String) : Handle × DocumentStore :=
  (⟨store.id, store.documents.length⟩,
    { store with documents := store.documents ++ [⟨source, path, Document.read source⟩] })

def find? (store : DocumentStore) (handle : Handle) : Option StoredDocument :=
  if handle.store = store.id then store.documents[handle.index]? else none

/-- The handles of all documents, in the order of registration. -/
def handles (store : DocumentStore) : List Handle :=
  (List.range store.documents.length).map fun index => ⟨store.id, index⟩

def size (store : DocumentStore) : Nat := store.documents.length

end DocumentStore

end GraphQL
