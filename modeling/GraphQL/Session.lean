import GraphQL.Compact.Build
import GraphQL.Schema.Build
import GraphQL.Session.DocumentStore
import GraphQL.Syntax.Node
import GraphQL.Validation.Validator

/-!
# Sessions

A session has one schema at a time, the documents that are checked against it, and a validator. Setting a schema
takes the place of the one before even where it fails. Sessions of one workspace have different document stores, so
that no handle is valid in two of them.
-/

namespace GraphQL

/-- The schema of a session. -/
inductive SchemaState where
  | unset
  | built (schema : Schema)
  /-- The last attempt to set a schema failed. -/
  | failed (diagnostics : List Diagnostic)

structure Session where
  schemaState : SchemaState := .unset
  store : DocumentStore
  validator : Validator

/-- Why a session cannot answer. -/
inductive SessionError where
  | noSchema
  | documentNotFound (handle : Handle)
  | unparsedDocument (diagnostic : Diagnostic)

def SessionError.message : SessionError → String
  | noSchema => "no schema has been set on this session"
  | documentNotFound handle =>
    "no document is registered as file #" ++ toString handle.store ++ "." ++ toString handle.index
  | unparsedDocument diagnostic =>
    "document cannot be bridged because it failed to parse: " ++ diagnostic.text

namespace Session

/-- Sets the schema that a text holds; an error discards the schema before. -/
def setSchema (s : Session) (source : String) : Option SchemaError × Session :=
  match Schema.ofTexts [source] with
  | .ok schema => (none, { s with schemaState := .built schema })
  | .error e => (some e, { s with schemaState := .failed e.diagnostics })

def schema? (s : Session) : Option Schema :=
  match s.schemaState with
  | .built schema => some schema
  | _ => none

/-- What is wrong with the schema itself. -/
def schemaDiagnostics (s : Session) : List Diagnostic :=
  match s.schemaState with
  | .unset => [Rule.missingSchema.finding "no schema has been set" []]
  | .built _ => []
  | .failed diagnostics => diagnostics

def add (s : Session) (source : String) (path : Option String) : Handle × Session :=
  let (handle, store) := s.store.add source path
  (handle, { s with store })

def document (s : Session) (handle : Handle) : Except SessionError StoredDocument :=
  match s.store.find? handle with
  | some stored => .ok stored
  | none => .error (.documentNotFound handle)

def validateDocument (s : Session) (d : Document) : Except SessionError (List Diagnostic) :=
  match s.schema? with
  | some schema => .ok (s.validator.validate schema d)
  | none => .error .noSchema

/-- Validates a registered document; one that does not parse has the diagnostic of its syntax, with or without a
schema. -/
def validateFile (s : Session) (handle : Handle) : Except SessionError (List Diagnostic) := do
  match (← s.document handle).outcome with
  | .ok d => s.validateDocument d
  | .error diagnostic => return [diagnostic]

/-- Registers a text and validates it. -/
def addAndValidate (s : Session) (source : String) : Except SessionError (Handle × List Diagnostic) × Session :=
  let (handle, s) := s.add source none
  ((s.validateFile handle).map (handle, ·), s)

/-- The parsed document of a handle. -/
def parsed (s : Session) (handle : Handle) : Except SessionError Document := do
  (← s.document handle).outcome.mapError .unparsedDocument

def compact (s : Session) (handle : Handle) : Except SessionError Compact.Document :=
  .ofDocument <$> s.parsed handle

def node (s : Session) (handle : Handle) : Except SessionError Node := Document.toNode <$> s.parsed handle

end Session

/-- The sessions opened so far; a session is known by its place. -/
structure Workspace where
  sessions : List Session := []

namespace Workspace

/-- Opens a session, with a store of its own. -/
def newSession (w : Workspace) (validator : Validator) : Nat × Workspace :=
  let place := w.sessions.length
  (place, ⟨w.sessions ++ [{ store := { id := place }, validator }]⟩)

def session? (w : Workspace) (place : Nat) : Option Session := w.sessions[place]?

def update (w : Workspace) (place : Nat) (s : Session) : Workspace := ⟨w.sessions.set place s⟩

end Workspace

end GraphQL
