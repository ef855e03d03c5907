import GraphQL.Session

/-!
# Runs of a workspace

What can be done with the sessions of a workspace, as data. A run performs one action after the other, and requests
to different sessions may alternate in any way. A session is named by the place that it got when it was opened.
-/

namespace GraphQL

/-- What can be asked of a session. Asking does not change it. -/
inductive Question where
  | schema
  | schemaDiagnostics
  | validator
  | parse (source : String)
  | document (handle : Handle)
  | validateDocument (document : Document)
  | validateFile (handle : Handle)
  | compact (handle : Handle)
  | node (handle : Handle)
  | handles
  | size

inductive Answer where
  | schema (schema : Option Schema)
  | diagnostics (diagnostics : List Diagnostic)
  | validator (validator : Validator)
  | parsed (outcome : Except Diagnostic Document)
  | document (outcome : Except SessionError StoredDocument)
  | findings (outcome : Except SessionError (List Diagnostic))
  | compact (outcome : Except SessionError Compact.Document)
  | node (outcome : Except SessionError Node)
  | handles (handles : List Handle)
  | size (size : Nat)

def Session.answer (s : Session) : Question → Answer
  | .schema => .schema s.schema?
  | .schemaDiagnostics => .diagnostics s.schemaDiagnostics
  | .validator => .validator s.validator
  | .parse source => .parsed (Document.read source)
  | .document handle => .document (s.document handle)
  | .validateDocument d => .findings (s.validateDocument d)
  | .validateFile handle => .findings (s.validateFile handle)
  | .compact handle => .compact (s.compact handle)
  | .node handle => .node (s.node handle)
  | .handles => .handles s.store.handles
  | .size => .size s.store.size

/-- What can be requested of a session. -/
inductive Request where
  | setSchema (source : String)
  | add (source : String) (path : Option String)
  | addAndValidate (source : String)
  | ask (question : Question)

inductive Response where
  | schemaSet (error : Option SchemaError)
  | added (handle : Handle)
  | validated (outcome : Except SessionError (Handle × List Diagnostic))
  | answer (answer : Answer)

def Session.perform (s : Session) : Request → Response × Session
  | .setSchema source =>
    let (error, s) := s.setSchema source
    (.schemaSet error, s)
  | .add source path =>
    let (handle, s) := s.add source path
    (.added handle, s)
  | .addAndValidate source =>
    let (outcome, s) := s.addAndValidate source
    (.validated outcome, s)
  | .ask question => (.answer (s.answer question), s)

/-- One step of a run: a session is opened, or something is requested of an open one. -/
inductive Action where
  | newSession (validator : Validator)
  | request (place : Nat) (request : Request)

inductive Outcome where
  | opened (place : Nat)
  | response (response : Response)

namespace Workspace

/-- Performs an action, unless it names a session that has not been opened. -/
def perform (w : Workspace) : Action → Option (Outcome × Workspace)
  | .newSession validator =>
    let (place, w) := w.newSession validator
    some (.opened place, w)
  | .request place request => do
    let (response, s) := (← w.session? place).perform request
    return (.response response, w.update place s)

def run (w : Workspace) : List Action → Option (List Outcome × Workspace)
  | [] => some ([], w)
  | action :: actions => do
    let (outcome, w) ← w.perform action
    let (outcomes, w) ← w.run actions
    return (outcome :: outcomes, w)

end Workspace

end GraphQL
