import GraphQL.CommandLine.Arguments
import GraphQL.CommandLine.Files
import GraphQL.Session
import GraphQL.Syntax.Print
import GraphQL.Syntax.QueryTree

/-!
# Commands

`print` writes a document in its normal layout; `validate` checks documents against a schema. Either succeeds with
a text for the output, or fails with one for the error output.
-/

namespace GraphQL.CommandLine

inductive Outcome where
  | success (text : String)
  | failure (text : String)

def check : String := "✅"

def cross : String := "❌"

def failed (text : String) : Outcome := .failure (cross ++ " " ++ text)

/-- A diagnostic with the path of its file in front and its notes below. -/
def report (path : String) (d : Diagnostic) : String :=
  let sign := if d.spans.isEmpty then ": " else ":"
  path ++ sign ++ d.text ++ String.join (d.notes.map fun note => "\n    = " ++ note)

variable {m : Type → Type} [Monad m]

def runPrint (files : FileAccess m) (queryTree : Bool) (file : String) : m Outcome := do
  match ← files.read file with
  | .error e => return failed e.message
  | .ok source =>
    match Document.read source with
    | .error d => return failed (report file d)
    | .ok d =>
      match if queryTree then d.toQueryTree.map fun _ => () else .ok () with
      | .error misfit => return failed misfit.message
      | .ok () => return .success d.print

/-- An extension is given with or without dots in front. -/
def normalExtension (extension : String) : String := String.ofList (extension.toList.dropWhile (· = '.'))

/-- What there is at and below some paths, path by path. -/
def walkAll (files : FileAccess m) : List String → m (Except String (List (List Found)))
  | [] => return .ok []
  | path :: paths => do
    match ← files.walk path with
    | .error e => return .error ("IO error for operation on " ++ path ++ ": " ++ e.message ++ ": " ++ e.message)
    | .ok found => return (found :: ·) <$> (← walkAll files paths)

/-- The files to validate: those with one of the extensions or, if there are none, the only path if it is a file.
-/
def selectFiles (extensions : List String) (found : List (List Found)) : List String :=
  let extensions := extensions.map normalExtension
  let matching := found.flatten.filter fun f => f.isFile && (extension? f.path).any (· ∈ extensions)
  match matching, found with
  | [], [[⟨path, true⟩]] => [path]
  | matching, _ => matching.map (·.path)

/-- Validates files one after the other; the diagnostics of each are those of its place in the session. -/
def validateFiles (files : FileAccess m) (s : Session) :
    List String → m (Except String (List (String × List Diagnostic)))
  | [] => return .ok []
  | path :: paths => do
    match ← files.read path with
    | .error e => return .error e.message
    | .ok source =>
      let (handle, s) := s.add source (some path)
      match s.validateFile handle with
      | .error e => return .error e.message
      | .ok ds => return ((path, ds) :: ·) <$> (← validateFiles files s paths)

/-- The outcome of a validation; `skipped` counts the directories that were walked. -/
def summary (schema : Schema) (skipped : Nat) (reports : List (String × List Diagnostic)) : Outcome :=
  let lines := reports.flatMap fun (path, ds) => ds.map (report path)
  let faulty := reports.filter fun (_, ds) => !ds.isEmpty
  if lines.isEmpty then
    .success (check ++ " All GraphQL validated successfully:\n" ++
      "  * Validated " ++ toString reports.length ++ " files.\n" ++
      "  * Skipped " ++ toString skipped ++ " non-file entries.\n" ++
      "  * Schema has " ++ toString schema.types.length ++ " types.\n" ++
      "  * Schema has " ++ toString schema.directives.length ++ " directives.")
  else
    .failure ("\n".intercalate lines ++ "\n" ++ cross ++ " " ++ toString lines.length ++ " error(s) in " ++
      toString faulty.length ++ " of " ++ toString reports.length ++ " file(s).")

def runValidate (files : FileAccess m) (schemaPath : String) (extensions : List String) (disabled : List Rule)
    (paths : List String) : m Outcome := do
  let validator := disabled.foldl Validator.without .standard
  match ← files.read schemaPath with
  | .error e => return failed e.message
  | .ok source =>
    let (error, session) := Session.setSchema { store := { id := 0 }, validator } source
    match error, session.schema? with
    | none, some schema =>
      match ← walkAll files paths with
      | .error text => return failed text
      | .ok found =>
        match ← validateFiles files session (selectFiles extensions found) with
        | .error text => return failed text
        | .ok reports => return summary schema (found.flatten.filter (!·.isFile)).length reports
    | _, _ =>
      return failed ("Errors building schema:\n" ++
        "\n".intercalate (session.schemaDiagnostics.map (report schemaPath)))

def run (files : FileAccess m) : Command → m Outcome
  | .print queryTree file => runPrint files queryTree file
  | .validate schema extensions disabled paths => runValidate files schema extensions disabled paths

end GraphQL.CommandLine
