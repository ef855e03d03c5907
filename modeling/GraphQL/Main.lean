import GraphQL.CommandLine.LogLevel
import GraphQL.CommandLine.Run

/-!
# The program

Reads the arguments, runs the command on the files of the machine and prints what comes out. A command that fails
ends with exit code 1, and arguments that name no command with exit code 2.
-/

namespace GraphQL.CommandLine

/-- The help text. -/
def usage : String := "\n".intercalate [
  "Usage: graphql [OPTIONS] [COMMAND]",
  "",
  "Commands:",
  "  print [--graphql-parser] <FILE>",
  "  validate --schema <FILE> [--graphql-file-exts <LIST>] [--disable-rule <RULE>]... <FILE_OR_DIR>...",
  "",
  "Options:",
  "  -v, --verbose  Enable verbose output.",
  "  -h, --help     Print help.",
  "  -V, --version  Print version."]

def version : String := "graphql 0.1.0"

def UsageError.message : UsageError → String
  | unknownSubcommand => "unknown command"
  | unknownArgument => "unknown argument"
  | missingArgument => "an argument is missing"
  | missingValue => "a value is missing"
  | rejectedValue text => text
  | surplusValue => "a flag takes no value"
  | repeatedOption => "an option is repeated"
  | helpRequested => usage
  | versionRequested => version

/-- What a failed system call says. -/
def FileError.ofSystem : IO.Error → FileError
  | .noFileOrDirectory .. => .notFound
  | .inappropriateType _ 21 _ => .isDirectory
  | .inappropriateType .. => .notDirectory
  | e => .other (toString e)

def readFile (path : String) : IO (Except FileError String) := do
  match ← (IO.FS.readBinFile path).toBaseIO with
  | .error e => return .error (.ofSystem e)
  | .ok bytes => match String.fromUTF8? bytes with
    | some text => return .ok text
    | none => return .error (.other "stream did not contain valid UTF-8")

/-- Walks a directory tree; links are followed. -/
partial def walkFiles (path : String) : IO (Except FileError (List Found)) := do
  match ← (IO.FS.realPath path >>= fun full => return (full, ← full.metadata)).toBaseIO with
  | .error e => return .error (.ofSystem e)
  | .ok (full, data) =>
    match data.type with
    | .dir =>
      let mut found := [⟨full.toString, false⟩]
      for entry in ← full.readDir do
        match ← walkFiles entry.path.toString with
        | .error e => return .error e
        | .ok below => found := found ++ below
      return .ok found
    | kind => return .ok [⟨full.toString, kind == .file⟩]

/-- The files of the machine. -/
def machine : FileAccess IO := ⟨readFile, walkFiles⟩

/-- Says on the error output what the setting of the log level amounts to. -/
def announceLogLevel (verbose : Bool) : IO Unit := do
  let (level, warning) := LogLevel.resolve verbose (← IO.getEnv "LOG_LEVEL")
  if level = .trace then IO.eprintln ("TRACE Logging at " ++ level.text ++ ".")
  if let some text := warning then IO.eprintln ("WARN " ++ text)

end GraphQL.CommandLine

open GraphQL.CommandLine in
def main (args : List String) : IO UInt32 := do
  match parseArguments args with
  | .error .helpRequested => IO.println usage; return 0
  | .error .versionRequested => IO.println version; return 0
  | .error e => IO.eprintln ("error: " ++ e.message); return 2
  | .ok invocation =>
    announceLogLevel invocation.verbose
    match invocation.command with
    | none => IO.println usage; return 0
    | some command =>
      match ← run machine command with
      | .success text => IO.println text; return 0
      | .failure text => IO.eprintln text; return 1
