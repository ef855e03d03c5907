import GraphQL.Text.Character

/-!
# Log levels

How much is logged depends on a flag and on the variable `LOG_LEVEL` of the environment, of which the flag is the
stronger.
-/

namespace GraphQL.CommandLine

inductive LogLevel where
  | info
  | debug
  | trace
deriving DecidableEq

namespace LogLevel

def text : LogLevel → String
  | info => "INFO"
  | debug => "DEBUG"
  | trace => "TRACE"

/-- Takes white space away from both ends. -/
def trim (s : String) : String :=
  String.ofList ((s.toList.dropWhile isWhiteSpace).reverse.dropWhile isWhiteSpace).reverse

/-- The level that a word names, in any case. -/
def ofWord? (word : String) : Option LogLevel :=
  match word.map Char.toLower with
  | "trace" => some trace
  | "debug" | "verbose" => some debug
  | "info" => some info
  | _ => none

/-- The level, and a warning if the value of the variable names none. -/
def resolve (verbose : Bool) (value : Option String) : LogLevel × Option String :=
  if verbose then (debug, none)
  else match value.map trim with
    | none => (info, none)
    | some word => match ofWord? word with
      | some level => (level, none)
      | none => (info, some ("Ignoring invalid `LOG_LEVEL` value `" ++ word ++ "`."))

end LogLevel

end GraphQL.CommandLine
