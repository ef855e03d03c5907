import GraphQL.Rule

/-!
# Arguments

The arguments of the program name a subcommand, with options before and after it. An option is written
`--name value` or `--name=value`, or by its letter as `-n value`, `-nvalue` or `-n=value`; letters of flags can be
joined; after `--` everything is an operand. The values of an option are checked when the next option or operand
begins, so that of two mistakes the one found first is reported.
-/

namespace GraphQL.CommandLine

/-- Why arguments lead to no command. -/
inductive UsageError where
  | unknownSubcommand
  | unknownArgument
  | missingArgument
  /-- An option or operand without a value, or with an empty one where that means nothing. -/
  | missingValue
  | rejectedValue (text : String)
  /-- A flag that is given a value. -/
  | surplusValue
  | repeatedOption
  | helpRequested
  | versionRequested
deriving DecidableEq

inductive Flag where
  | help
  | version
  | verbose
  | queryTree
  | schema
  | extensions
  | disableRule
deriving DecidableEq

namespace Flag

def longName : Flag → String
  | help => "help"
  | version => "version"
  | verbose => "verbose"
  | queryTree => "graphql-parser"
  | schema => "schema"
  | extensions => "graphql-file-exts"
  | disableRule => "disable-rule"

def letter? : Flag → Option Char
  | help => some 'h'
  | version => some 'V'
  | verbose => some 'v'
  | schema => some 's'
  | _ => none

def takesValue : Flag → Bool
  | schema | extensions | disableRule => true
  | _ => false

def repeatable : Flag → Bool
  | extensions | disableRule => true
  | _ => false

/-- The values that one text stands for. -/
def split : Flag → String → List String
  | extensions, text => text.splitOn ","
  | _, text => [text]

/-- Whether a value can be used. -/
def check : Flag → String → Except UsageError Unit
  | schema, "" => .error .missingValue
  | disableRule, text => if (Rule.ofId? text).isSome then .ok () else .error (.rejectedValue (Rule.unknownMessage text))
  | _, _ => .ok ()

end Flag

/-- What has been read but not checked. -/
inductive Pending where
  | nothing
  | option (flag : Flag) (value : Option String)
  | operands (texts : List String)

/-- What the arguments of one command have said so far. -/
structure Reading where
  given : List (Flag × List String) := []
  operands : List String := []
  pending : Pending := .nothing

/-- The options of a command and the most operands that it takes. -/
structure Grammar where
  flags : List Flag
  maxOperands : Option Nat

namespace Reading

/-- Takes over an option with its values. -/
def accept (r : Reading) (flag : Flag) (texts : List String) : Except UsageError Reading := do
  let values := texts.flatMap flag.split
  if flag.takesValue && texts.isEmpty then throw .missingValue
  if !flag.repeatable && r.given.any (·.1 = flag) then throw .repeatedOption
  values.forM flag.check
  return { r with given := r.given ++ [(flag, values)] }

/-- Checks what is pending and takes it over. -/
def settle (r : Reading) : Except UsageError Reading :=
  let r' := { r with pending := .nothing }
  match r.pending with
  | .nothing => .ok r'
  | .option flag value => r'.accept flag value.toList
  | .operands texts => if "" ∈ texts then .error .missingValue else .ok { r' with operands := r.operands ++ texts }

/-- A flag without a value; help and version end the reading. -/
def flag (r : Reading) (flag : Flag) : Except UsageError Reading := do
  let r ← r.settle
  match flag with
  | .help => throw .helpRequested
  | .version => throw .versionRequested
  | flag => r.accept flag []

/-- An option whose value is attached, or comes next. -/
def option (r : Reading) (flag : Flag) (attached : Option String) : Except UsageError Reading := do
  let r ← r.settle
  match attached with
  | some value => r.accept flag [value]
  | none => return { r with pending := .option flag none }

def long (g : Grammar) (r : Reading) (name : String) (attached : Option String) : Except UsageError Reading :=
  match g.flags.find? (·.longName = name) with
  | none => .error .unknownArgument
  | some flag =>
    if flag.takesValue then r.option flag attached
    else if attached.isSome then .error .surplusValue
    else r.flag flag

/-- The letters after one dash. -/
def letters (g : Grammar) (r : Reading) : List Char → Except UsageError Reading
  | [] => .ok r
  | c :: rest =>
    match g.flags.find? (·.letter? = some c) with
    | none => .error .unknownArgument
    | some flag =>
      if flag.takesValue then
        r.option flag <| match rest with
          | [] => none
          | '=' :: value => some (String.ofList value)
          | value => some (String.ofList value)
      else do (← r.flag flag).letters g rest

/-- How many operands have been read. -/
def operandCount (r : Reading) : Nat :=
  r.operands.length + match r.pending with
    | .operands texts => texts.length
    | _ => 0

def operand (g : Grammar) (r : Reading) (text : String) : Except UsageError Reading :=
  if g.maxOperands.any (· ≤ r.operandCount) then .error .unknownArgument
  else match r.pending with
    | .operands texts => .ok { r with pending := .operands (texts ++ [text]) }
    | _ => do return { ← r.settle with pending := .operands [text] }

/-- A text that is no option: the value of the option before it, or an operand. -/
def plain (g : Grammar) (r : Reading) (text : String) : Except UsageError Reading :=
  match r.pending with
  | .option flag none => .ok { r with pending := .option flag (some text) }
  | _ => r.operand g text

/-- Splits a text at its first equals sign. -/
def splitAttached (text : List Char) : String × Option String :=
  match text.dropWhile (· ≠ '=') with
  | [] => (String.ofList text, none)
  | _ :: value => (String.ofList (text.takeWhile (· ≠ '=')), some (String.ofList value))

/-- One argument in front of any `--`. -/
def argument (g : Grammar) (r : Reading) (text : String) : Except UsageError Reading :=
  match text.toList with
  | '-' :: '-' :: rest =>
    let (name, attached) := splitAttached rest
    r.long g name attached
  | ['-'] => r.plain g text
  | '-' :: rest => r.letters g rest
  | _ => r.plain g text

/-- All arguments of a command. -/
def all (g : Grammar) (r : Reading) : List String → Except UsageError Reading
  | [] => r.settle
  | "--" :: rest => do (← rest.foldlM (operand g) r).settle
  | text :: rest => do (← r.argument g text).all g rest

def has (r : Reading) (flag : Flag) : Bool := r.given.any (·.1 = flag)

/-- All values given to an option. -/
def values (r : Reading) (flag : Flag) : List String :=
  (r.given.filter (·.1 = flag)).flatMap (·.2)

end Reading

inductive Command where
  /-- Print a document; with `queryTree`, only one that has a query tree. -/
  | print (queryTree : Bool) (file : String)
  | validate (schema : String) (extensions : List String) (disabled : List Rule) (paths : List String)

/-- What the arguments ask for; there may be no subcommand. -/
structure Invocation where
  verbose : Bool
  command : Option Command

def printGrammar : Grammar := ⟨[.help, .verbose, .queryTree], some 1⟩

def validateGrammar : Grammar := ⟨[.help, .verbose, .schema, .extensions, .disableRule], none⟩

def printCommand (args : List String) : Except UsageError (Bool × Command) := do
  let r ← Reading.all printGrammar {} args
  match r.operands with
  | file :: _ => return (r.has .verbose, .print (r.has .queryTree) file)
  | [] => throw .missingArgument

def validateCommand (args : List String) : Except UsageError (Bool × Command) := do
  let r ← Reading.all validateGrammar {} args
  match r.values .schema, r.operands with
  | schema :: _, path :: paths =>
    let extensions := if r.has .extensions then r.values .extensions else ["graphql", "gql"]
    return (r.has .verbose, .validate schema extensions ((r.values .disableRule).filterMap Rule.ofId?) (path :: paths))
  | _, _ => throw .missingArgument

/-- The help on a path of subcommands, of which there is one level. -/
def helpCommand : List String → UsageError
  | [] | ["help"] | ["print"] | ["validate"] => .helpRequested
  | _ => .unknownSubcommand

def topGrammar : Grammar := ⟨[.help, .version, .verbose], some 0⟩

/-- Reads the arguments of the program, where some may have been read before the subcommand. -/
def readInvocation (r : Reading) : List String → Except UsageError Invocation
  | [] => do return ⟨(← r.settle).has .verbose, none⟩
  | "print" :: args => withCommand (printCommand args)
  | "validate" :: args => withCommand (validateCommand args)
  | "help" :: args => .error (helpCommand args)
  | "--" :: [] => do return ⟨(← r.settle).has .verbose, none⟩
  | "--" :: text :: _ =>
    .error (if text ∈ ["print", "validate", "help"] then .unknownArgument else .unknownSubcommand)
  | text :: args =>
    if text.startsWith "-" && text ≠ "-" then do readInvocation (← r.argument topGrammar text) args
    else .error .unknownSubcommand
where
  withCommand (command : Except UsageError (Bool × Command)) : Except UsageError Invocation := do
    let (verbose, command) ← command
    return ⟨verbose || r.has .verbose, some command⟩

def parseArguments (args : List String) : Except UsageError Invocation := readInvocation {} args

end GraphQL.CommandLine
