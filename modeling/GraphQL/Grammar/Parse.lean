import GraphQL.ParseError
import GraphQL.Syntax.Value

/-!
# Parsing with one token of lookahead

A parse step reads from the tokens that are left and remembers the span of the token consumed last, at which a node
ends. An error token stops the parse when it comes up next. Repetition is bounded by the number of tokens left,
since every round consumes one; nesting is bounded by `maxDepth`.
-/

namespace GraphQL

/-- What a parse step reads from. -/
structure Input where
  tokens : List Token
  /-- The span of the token consumed last. -/
  last : Option Span

abbrev Parse := StateT Input (Except ParseError)

namespace Parse

/-- How deep values, selection sets and type references may nest, counted together. -/
def maxDepth : Nat := 64

def fail {α : Type} (fault : ParseFault) (span : Span) : Parse α := throw ⟨fault, span⟩

/-- Where input that has run out of tokens ends. -/
def Input.endSpan (i : Input) : Span := (i.last.map fun s => .emptyAt s.stop).getD .nowhere

/-- The next token, which stays. -/
def peek : Parse Token := do
  let i ← get
  match i.tokens with
  | [] => return ⟨.endOfInput, Input.endSpan i⟩
  | t :: _ =>
    match t.kind with
    | .error cause => fail (.lexical cause) t.span
    | _ => return t

/-- Consumes the next token, which has been looked at before. -/
def advance : Parse Unit :=
  modify fun i => match i.tokens with
    | [] => i
    | t :: tokens => ⟨tokens, some t.span⟩

/-- From the start of a span to the end of the token consumed last. -/
def spanFrom (start : Span) : Parse Span := do
  return ((← get).last.map start.through).getD start

def unexpected {α : Type} (found : Token) (expected : List String) : Parse α :=
  fail (.unexpected expected found.kind) found.span

def nextIs (sign : Punctuator) : Parse Bool := return (← peek).kind = .punctuator sign

/-- Consumes the next token if it is the sign. -/
def accept (sign : Punctuator) : Parse (Option Token) := do
  let t ← peek
  if t.kind = .punctuator sign then
    advance
    return some t
  else return none

/-- Consumes the sign, which has to come next. -/
def expect (sign : Punctuator) : Parse Token := do
  let t ← peek
  if t.kind = .punctuator sign then
    advance
    return t
  else unexpected t [ParseFault.quoted sign.text]

/-- Consumes a name, which has to come next. -/
def name : Parse Name := do
  let t ← peek
  match t.kind.asName? with
  | some text =>
    advance
    return ⟨text, t.span⟩
  | none => unexpected t ["name"]

def nextIsKeyword (word : String) : Parse Bool := return (← peek).kind = .name word

/-- Consumes the keyword, which has to come next. -/
def keyword (word : String) : Parse Token := do
  let t ← peek
  if t.kind = .name word then
    advance
    return t
  else unexpected t [ParseFault.quoted word]

/-- Runs a step until it gives nothing, at most `n` times. -/
def repeatUpTo {α : Type} (step : Parse (Option α)) : Nat → Parse (List α)
  | 0 => return []
  | n + 1 => do
    match ← step with
    | some a => return a :: (← repeatUpTo step n)
    | none => return []

/-- Runs a step until it gives nothing; a step that gives something has to consume a token. -/
def repeated {α : Type} (step : Parse (Option α)) : Parse (List α) := do
  repeatUpTo step ((← get).tokens.length + 1)

/-- An item, and more items after the separator for as long as it comes next. -/
def separated {α : Type} (separator : Punctuator) (item : Parse α) : Parse (List α) := do
  let first ← item
  let rest ← repeated do
    match ← accept separator with
    | some _ => some <$> item
    | none => return none
  return first :: rest

/-- Items between two signs, with the span from the one to the other. -/
def delimited {α : Type} (opening close : Punctuator) (construct : String) (allowEmpty : Bool) (item : Parse α) :
    Parse (List α × Span) := do
  let first ← expect opening
  let items ← repeated do
    let t ← peek
    if t.kind = .punctuator close then
      advance
      return none
    else if t.kind = .endOfInput then fail (.unclosed close construct first.span) t.span
    else some <$> item
  let span ← spanFrom first.span
  if items.isEmpty && !allowEmpty then fail (.emptyConstruct construct) span
  return (items, span)

/-- Items between two signs, or nothing when the opening one does not come next. -/
def delimitedIf {α : Type} (opening close : Punctuator) (construct : String) (item : Parse α) :
    Parse (List α) := do
  if ← nextIs opening then return (← delimited opening close construct false item).1
  else return []

/-- The fault of nesting deeper than the limit. -/
def tooDeep {α : Type} : Parse α := do fail (.tooDeep maxDepth) (← peek).span

/-- Runs a parse step over the tokens of a source. -/
def run {α : Type} (step : Parse α) (tokens : List Token) : Except ParseError α :=
  (·.1) <$> StateT.run step ⟨tokens, none⟩

end Parse

end GraphQL
