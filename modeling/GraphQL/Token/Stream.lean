import GraphQL.Token.Lexer

/-!
# Token streams

A token stream hands out the tokens of a source one at a time and looks ahead as far as it is asked to. It pulls a
token from the source only when one is needed; `buffer` holds the tokens pulled and not yet consumed.
-/

namespace GraphQL

structure TokenStream where
  /-- The tokens not yet pulled. -/
  source : List Token
  buffer : List Token
  /-- The span of the token consumed last. -/
  last : Option Span
deriving DecidableEq

namespace TokenStream

def ofTokens (ts : List Token) : TokenStream := ⟨ts, [], none⟩

def ofSource (source : String) : TokenStream := ofTokens (tokens source)

/-- The tokens that are still to be consumed. -/
def remaining (s : TokenStream) : List Token := s.buffer ++ s.source

/-- Pulls tokens until the buffer holds `n` of them or the source runs out. -/
def fill (n : Nat) (s : TokenStream) : TokenStream :=
  let missing := n - s.buffer.length
  { s with source := s.source.drop missing, buffer := s.buffer ++ s.source.take missing }

/-- The token `n` places ahead. -/
def peekAt (n : Nat) (s : TokenStream) : Option Token × TokenStream :=
  let s := s.fill (n + 1)
  (s.buffer[n]?, s)

/-- The next token. -/
def peek (s : TokenStream) : Option Token × TokenStream := s.peekAt 0

/-- Takes the next token off the stream. -/
def consume (s : TokenStream) : Option Token × TokenStream :=
  let s := s.fill 1
  match s.buffer with
  | [] => (none, s)
  | t :: buffer => (some t, { s with buffer, last := some t.span })

/-- Whether nothing is left but the end of the input. -/
def isAtEnd (s : TokenStream) : Bool × TokenStream :=
  let (t, s) := s.peek
  (match t with | some t => t.kind = .endOfInput | none => true, s)

end TokenStream

end GraphQL
