import GraphQL.Token.Lexeme

/-!
# The tokens of a source text

`tokens` reads a whole source text. The sequence ends with `endOfInput`, or with the first `error`, after which
nothing is read; every token carries its span. The reading point passes a comment, and each token that holds no
line terminator, at once (`Cursor.skip`, `Cursor.past`).
-/

namespace GraphQL

/-- The reading point after the separators in front of a token. -/
def Cursor.skip (c : Cursor) : List Char → Cursor
  | [] => c
  | ch :: rest =>
    if ch = '#' then
      (c.along (ch :: rest.takeWhile (!isLineTerminator ·))).skip (rest.dropWhile (!isLineTerminator ·))
    else (c.step ch).skip rest
termination_by separators => separators.length
decreasing_by
  · have := (List.dropWhile_sublist (!isLineTerminator ·) (l := rest)).length_le
    simp only [List.length_cons]
    omega
  · simp

/-- The reading point after a token. Strings, and what is no token, may hold line terminators. -/
def Cursor.past (c : Cursor) (lexeme : Lexeme) : Cursor :=
  match lexeme.kind with
  | .string _ | .blockString _ | .error _ => c.across lexeme.text
  | _ => c.along lexeme.text

theorem ignored_rest_length (text : List Char) : (ignored text).2.length ≤ text.length := by
  simp [ignored]

theorem Lexeme.read_rest_length (c : Char) (rest : List Char) : (read c rest).rest.length < rest.length + 1 := by
  have hr := congrArg List.length (Lexeme.read_append c rest)
  have ht := List.length_pos_iff.2 (Lexeme.read_text_ne_nil c rest)
  simp only [List.length_append, List.length_cons] at hr
  omega

/-- The tokens of the text that follows the reading point. -/
def tokensFrom (c : Cursor) (text : List Char) : List Token :=
  let c := c.skip (ignored text).1
  match _h : (ignored text).2 with
  | [] => [⟨.endOfInput, .emptyAt c.position⟩]
  | ch :: rest =>
    let lexeme := Lexeme.read ch rest
    let next := c.past lexeme
    let token : Token := ⟨lexeme.kind, ⟨c.position, next.position⟩⟩
    if lexeme.kind.isError then [token] else token :: tokensFrom next lexeme.rest
termination_by text.length
decreasing_by
  have := ignored_rest_length text
  have := Lexeme.read_rest_length ch rest
  simp only [_h, List.length_cons] at *
  omega

/-- The tokens of a source text. -/
def tokens (source : String) : List Token := tokensFrom .start source.toList

end GraphQL
