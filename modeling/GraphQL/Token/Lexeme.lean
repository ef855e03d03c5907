import GraphQL.Token

/-!
# Lexemes

The lexical grammar without positions. `ignored` splits off what separates tokens, and `Lexeme.read` splits the
first token off a text that does not start with such a separator: its kind, its text and the text after it. Main
statements: the two parts of each split make up the text (`ignored_append`, `Lexeme.read_append`), and a token's
text is not empty (`Lexeme.read_text_ne_nil`).
-/

namespace GraphQL

/-- White space, line terminators, commas and the byte order mark. -/
def isBlank (c : Char) : Bool := c = ' ' || c = '\t' || c = '\n' || c = '\r' || c = ',' || c = '\uFEFF'

/-- How many characters at the front of the text separate tokens, `inComment` telling whether a comment has begun.
-/
def ignoredLength (inComment : Bool) : List Char → Nat
  | [] => 0
  | c :: rest =>
    if inComment && !isLineTerminator c then ignoredLength true rest + 1
    else if isBlank c then ignoredLength false rest + 1
    else if c = '#' then ignoredLength true rest + 1
    else 0

/-- Splits the separators off the front of a text: blanks, and comments up to the end of their line. -/
def ignored (text : List Char) : List Char × List Char :=
  (text.take (ignoredLength false text), text.drop (ignoredLength false text))

theorem ignored_append (text : List Char) : (ignored text).1 ++ (ignored text).2 = text :=
  List.take_append_drop ..

structure Lexeme where
  kind : Token.Kind
  text : List Char
  rest : List Char

/-- A scan under way: the characters taken and those that follow. -/
structure Scan where
  taken : List Char
  rest : List Char

namespace Scan

/-- Takes the characters up to the first that fails the test. -/
def takeWhile (p : Char → Bool) (s : Scan) : Scan := ⟨s.taken ++ s.rest.takeWhile p, s.rest.dropWhile p⟩

/-- Takes the next character if it passes the test. -/
def takeIf (p : Char → Bool) (s : Scan) : Scan :=
  match s.rest with
  | c :: rest => if p c then ⟨s.taken ++ [c], rest⟩ else s
  | [] => s

/-- Whether the next character passes the test. -/
def nextIs (p : Char → Bool) (s : Scan) : Bool := s.rest.head?.any p

/-- The text that the scan runs over. -/
def all (s : Scan) : List Char := s.taken ++ s.rest

@[simp] theorem takeWhile_all (p : Char → Bool) (s : Scan) : (s.takeWhile p).all = s.all := by
  simp [all, takeWhile, List.append_assoc]

@[simp] theorem takeIf_all (p : Char → Bool) (s : Scan) : (s.takeIf p).all = s.all := by
  unfold takeIf all
  split
  · split <;> simp_all
  · rfl

theorem takeIf_taken {p : Char → Bool} {s : Scan} (h : s.taken ≠ []) : (s.takeIf p).taken ≠ [] := by
  unfold takeIf
  split
  · split <;> simp [h]
  · exact h

end Scan

/-- What stopped a number, with the scan up to there. -/
structure NumberStop where
  /-- Nothing stands for a minus without digits. -/
  fault : Option NumberFault
  scan : Scan

namespace Number

/-- `0 | [1-9][0-9]*` -/
def unsignedPart (s : Scan) : Except NumberStop Scan :=
  if s.nextIs (· = '0') then
    let s := s.takeIf (· = '0')
    if s.nextIs Char.isDigit then .error ⟨some .leadingZero, s⟩ else .ok s
  else if s.nextIs Char.isDigit then .ok (s.takeWhile Char.isDigit)
  else .error ⟨none, s⟩

/-- `-? (0 | [1-9][0-9]*)` -/
def integerPart (s : Scan) : Except NumberStop Scan := unsignedPart (s.takeIf (· = '-'))

/-- `(. [0-9]+)?` -/
def fractionPart (s : Scan) : Except NumberStop Scan :=
  if s.nextIs (· = '.') then
    let s := s.takeIf (· = '.')
    if s.nextIs Char.isDigit then .ok (s.takeWhile Char.isDigit) else .error ⟨some .noFractionDigit, s⟩
  else .ok s

/-- `([eE] [+-]? [0-9]+)?` -/
def exponentPart (s : Scan) : Except NumberStop Scan :=
  if s.nextIs (fun c => c = 'e' || c = 'E') then
    let s := (s.takeIf (fun c => c = 'e' || c = 'E')).takeIf (fun c => c = '+' || c = '-')
    if s.nextIs Char.isDigit then .ok (s.takeWhile Char.isDigit) else .error ⟨some .noExponentDigit, s⟩
  else .ok s

/-- A number may not run into a name or another dot. -/
def boundary (s : Scan) : Except NumberStop Scan :=
  if s.nextIs (fun c => c = '.' || isNameStart c) then .error ⟨some .trailingText, s⟩ else .ok s

/-- The characters that a faulty number takes with it. -/
def isTail (c : Char) : Bool := c.isAlphanum || c = '.' || c = '+' || c = '-' || c = '_'

/-- A number literal that takes as much of the text as its grammar allows. -/
def scan (text : List Char) : Except NumberStop Scan := do
  boundary (← exponentPart (← fractionPart (← integerPart ⟨[], text⟩)))

/-- A number is a float exactly when it has a fraction or an exponent. -/
def isFloat (text : List Char) : Bool := text.any fun c => c = '.' || c = 'e' || c = 'E'

/-- The token of a text that starts with a minus or a digit. -/
def read (text : List Char) : Lexeme :=
  match scan text with
  | .ok s =>
    let literal := String.ofList s.taken
    ⟨if isFloat s.taken then .float literal else .int literal, s.taken, s.rest⟩
  | .error ⟨none, s⟩ => ⟨.error .loneMinus, s.taken, s.rest⟩
  | .error ⟨some fault, s⟩ =>
    let s := s.takeWhile isTail
    ⟨.error (.number fault (String.ofList s.taken)), s.taken, s.rest⟩

/-- The scan where a step stopped, whether it went well or not. -/
def reached : Except NumberStop Scan → Scan
  | .ok s => s
  | .error e => e.scan

private theorem reached_bind {text : List Char} {r : Except NumberStop Scan} {f : Scan → Except NumberStop Scan}
    (hr : (reached r).all = text) (hf : ∀ s, (reached (f s)).all = s.all) : (reached (r >>= f)).all = text := by
  cases r with
  | ok s => exact (hf s).trans hr
  | error e => exact hr

private theorem integerPart_all (s : Scan) : (reached (integerPart s)).all = s.all := by
  rw [← Scan.takeIf_all (· = '-') s, integerPart, unsignedPart]
  split
  · simp only
    split <;> simp [reached]
  · split <;> simp [reached]

private theorem fractionPart_all (s : Scan) : (reached (fractionPart s)).all = s.all := by
  simp only [fractionPart]
  split
  · split <;> simp [reached]
  · rfl

private theorem exponentPart_all (s : Scan) : (reached (exponentPart s)).all = s.all := by
  simp only [exponentPart]
  split
  · split <;> simp [reached]
  · rfl

private theorem boundary_all (s : Scan) : (reached (boundary s)).all = s.all := by
  unfold boundary
  split <;> rfl

theorem scan_all (text : List Char) : (reached (scan text)).all = text :=
  reached_bind (integerPart_all _) fun _ => reached_bind (fractionPart_all _) fun _ =>
    reached_bind (exponentPart_all _) boundary_all

theorem read_append (text : List Char) : (read text).text ++ (read text).rest = text := by
  have h := scan_all text
  unfold read
  split <;> rename_i heq <;> rw [heq] at h
  · exact h
  · exact h
  · exact (Scan.takeWhile_all ..).trans h

private theorem reached_bind_taken {r : Except NumberStop Scan} {f : Scan → Except NumberStop Scan}
    (hr : (reached r).taken ≠ []) (hf : ∀ s, s.taken ≠ [] → (reached (f s)).taken ≠ []) :
    (reached (r >>= f)).taken ≠ [] := by
  cases r with
  | ok s => exact hf s hr
  | error e => exact hr

private theorem unsignedPart_taken {s : Scan} (h : s.taken ≠ [] ∨ s.nextIs Char.isDigit) :
    (reached (unsignedPart s)).taken ≠ [] := by
  rcases h with h | h
  · simp only [unsignedPart]
    split
    · split <;> simp [reached, Scan.takeIf_taken h]
    · split <;> simp [reached, Scan.takeWhile, h]
  · match s, h with
    | ⟨taken, c :: rest⟩, h =>
      have hc : c.isDigit := by simpa [Scan.nextIs] using h
      by_cases h0 : c = '0'
      · simp only [unsignedPart, Scan.nextIs, Scan.takeIf, h0, List.head?_cons, Option.any_some, decide_true,
          ↓reduceIte]
        split <;> simp [reached]
      · simp [unsignedPart, Scan.nextIs, Scan.takeWhile, h0, hc, reached]

private theorem integerPart_taken {c : Char} (rest : List Char) (h : c = '-' ∨ c.isDigit) :
    (reached (integerPart ⟨[], c :: rest⟩)).taken ≠ [] := by
  apply unsignedPart_taken
  by_cases hc : c = '-'
  · exact .inl (by simp [Scan.takeIf, hc])
  · exact .inr (by simpa [Scan.takeIf, Scan.nextIs, hc] using h)

private theorem fractionPart_taken (s : Scan) (h : s.taken ≠ []) : (reached (fractionPart s)).taken ≠ [] := by
  simp only [fractionPart]
  split
  · split <;> simp [reached, Scan.takeWhile, Scan.takeIf_taken h]
  · exact h

private theorem exponentPart_taken (s : Scan) (h : s.taken ≠ []) : (reached (exponentPart s)).taken ≠ [] := by
  simp only [exponentPart]
  split
  · split <;> simp [reached, Scan.takeWhile, Scan.takeIf_taken (Scan.takeIf_taken h)]
  · exact h

private theorem boundary_taken (s : Scan) (h : s.taken ≠ []) : (reached (boundary s)).taken ≠ [] := by
  unfold boundary
  split <;> exact h

theorem read_text_ne_nil {c : Char} (rest : List Char) (h : c = '-' ∨ c.isDigit) :
    (read (c :: rest)).text ≠ [] := by
  have h : (reached (scan (c :: rest))).taken ≠ [] :=
    reached_bind_taken (integerPart_taken rest h) fun s hs => reached_bind_taken (fractionPart_taken s hs)
      fun s hs => reached_bind_taken (exponentPart_taken s hs) boundary_taken
  unfold read
  split <;> rename_i heq <;> rw [heq] at h
  · exact h
  · exact h
  · simp only [Scan.takeWhile, ne_eq, List.append_eq_nil_iff, not_and]
    exact fun h' => absurd h' h

end Number

/-- How the text of a string literal ends. -/
inductive StringEnd where
  | closed
  | endOfLine
  | endOfInput
deriving DecidableEq

/-- The number of characters in a quoted string after its opening quote, and how it ends. A backslash takes the
character after it along, unless that ends the line. A line feed that breaks the string is still taken, a carriage
return is not. -/
def quotedLength : List Char → Nat × StringEnd
  | [] => (0, .endOfInput)
  | '"' :: _ => (1, .closed)
  | '\n' :: _ => (1, .endOfLine)
  | '\r' :: _ => (0, .endOfLine)
  | '\\' :: c :: rest =>
    if isLineTerminator c then
      let (n, e) := quotedLength (c :: rest)
      (n + 1, e)
    else
      let (n, e) := quotedLength rest
      (n + 2, e)
  | _ :: rest =>
    let (n, e) := quotedLength rest
    (n + 1, e)

/-- The number of characters in a block string after its opening quotes, and how it ends. Three quotes after a
backslash do not close it; `escaped` tells whether the character before is a backslash. -/
def blockLength (escaped : Bool) : List Char → Nat × StringEnd
  | '"' :: '"' :: '"' :: rest =>
    if escaped then
      let (n, e) := blockLength false rest
      (n + 3, e)
    else (3, .closed)
  | c :: rest =>
    let (n, e) := blockLength (c = '\\') rest
    (n + 1, e)
  | [] => (0, .endOfInput)

/-- The token of a text that starts with a quote. -/
def readString (text : List Char) : Lexeme :=
  match text with
  | '"' :: '"' :: '"' :: body =>
    let (n, e) := blockLength false body
    let literal := text.take (n + 3)
    let kind := match e with
      | .closed => .blockString (String.ofList literal)
      | _ => .error .blockStringAtEndOfInput
    ⟨kind, literal, text.drop (n + 3)⟩
  | _ =>
    let (n, e) := quotedLength (text.drop 1)
    let literal := text.take (n + 1)
    let kind := match e with
      | .closed => .string (String.ofList literal)
      | .endOfLine => .error .stringAtEndOfLine
      | .endOfInput => .error .stringAtEndOfInput
    ⟨kind, literal, text.drop (n + 1)⟩

/-- The token of a word; three words have kinds of their own. -/
def wordKind (word : String) : Token.Kind :=
  if word = "true" then .trueWord
  else if word = "false" then .falseWord
  else if word = "null" then .nullWord
  else .name word

/-- The token of a text that starts with a character of a name. -/
def readName (text : List Char) : Lexeme :=
  let word := text.takeWhile isNameContinue
  ⟨wordKind (String.ofList word), word, text.dropWhile isNameContinue⟩

/-- The token of a text that starts with a dot. -/
def readDots : List Char → Lexeme
  | '.' :: '.' :: '.' :: rest => ⟨.punctuator .ellipsis, ['.', '.', '.'], rest⟩
  | '.' :: '.' :: rest => ⟨.error (.dots 2), ['.', '.'], rest⟩
  | text => ⟨.error (.dots 1), text.take 1, text.drop 1⟩

/-- Splits the first token off a text that starts with the character `c`. -/
def Lexeme.read (c : Char) (rest : List Char) : Lexeme :=
  match Punctuator.ofChar? c with
  | some sign => ⟨.punctuator sign, [c], rest⟩
  | none =>
    if c = '.' then readDots (c :: rest)
    else if c = '"' then readString (c :: rest)
    else if isNameStart c then readName (c :: rest)
    else if c = '-' || c.isDigit then Number.read (c :: rest)
    else ⟨.error (.character c), [c], rest⟩

/-- How the tokens that begin with a character are read. -/
inductive Lexeme.Reading (c : Char) : Prop where
  | sign {sign : Punctuator} (hsign : Punctuator.ofChar? c = some sign)
    (hread : ∀ rest, read c rest = ⟨.punctuator sign, [c], rest⟩)
  | dots (hdot : c = '.') (hread : ∀ rest, read c rest = readDots (c :: rest))
  | string (hquote : c = '"') (hread : ∀ rest, read c rest = readString (c :: rest))
  | word (hstart : isNameStart c = true) (hread : ∀ rest, read c rest = readName (c :: rest))
  | number (hnumber : c = '-' ∨ c.isDigit = true) (hread : ∀ rest, read c rest = Number.read (c :: rest))
  | stray (hread : ∀ rest, read c rest = ⟨.error (.character c), [c], rest⟩)

/-- The first character tells how a token is read. -/
theorem Lexeme.reading (c : Char) : Reading c := by
  cases hsign : Punctuator.ofChar? c with
  | some sign => exact .sign hsign fun rest => by simp only [read, hsign]
  | none =>
    by_cases hdot : c = '.'
    · exact .dots hdot fun rest => by simp only [read, hsign, if_pos hdot]
    · by_cases hquote : c = '"'
      · exact .string hquote fun rest => by simp only [read, hsign, if_neg hdot, if_pos hquote]
      · by_cases hstart : isNameStart c = true
        · exact .word hstart fun rest => by simp only [read, hsign, if_neg hdot, if_neg hquote, if_pos hstart]
        · by_cases hnumber : (c = '-' || c.isDigit : Bool) = true
          · refine .number (by simpa using hnumber) fun rest => ?_
            simp only [read, hsign, if_neg hdot, if_neg hquote, if_neg hstart, if_pos hnumber]
          · refine .stray fun rest => ?_
            simp only [read, hsign, if_neg hdot, if_neg hquote, if_neg hstart, if_neg hnumber]

theorem readDots_kind (text : List Char) :
    (readDots text).kind = .punctuator .ellipsis ∨ ∃ n, (readDots text).kind = .error (.dots n) := by
  unfold readDots
  split <;> simp

theorem readString_kind (text : List Char) : (∃ raw, (readString text).kind = .string raw) ∨
    (∃ raw, (readString text).kind = .blockString raw) ∨ ∃ cause, (readString text).kind = .error cause := by
  unfold readString
  split
  · dsimp only
    split <;> simp
  · dsimp only
    split <;> simp

theorem readName_kind (text : List Char) : (readName text).kind = .trueWord ∨ (readName text).kind = .falseWord ∨
    (readName text).kind = .nullWord ∨ ∃ word, (readName text).kind = .name word := by
  unfold readName wordKind
  dsimp only
  split
  · simp
  · split
    · simp
    · split <;> simp

theorem Number.read_kind (text : List Char) : (∃ raw, (read text).kind = .int raw) ∨
    (∃ raw, (read text).kind = .float raw) ∨ (read text).kind = .error .loneMinus ∨
      ∃ fault raw, (read text).kind = .error (.number fault raw) := by
  unfold read
  split
  · dsimp only
    split <;> simp
  · simp
  · simp

/-! ### Nothing is lost -/

theorem readString_append (text : List Char) : (readString text).text ++ (readString text).rest = text := by
  unfold readString
  split <;> exact List.take_append_drop ..

theorem readDots_append (text : List Char) : (readDots text).text ++ (readDots text).rest = text := by
  unfold readDots
  split
  · rfl
  · rfl
  · exact List.take_append_drop ..

theorem Lexeme.read_append (c : Char) (rest : List Char) :
    (read c rest).text ++ (read c rest).rest = c :: rest := by
  cases reading c with
  | sign _ hread | stray hread =>
    rw [hread]
    rfl
  | dots _ hread =>
    rw [hread]
    exact readDots_append _
  | string _ hread =>
    rw [hread]
    exact readString_append _
  | word _ hread =>
    rw [hread]
    exact List.takeWhile_append_dropWhile
  | number _ hread =>
    rw [hread]
    exact Number.read_append _

theorem isNameContinue_of_isNameStart {c : Char} (h : isNameStart c = true) : isNameContinue c = true := by
  simp only [isNameStart, Bool.or_eq_true] at h
  simp only [isNameContinue, Char.isAlphanum, Bool.or_eq_true]
  exact h.imp_right .inl

theorem Lexeme.read_text_ne_nil (c : Char) (rest : List Char) : (read c rest).text ≠ [] := by
  cases reading c with
  | sign _ hread | stray hread => simp [hread]
  | dots _ hread =>
    rw [hread, readDots.eq_def]
    split <;> simp_all
  | string _ hread =>
    rw [hread, readString.eq_def]
    split <;> simp
  | word hstart hread => simp [hread, readName, isNameContinue_of_isNameStart hstart]
  | number hnumber hread =>
    rw [hread]
    exact Number.read_text_ne_nil rest hnumber

end GraphQL
