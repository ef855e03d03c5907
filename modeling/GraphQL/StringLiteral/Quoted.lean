import GraphQL.StringLiteral.Error
import GraphQL.Text.Character

/-!
# Quoted strings

A quoted string stands between two double quotes on one line and writes some characters as escapes. `decode` gives
the value of what stands between the quotes, `encode` writes a value; `Quoted.cook` and `Quoted.print` do the same
with the quotes.
-/

namespace GraphQL.Quoted

def isHexDigit (c : Char) : Bool := c.isDigit || ('a' ≤ c && c ≤ 'f') || ('A' ≤ c && c ≤ 'F')

def hexDigitValue (c : Char) : Nat :=
  if c.isDigit then c.toNat - '0'.toNat
  else if 'a' ≤ c then c.toNat - 'a'.toNat + 10
  else c.toNat - 'A'.toNat + 10

/-- The number that the digits write in base sixteen. -/
def hexValue (digits : List Char) : Nat := digits.foldl (fun n c => 16 * n + hexDigitValue c) 0

/-- The character with a code point, if it is a Unicode scalar value. -/
def scalar? (n : Nat) : Option Char := if n.isValidChar then some (Char.ofNat n) else none

def isLeadSurrogate (n : Nat) : Bool := 0xD800 ≤ n && n ≤ 0xDBFF

def isTrailSurrogate (n : Nat) : Bool := 0xDC00 ≤ n && n ≤ 0xDFFF

/-- The code point that two surrogates write together. -/
def surrogatePair (lead trail : Nat) : Nat := 0x10000 + (lead - 0xD800) * 0x400 + (trail - 0xDC00)

/-- The characters that a backslash and one more character write. -/
def shortEscape? : Char → Option Char
  | '"' => some '"'
  | '\\' => some '\\'
  | '/' => some '/'
  | 'b' => some '\x08'
  | 'f' => some '\x0c'
  | 'n' => some '\n'
  | 'r' => some '\r'
  | 't' => some '\t'
  | _ => none

private def badUnicode {α : Type} (text : List Char) : Except StringError α :=
  .error (.invalidUnicodeEscape ("\\u" ++ String.ofList text))

/-- Reads `n` more digits after the ones read so far, and gives all of them with the text that follows. -/
def readDigits (digits : List Char) : Nat → List Char → Except StringError (List Char × List Char)
  | 0, rest => .ok (digits, rest)
  | _ + 1, [] => badUnicode digits
  | n + 1, c :: rest =>
    if isHexDigit c then readDigits (digits ++ [c]) n rest else badUnicode (digits ++ [c])

/-- Reads digits up to a closing brace, at most eight of them. -/
def readBraced (digits : List Char) : List Char → Except StringError (List Char × List Char)
  | [] => badUnicode ('{' :: digits)
  | c :: rest =>
    if c = '}' then .ok (digits, rest)
    else if isHexDigit c ∧ digits.length < 8 then readBraced (digits ++ [c]) rest
    else badUnicode ('{' :: digits ++ [c])

/-- The character that a lead surrogate and the escape after it write. -/
def readTrail (lead : Nat) : List Char → Except StringError (Char × List Char)
  | '\\' :: 'u' :: rest => do
    let (digits, rest) ← readDigits [] 4 rest
    let trail := hexValue digits
    if isTrailSurrogate trail then pure (Char.ofNat (surrogatePair lead trail), rest)
    else badUnicode (codePointDigits lead).toList
  | _ => badUnicode (codePointDigits lead).toList

/-- Reads what follows a backslash and a `u`: digits between braces, or four digits, or four digits for a lead
surrogate and an escape of four digits for its trail. -/
def readUnicode : List Char → Except StringError (Char × List Char)
  | '{' :: text => do
    let (digits, rest) ← readBraced [] text
    match if digits = [] then none else scalar? (hexValue digits) with
    | some c => pure (c, rest)
    | none => badUnicode ('{' :: digits ++ ['}'])
  | text => do
    let (digits, rest) ← readDigits [] 4 text
    let lead := hexValue digits
    match scalar? lead with
    | some c => pure (c, rest)
    | none => if isLeadSurrogate lead then readTrail lead rest else badUnicode (codePointDigits lead).toList

theorem readDigits_length {digits result : List Char} {n : Nat} {text rest : List Char}
    (h : readDigits digits n text = .ok (result, rest)) : rest.length + n = text.length := by
  fun_induction readDigits digits n text with
  | case1 => simp_all
  | case2 => simp [badUnicode] at h
  | case3 _ _ _ _ _ ih => simp [← ih h, Nat.add_assoc]
  | case4 => simp [badUnicode] at h

theorem readBraced_length {digits result text rest : List Char}
    (h : readBraced digits text = .ok (result, rest)) : rest.length < text.length := by
  fun_induction readBraced digits text with
  | case1 => simp [badUnicode] at h
  | case2 => simp_all
  | case3 _ _ _ _ _ ih => exact Nat.lt_succ_of_lt (ih h)
  | case4 => simp [badUnicode] at h

private theorem readTrail_length {lead : Nat} {text rest : List Char} {c : Char}
    (h : readTrail lead text = .ok (c, rest)) : rest.length < text.length := by
  unfold readTrail at h
  split at h
  · rename_i text
    match hd : readDigits [] 4 text with
    | .error _ => simp [hd, bind, Except.bind] at h
    | .ok (digits, rest') =>
      simp only [hd, bind, Except.bind] at h
      split at h
      · have := readDigits_length hd
        simp only [pure, Except.pure, Except.ok.injEq, Prod.mk.injEq] at h
        simp only [← h.2, List.length_cons]
        omega
      · simp [badUnicode] at h
  · simp [badUnicode] at h

theorem readUnicode_length {text rest : List Char} {c : Char} (h : readUnicode text = .ok (c, rest)) :
    rest.length < text.length := by
  unfold readUnicode at h
  split at h
  · rename_i text
    match hd : readBraced [] text with
    | .error _ => simp [hd, bind, Except.bind] at h
    | .ok (digits, rest') =>
      simp only [hd, bind, Except.bind] at h
      split at h
      · have := readBraced_length hd
        simp only [pure, Except.pure, Except.ok.injEq, Prod.mk.injEq] at h
        simp only [← h.2, List.length_cons]
        omega
      · simp [badUnicode] at h
  · match hd : readDigits [] 4 text with
    | .error _ => simp [hd, bind, Except.bind] at h
    | .ok (digits, rest') =>
      have := readDigits_length hd
      simp only [hd, bind, Except.bind] at h
      split at h
      · simp only [pure, Except.pure, Except.ok.injEq, Prod.mk.injEq] at h
        simp only [← h.2]
        omega
      · split at h
        · have := readTrail_length h
          omega
        · simp [badUnicode] at h

/-- The value of the text between the quotes. -/
def decode : List Char → Except StringError (List Char)
  | [] => .ok []
  | '\\' :: 'u' :: text =>
    match _h : readUnicode text with
    | .ok (c, rest) => (decode rest).map (c :: ·)
    | .error e => .error e
  | ['\\'] => .error (.invalidEscape "\\")
  | '\\' :: c :: rest =>
    match shortEscape? c with
    | some d => (decode rest).map (d :: ·)
    | none => .error (.invalidEscape (String.ofList ['\\', c]))
  | c :: rest => (decode rest).map (c :: ·)
termination_by text => text.length
decreasing_by
  · have := readUnicode_length _h
    simp only [List.length_cons]
    omega
  all_goals (simp only [List.length_cons]; omega)

/-- How one character is written between quotes. -/
def encodeChar (c : Char) : List Char :=
  if c = '"' then ['\\', '"']
  else if c = '\\' then ['\\', '\\']
  else if c = '\n' then ['\\', 'n']
  else if c = '\r' then ['\\', 'r']
  else if c = '\t' then ['\\', 't']
  else if c = '\x08' then ['\\', 'b']
  else if c = '\x0c' then ['\\', 'f']
  else if isControl c then '\\' :: 'u' :: (codePointDigits c.toNat).toList
  else [c]

/-- How a value is written between quotes. -/
def encode (value : List Char) : List Char := value.flatMap encodeChar

/-- The value of a literal with its quotes. -/
def cook (raw : String) : Except StringError String :=
  match between? ['"'] raw.toList with
  | some text => (decode text).map String.ofList
  | none => .error .unterminated

/-- The literal of a value, quotes included. -/
def print (value : String) : String := String.ofList ('"' :: encode value.toList ++ ['"'])

end GraphQL.Quoted
