/-!
# Character classes

The classes of characters that the lexical grammar and its messages distinguish.
-/

namespace GraphQL

/-- A letter of the ASCII alphabet or the underscore. -/
def isNameStart (c : Char) : Bool := c = '_' || c.isAlpha

/-- A character that may stand inside a name. -/
def isNameContinue (c : Char) : Bool := c = '_' || c.isAlphanum

def isLineTerminator (c : Char) : Bool := c = '\n' || c = '\r'

/-- A character of Unicode's general category `Cc`. -/
def isControl (c : Char) : Bool := c.toNat < 0x20 || (0x7F ≤ c.toNat && c.toNat < 0xA0)

/-- The ranges of Unicode's property `White_Space`. -/
def whiteSpaceRanges : List (Nat × Nat) :=
  [(0x09, 0x0D), (0x20, 0x20), (0x85, 0x85), (0xA0, 0xA0), (0x1680, 0x1680), (0x2000, 0x200A), (0x2028, 0x2029),
    (0x202F, 0x202F), (0x205F, 0x205F), (0x3000, 0x3000)]

/-- Characters that print as nothing although they are neither controls nor white space: the soft hyphen, the
joiners and marks of direction, and the invisible operators. -/
def invisibleRanges : List (Nat × Nat) :=
  [(0x00AD, 0x00AD), (0x200B, 0x200F), (0x202A, 0x202E), (0x2060, 0x2064)]

/-- Whether one of the ranges, ends included, holds the character. -/
def inRanges (ranges : List (Nat × Nat)) (c : Char) : Bool :=
  ranges.any fun (lo, hi) => lo ≤ c.toNat && c.toNat ≤ hi

def isWhiteSpace (c : Char) : Bool := inRanges whiteSpaceRanges c

/-- The number in base sixteen, in upper case and with at least four digits. -/
def codePointDigits (n : Nat) : String :=
  let digits := Nat.toDigits 16 n
  String.ofList ((List.replicate (4 - digits.length) '0' ++ digits).map Char.toUpper)

/-- A visible character between backticks stands for itself; an invisible one is written as an escape, and its code
point follows. -/
def describeChar (c : Char) : String :=
  if isControl c || (isWhiteSpace c && c ≠ ' ') || inRanges invisibleRanges c then
    let escape := "\\u\x7b" ++ String.ofList (Nat.toDigits 16 c.toNat) ++ "\x7d"
    "`" ++ escape ++ "` (U+" ++ codePointDigits c.toNat ++ ")"
  else "`" ++ c.toString ++ "`"

end GraphQL
