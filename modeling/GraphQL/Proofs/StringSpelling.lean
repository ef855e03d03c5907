import GraphQL.Proofs.TextReads

/-!
# String literals read back

The literal that is printed for a value is read as one token, which cooks to the value (`prints_quotedText`,
`prints_blockText`). A block literal keeps its value when a printer shifts its lines: its lines start with no
space or tab of their own, so the shift is the indentation that cooking takes away.
-/

namespace GraphQL

theorem between?_append {delimiter text : List Char} :
    between? delimiter (delimiter ++ text ++ delimiter) = some text := by
  have hlen : (delimiter ++ text ++ delimiter).length = delimiter.length + text.length + delimiter.length := by
    simp [Nat.add_assoc]
  rw [between?, if_pos]
  · simp only [hlen]
    rw [List.append_assoc, List.drop_left]
    have : delimiter.length + text.length + delimiter.length - 2 * delimiter.length = text.length := by omega
    rw [this, List.take_left]
  · refine ⟨by omega, by rw [List.append_assoc, List.take_left], ?_⟩
    have : (delimiter ++ text ++ delimiter).length - delimiter.length = (delimiter ++ text).length := by
      simp [Nat.add_comm]
    rw [this, List.drop_left]

/-- What stands between two delimiters makes up the text with them. -/
theorem between?_eq_some_iff {delimiter text body : List Char} :
    between? delimiter text = some body ↔ text = delimiter ++ body ++ delimiter := by
  constructor
  · intro h
    unfold between? at h
    dsimp only at h
    split at h
    · rename_i hparts
      obtain ⟨hlength, htake, hdrop⟩ := hparts
      obtain rfl := Option.some.inj h
      have hrest : (text.drop delimiter.length).drop (text.length - 2 * delimiter.length) = delimiter := by
        have hsum : delimiter.length + (text.length - 2 * delimiter.length) = text.length - delimiter.length := by
          omega
        rw [List.drop_drop, hsum, hdrop]
      calc text = text.take delimiter.length ++ text.drop delimiter.length := (List.take_append_drop ..).symm
        _ = delimiter ++ ((text.drop delimiter.length).take (text.length - 2 * delimiter.length) ++
              (text.drop delimiter.length).drop (text.length - 2 * delimiter.length)) := by
            rw [htake, List.take_append_drop]
        _ = delimiter ++ (text.drop delimiter.length).take (text.length - 2 * delimiter.length) ++ delimiter := by
            rw [hrest, List.append_assoc]
    · cases h
  · rintro rfl
    exact between?_append

namespace Quoted

/-- The four digits of a control character. -/
private theorem digits_of_control : ∀ n < 160,
    let digits := (List.replicate (4 - (Nat.toDigits 16 n).length) '0' ++ Nat.toDigits 16 n).map Char.toUpper
    digits.length = 4 ∧ digits.head? ≠ some '{' ∧ digits.all isHexDigit ∧ hexValue digits = n ∧
      digits.all fun c => c ≠ '"' && c ≠ '\\' && !isLineTerminator c := by
  decide +kernel

private theorem lt_of_isControl {c : Char} (h : isControl c = true) : c.toNat < 160 := by
  simp only [isControl, Bool.or_eq_true, Bool.and_eq_true, decide_eq_true_eq] at h
  omega

theorem readDigits_append {digits more : List Char} (h : digits.all isHexDigit = true) (text : List Char) :
    readDigits more digits.length (digits ++ text) = .ok (more ++ digits, text) := by
  induction digits generalizing more with
  | nil => simp [readDigits]
  | cons c digits ih =>
    simp only [List.all_cons, Bool.and_eq_true] at h
    rw [List.length_cons, List.cons_append, readDigits, if_pos h.1, ih h.2, List.append_assoc,
      List.singleton_append]

private theorem readUnicode_control {c : Char} (h : isControl c = true) (text : List Char) :
    readUnicode ((codePointDigits c.toNat).toList ++ text) = .ok (c, text) := by
  have hc := lt_of_isControl h
  obtain ⟨hlen, hhead, hhex, hvalue, -⟩ := digits_of_control c.toNat hc
  rw [codePointDigits, String.toList_ofList]
  generalize (List.replicate (4 - (Nat.toDigits 16 c.toNat).length) '0' ++
    Nat.toDigits 16 c.toNat).map Char.toUpper
    = digits at hlen hhead hhex hvalue
  have hread : readDigits [] digits.length (digits ++ text) = .ok ([] ++ digits, text) :=
    readDigits_append hhex text
  rw [hlen, List.nil_append] at hread
  have hscalar : scalar? c.toNat = some c := by
    have hvalid : c.toNat.isValidChar := c.valid
    simp [scalar?, hvalid]
  match digits, hlen, hhead with
  | d :: ds, hlen, hhead =>
    rw [readUnicode.eq_2]
    · rw [hread]
      simp [bind, Except.bind, hvalue, hscalar, pure, Except.pure]
    · rintro x heq
      simp only [List.cons_append, List.cons.injEq] at heq
      simp [heq.1] at hhead

private theorem decode_encodeChar (c : Char) (text : List Char) :
    decode (encodeChar c ++ text) = (decode text).map (c :: ·) := by
  unfold encodeChar
  by_cases hquote : c = '"'
  · subst hquote; simp [decode, shortEscape?]
  by_cases hbackslash : c = '\\'
  · subst hbackslash; simp [decode, shortEscape?]
  by_cases hn : c = '\n'
  · subst hn; simp [decode, shortEscape?]
  by_cases hr : c = '\r'
  · subst hr; simp [decode, shortEscape?]
  by_cases ht : c = '\t'
  · subst ht; simp [decode, shortEscape?]
  by_cases hb : c = '\x08'
  · subst hb; simp [decode, shortEscape?]
  by_cases hf : c = '\x0c'
  · subst hf; simp [decode, shortEscape?]
  simp only [hquote, hbackslash, hn, hr, ht, hb, hf, if_false]
  split
  · rename_i hcontrol
    rw [List.cons_append, List.cons_append, decode]
    split
    · rename_i d rest hread
      rw [readUnicode_control hcontrol] at hread
      obtain ⟨rfl, rfl⟩ := Prod.mk.inj (Except.ok.inj hread)
      rfl
    · rename_i e hread
      rw [readUnicode_control hcontrol] at hread
      cases hread
  · rw [List.singleton_append, decode]
    all_goals simp [hbackslash]

private theorem decode_encode (value : List Char) : decode (encode value) = .ok value := by
  induction value with
  | nil => simp [encode, decode]
  | cons c value ih =>
    have hencode : encode (c :: value) = encodeChar c ++ encode value := rfl
    rw [hencode, decode_encodeChar, ih]
    rfl

/-- The literal of a value cooks to the value. -/
theorem cook_quotedText (value : String) : cook (String.ofList (quotedText value)) = .ok value := by
  have h : between? ['"'] (['"'] ++ encode value.toList ++ ['"']) = some (encode value.toList) := between?_append
  rw [cook, String.toList_ofList]
  simp only [quotedText, List.cons_append, List.nil_append] at h ⊢
  rw [h]
  simp [decode_encode, Except.map]

theorem quotedLength_plain {c : Char} (h : c ≠ '"' ∧ c ≠ '\\' ∧ isLineTerminator c = false) (text : List Char) :
    quotedLength (c :: text) = ((quotedLength text).1 + 1, (quotedLength text).2) := by
  obtain ⟨hquote, hbackslash, hline⟩ := h
  simp only [isLineTerminator, Bool.or_eq_false_iff, decide_eq_false_iff_not] at hline
  rw [quotedLength.eq_6]
  all_goals simp_all

private theorem quotedLength_append {plain : List Char}
    (h : ∀ c ∈ plain, c ≠ '"' ∧ c ≠ '\\' ∧ isLineTerminator c = false) (text : List Char) :
    quotedLength (plain ++ text) = ((quotedLength text).1 + plain.length, (quotedLength text).2) := by
  induction plain with
  | nil => rfl
  | cons c plain ih =>
    rw [List.cons_append, quotedLength_plain (h c (by simp)), ih fun d hd => h d (by simp [hd]), List.length_cons]
    rfl

/-- Between quotes a character is taken whole, and it does not break the line. -/
theorem quotedLength_encodeChar (c : Char) (text : List Char) :
    quotedLength (encodeChar c ++ text) =
      ((quotedLength text).1 + (encodeChar c).length, (quotedLength text).2) ∧ '\n' ∉ encodeChar c := by
  unfold encodeChar
  by_cases hquote : c = '"'
  · subst hquote; simp [quotedLength, isLineTerminator]
  by_cases hbackslash : c = '\\'
  · subst hbackslash; simp [quotedLength, isLineTerminator]
  by_cases hn : c = '\n'
  · subst hn; simp [quotedLength, isLineTerminator]
  by_cases hr : c = '\r'
  · subst hr; simp [quotedLength, isLineTerminator]
  by_cases ht : c = '\t'
  · subst ht; simp [quotedLength, isLineTerminator]
  by_cases hb : c = '\x08'
  · subst hb; simp [quotedLength, isLineTerminator]
  by_cases hf : c = '\x0c'
  · subst hf; simp [quotedLength, isLineTerminator]
  simp only [hquote, hbackslash, hn, hr, ht, hb, hf, if_false]
  split
  · rename_i hcontrol
    obtain ⟨-, -, -, -, hplain⟩ := digits_of_control c.toNat (lt_of_isControl hcontrol)
    rw [codePointDigits, String.toList_ofList]
    generalize (List.replicate (4 - (Nat.toDigits 16 c.toNat).length) '0' ++
      Nat.toDigits 16 c.toNat).map Char.toUpper = digits at hplain
    -- the digits of an escape are plain characters
    have hplain' : ∀ d ∈ digits, d ≠ '"' ∧ d ≠ '\\' ∧ isLineTerminator d = false := by
      simpa [and_assoc] using hplain
    refine ⟨?_, ?_⟩
    · simp only [List.cons_append, quotedLength, isLineTerminator, quotedLength_append hplain', List.length_cons]
      simp [Nat.add_assoc]
    · simp only [List.mem_cons, not_or]
      refine ⟨by decide, by decide, ?_⟩
      intro hmem
      cases (hplain' _ hmem).2.2
  · refine ⟨?_, by simpa using fun h => hn h.symm⟩
    exact quotedLength_plain ⟨hquote, hbackslash, by simp [isLineTerminator, hn, hr]⟩ text

private theorem quotedLength_encode (value text : List Char) :
    quotedLength (encode value ++ '"' :: text) = ((encode value).length + 1, .closed) ∧ '\n' ∉ encode value := by
  induction value with
  | nil => simp [encode, quotedLength]
  | cons c value ih =>
    have hencode : encode (c :: value) = encodeChar c ++ encode value := rfl
    rw [hencode, List.append_assoc, (quotedLength_encodeChar c _).1, ih.1]
    refine ⟨by simp only [List.length_append, Prod.mk.injEq, and_true]; omega, ?_⟩
    simpa [not_or] using ⟨(quotedLength_encodeChar c []).2, ih.2⟩

/-- The spelling of a value does not start with a quote. -/
theorem head_encode (value : List Char) : (encode value).head? ≠ some '"' := by
  cases value with
  | nil => simp [encode]
  | cons c value =>
    have hencode : encode (c :: value) = encodeChar c ++ encode value := rfl
    rw [hencode, encodeChar]
    repeat' split
    all_goals simp_all

/-- The literal of a value is read as one token, where what follows does not run into it. -/
theorem read_encode (value : List Char) {rest : List Char} (h : Opens rest) :
    Lexeme.read '"' (encode value ++ '"' :: rest) =
      ⟨.string (String.ofList ('"' :: (encode value ++ ['"']))), '"' :: (encode value ++ ['"']), rest⟩ := by
  have hread : Lexeme.read '"' (encode value ++ '"' :: rest) =
      readString ('"' :: (encode value ++ '"' :: rest)) := rfl
  have hlen := (quotedLength_encode value rest).1
  rw [hread]
  unfold readString
  split
  · rename_i body heq
    have hhead := head_encode value
    cases hencode : encode value with
    | nil =>
      simp only [hencode, List.nil_append, List.cons.injEq, true_and] at heq
      exact absurd (opens_head h (by rw [heq]; rfl)).2.2 (by simp)
    | cons c cs =>
      simp only [hencode, List.cons_append, List.cons.injEq, true_and] at heq
      rw [hencode, heq.1] at hhead
      exact absurd rfl hhead
  · simp only [List.drop_one, List.tail_cons, hlen]
    have hsplit : '"' :: (encode value ++ '"' :: rest) = ('"' :: (encode value ++ ['"'])) ++ rest := by simp
    have hn : (encode value).length + 1 + 1 = ('"' :: (encode value ++ ['"'])).length := by simp
    rw [hsplit, hn, List.take_left, List.drop_left]

end Quoted

/-- A quoted literal is read as its value. -/
theorem prints_quotedText (value : String) : Prints (quotedText value) [.string value false] := fun k => by
  have hnewline : '\n' ∉ quotedText value := by
    simpa [quotedText] using (Quoted.quotedLength_encode value.toList []).2
  have hcook := Quoted.cook_quotedText value
  rw [shift_of_not_mem hnewline]
  have hread (rest : List Char) (hrest : Opens rest) :
      Lexeme.read '"' (Quoted.encode value.toList ++ ['"'] ++ rest) =
      ⟨.string (String.ofList (quotedText value)), quotedText value, rest⟩ := by
    rw [List.append_assoc, List.singleton_append, Quoted.read_encode _ hrest]
    rfl
  have hreads := Reads.lexeme_of_opens (by decide) (by decide) hread rfl
  simp only [Token.Kind.terminal, hcook] at hreads
  exact hreads

/-! ### Block literals -/

namespace Block

private theorem head_escape {x rest : List Char} (h : escape x = '"' :: rest) :
    ∃ y, x = '"' :: y ∧ rest = escape y := by
  unfold escape at h
  split at h
  · cases h
  · obtain ⟨rfl, rfl⟩ := List.cons.inj h
    exact ⟨_, rfl, rfl⟩
  · cases h

private theorem eq_nil_of_escape {x : List Char} (h : escape x = []) : x = [] := by
  unfold escape at h
  split at h
  · cases h
  · cases h
  · rfl

private theorem escape_not_triple (x rest : List Char) : escape x ≠ '"' :: '"' :: '"' :: rest := by
  intro h
  obtain ⟨y, rfl, hy⟩ := head_escape h
  obtain ⟨z, rfl, hz⟩ := head_escape hy.symm
  obtain ⟨w, rfl, -⟩ := head_escape hz.symm
  rw [escape] at h
  cases h

private theorem unescape_escape (x : List Char) : unescape (escape x) = x := by
  fun_induction escape x with
  | case1 rest ih => rw [unescape, ih]
  | case2 c rest hnot ih =>
    rw [unescape, ih]
    rintro r rfl heq
    exact escape_not_triple _ _ heq
  | case3 => rfl

/-- Only a text that starts with quotes starts with quotes after a shift. -/
theorem head_shift {k : Nat} {x rest : List Char} (h : shift k x = '"' :: rest) :
    ∃ y, x = '"' :: y ∧ rest = shift k y := by
  cases x with
  | nil => cases h
  | cons c x =>
    by_cases hc : c = '\n'
    · subst hc
      cases h
    · rw [shift_cons_of_ne hc] at h
      obtain ⟨rfl, rfl⟩ := List.cons.inj h
      exact ⟨x, rfl, rfl⟩

private theorem escape_cons {c : Char} {rest : List Char} (h : ∀ r, c = '"' → rest ≠ '"' :: '"' :: r) :
    escape (c :: rest) = c :: escape rest := by
  rw [escape.eq_2]
  rintro r rfl heq
  exact h r rfl heq

private theorem escape_spaces (k : Nat) (x : List Char) :
    escape (List.replicate k ' ' ++ x) = List.replicate k ' ' ++ escape x := by
  induction k with
  | zero => rfl
  | succ k ih => rw [List.replicate_succ, List.cons_append, escape_cons (by simp), ih, List.cons_append]

private theorem escape_shift (k : Nat) (x : List Char) : escape (shift k x) = shift k (escape x) := by
  fun_induction escape x with
  | case1 rest ih =>
    simp only [shift_cons_of_ne (show ('"' : Char) ≠ '\n' by decide),
      shift_cons_of_ne (show '\\' ≠ '\n' by decide), escape, ih]
  | case2 c rest hnot ih =>
    by_cases hc : c = '\n'
    · subst hc
      rw [shift_cons_newline, shift_cons_newline, escape_cons (by simp), escape_spaces, ih]
    · rw [shift_cons_of_ne hc, shift_cons_of_ne hc, escape_cons, ih]
      rintro r rfl heq
      obtain ⟨y, rfl, hy⟩ := head_shift heq
      obtain ⟨z, rfl, -⟩ := head_shift hy.symm
      exact hnot z rfl rfl
  | case3 => rfl

theorem blockLength_cons {c : Char} {rest : List Char}
    (h : ∀ r, c = '"' → rest ≠ '"' :: '"' :: r) (escaped : Bool) :
    blockLength escaped (c :: rest) = ((blockLength (c = '\\') rest).1 + 1, (blockLength (c = '\\') rest).2) := by
  rw [blockLength.eq_2]
  rintro r rfl heq
  exact h r rfl heq

private theorem blockLength_escaped (rest : List Char) :
    blockLength true ('"' :: '"' :: '"' :: rest) =
      ((blockLength false rest).1 + 3, (blockLength false rest).2) := rfl

/-- A quote that begins no triple quote of a text which ends in no quote begins none of the literal. -/
theorem escape_append_ne {y : List Char} (hquote : ('"' :: y).getLast? ≠ some '"')
    (hnot : ∀ z, y ≠ '"' :: '"' :: z) (rest r : List Char) :
    escape y ++ (tripleQuote ++ rest) ≠ '"' :: '"' :: r := by
  intro heq
  -- the text ends in no quote, so both quotes are its own
  cases hy : escape y with
  | nil =>
    obtain rfl := eq_nil_of_escape hy
    exact hquote rfl
  | cons d ds =>
    rw [hy] at heq
    obtain ⟨rfl, hds⟩ := List.cons.inj heq
    obtain ⟨z, rfl, rfl⟩ := head_escape hy
    cases z with
    | nil => exact hquote rfl
    | cons e z =>
      cases hz : escape (e :: z) with
      | nil => cases eq_nil_of_escape hz
      | cons f fs =>
        rw [hz] at hds
        obtain ⟨rfl, -⟩ := List.cons.inj hds
        obtain ⟨w, hw, -⟩ := head_escape hz
        obtain ⟨rfl, rfl⟩ := List.cons.inj hw
        exact hnot _ rfl

/-- The first triple quote that is not escaped is the closing one. -/
theorem blockLength_escape {x : List Char} (hquote : x.getLast? ≠ some '"') (hbackslash : x.getLast? ≠ some '\\')
    (rest : List Char) (escaped : Bool) (h : x = [] → escaped = false) :
    blockLength escaped (escape x ++ (tripleQuote ++ rest)) = ((escape x).length + 3, .closed) := by
  fun_induction escape x generalizing escaped with
  | case1 y ih =>
    have hy : y ≠ [] := by
      rintro rfl
      exact hquote rfl
    have hlast : ('"' :: '"' :: '"' :: y).getLast? = y.getLast? := by
      simp [List.getLast?_cons, List.getLast?_eq_some_getLast hy]
    rw [hlast] at hquote hbackslash
    simp only [List.cons_append]
    rw [blockLength_cons (by simp), decide_eq_true rfl, blockLength_escaped,
      ih hquote hbackslash false fun h => absurd h hy]
    simp
  | case2 c y hnot ih =>
    have hnext : ∀ r, c = '"' → escape y ++ (tripleQuote ++ rest) ≠ '"' :: '"' :: r := by
      rintro r rfl
      exact escape_append_ne hquote (fun z => hnot z rfl) rest r
    have hlast : y ≠ [] → (c :: y).getLast? = y.getLast? := fun hy => by
      simp [List.getLast?_cons, List.getLast?_eq_some_getLast hy]
    rw [List.cons_append, blockLength_cons hnext]
    by_cases hy : y = []
    · subst hy
      have hc : c ≠ '\\' := fun hc => hbackslash (by rw [hc]; rfl)
      rw [ih (by simp) (by simp) _ fun _ => decide_eq_false hc]
      rfl
    · rw [hlast hy] at hquote hbackslash
      rw [ih hquote hbackslash _ fun h => absurd h hy]
      simp [Nat.add_right_comm]
  | case3 =>
    rw [h rfl]
    rfl

/-- The block literal of a value is read as one token. -/
theorem read_escape {x : List Char} (hquote : x.getLast? ≠ some '"') (hbackslash : x.getLast? ≠ some '\\')
    (rest : List Char) :
    Lexeme.read '"' ('"' :: '"' :: (escape x ++ (tripleQuote ++ rest))) =
      ⟨.blockString (String.ofList (tripleQuote ++ escape x ++ tripleQuote)),
        tripleQuote ++ escape x ++ tripleQuote, rest⟩ := by
  have hread : Lexeme.read '"' ('"' :: '"' :: (escape x ++ (tripleQuote ++ rest))) =
      readString ('"' :: '"' :: '"' :: (escape x ++ (tripleQuote ++ rest))) := rfl
  have hlen := blockLength_escape hquote hbackslash rest false fun _ => rfl
  have hsplit : '"' :: '"' :: '"' :: (escape x ++ (tripleQuote ++ rest)) =
      (tripleQuote ++ escape x ++ tripleQuote) ++ rest := by simp [tripleQuote]
  have hn : (escape x).length + 3 + 3 = (tripleQuote ++ escape x ++ tripleQuote).length := by
    simp [tripleQuote]
  rw [hread]
  simp only [readString, hlen]
  rw [hsplit, hn, List.take_left, List.drop_left]

/-! ### Lines and indentation -/

theorem lines_newline (text : List Char) : lines ('\n' :: text) = [] :: lines text :=
  lines_terminator rfl (by simp)

theorem lines_append {plain : List Char} (h : ∀ c ∈ plain, isLineTerminator c = false) {text first : List Char}
    {rest : List (List Char)} (htext : lines text = first :: rest) :
    lines (plain ++ text) = (plain ++ first) :: rest := by
  induction plain with
  | nil => exact htext
  | cons c plain ih =>
    rw [List.cons_append, lines_cons (h c (by simp)), ih fun d hd => h d (by simp [hd])]
    rfl

/-- A shift moves every line but the first. -/
theorem lines_shift {x : List Char} (h : '\r' ∉ x) (k : Nat) : ∃ first rest, lines x = first :: rest ∧
    lines (shift k x) = first :: rest.map (List.replicate k ' ' ++ ·) := by
  induction x with
  | nil => exact ⟨[], [], rfl, rfl⟩
  | cons c x ih =>
    simp only [List.mem_cons, not_or] at h
    obtain ⟨first, rest, hx, hshift⟩ := ih h.2
    by_cases hc : c = '\n'
    · subst hc
      refine ⟨[], first :: rest, by rw [lines_newline, hx], ?_⟩
      rw [shift_cons_newline, lines_newline, lines_append (fun d hd => by
        rw [(List.mem_replicate.1 hd).2]
        rfl) hshift]
      rfl
    · have hterminator : isLineTerminator c = false := by simp [isLineTerminator, hc, Ne.symm h.1]
      refine ⟨c :: first, rest, by rw [lines_cons hterminator, hx]; rfl, ?_⟩
      rw [shift_cons_of_ne hc, lines_cons hterminator, hshift]
      rfl

private theorem intercalate_lines {x : List Char} (h : '\r' ∉ x) : ['\n'].intercalate (lines x) = x := by
  induction x with
  | nil => rfl
  | cons c x ih =>
    simp only [List.mem_cons, not_or] at h
    obtain ⟨first, rest, hx⟩ := List.exists_cons_of_ne_nil (lines_ne_nil x)
    have hih := ih h.2
    rw [hx] at hih
    by_cases hc : c = '\n'
    · subst hc
      rw [lines_newline, hx, List.intercalate_cons_cons, hih]
      rfl
    · have hterminator : isLineTerminator c = false := by simp [isLineTerminator, hc, Ne.symm h.1]
      rw [lines_cons hterminator, hx, consToHead]
      cases rest with
      | nil => simpa using hih
      | cons second rest =>
        rw [List.intercalate_cons_cons] at hih ⊢
        rw [← hih]
        rfl

private theorem indentation_shifted {line : List Char} (h : line.head?.any isIndent = false) (k : Nat) :
    indentation (List.replicate k ' ' ++ line) = k := by
  have hspan := span_append (p := isIndent) (y := List.replicate k ' ') (z := line)
    (fun c hc => by rw [(List.mem_replicate.1 hc).2]; rfl) fun c hc => by
      rw [Option.mem_def.1 hc] at h
      exact h
  rw [indentation, hspan.1, List.length_replicate]

private theorem isBlankLine_shifted (line : List Char) (k : Nat) :
    isBlankLine (List.replicate k ' ' ++ line) = isBlankLine line := by
  have h : (List.replicate k ' ').all isIndent = true := by simp [isIndent]
  rw [isBlankLine, List.all_append, h, Bool.true_and, isBlankLine]

private theorem outdent_shifted (line : List Char) (k : Nat) : outdent k (List.replicate k ' ' ++ line) = line := by
  rw [outdent, if_neg (by simp), List.drop_left' List.length_replicate]

/-- Lines that start with no space or tab share just what they are shifted by. -/
theorem commonIndent_shifted {k : Nat} {rest : List (List Char)}
    (hindent : ∀ line ∈ rest, line.head?.any isIndent = false) (hblank : ∃ line ∈ rest, isBlankLine line = false) :
    commonIndent (rest.map (List.replicate k ' ' ++ ·)) = k := by
  -- the blank lines do not count, and one line is not blank
  obtain ⟨line, hline, hnot⟩ := hblank
  have hall : ∀ n ∈ ((rest.map (List.replicate k ' ' ++ ·)).filter (!isBlankLine ·)).map indentation, n = k := by
    intro n hn
    obtain ⟨shifted, hshifted, rfl⟩ := List.mem_map.1 hn
    obtain ⟨l, hl, rfl⟩ := List.mem_map.1 (List.mem_filter.1 hshifted).1
    exact indentation_shifted (hindent l hl) k
  have hmem : k ∈ ((rest.map (List.replicate k ' ' ++ ·)).filter (!isBlankLine ·)).map indentation :=
    List.mem_map.2 ⟨List.replicate k ' ' ++ line, List.mem_filter.2
      ⟨List.mem_map_of_mem hline, by rw [isBlankLine_shifted, hnot]; rfl⟩,
        indentation_shifted (hindent line hline) k⟩
  rw [commonIndent, List.min?_eq_some_iff.2 ⟨hmem, fun n hn => Nat.le_of_eq (hall n hn).symm⟩, Option.getD_some]

theorem trimBlank_eq {all : List (List Char)} (hhead : all.head?.any isBlankLine = false)
    (hlast : all.getLast?.any isBlankLine = false) : trimBlank all = all := by
  have hdrop {l : List (List Char)} (h : l.head?.any isBlankLine = false) : l.dropWhile isBlankLine = l := by
    cases l with
    | nil => rfl
    | cons line rest => exact List.dropWhile_cons_of_neg (by simpa using h)
  rw [trimBlank, hdrop hhead, hdrop (by rwa [List.head?_reverse]), List.reverse_reverse]

structure Printable (value : List Char) : Prop where
  head : (lines value).head?.any isBlankLine = false
  last : (lines value).getLast?.any isBlankLine = false
  quote : value.getLast? ≠ some '"'
  backslash : value.getLast? ≠ some '\\'
  noReturn : '\r' ∉ value
  indent : ∀ line ∈ (lines value).drop 1, line.head?.any isIndent = false

theorem printable_of_isPrintable {value : List Char} (h : isPrintable value = true) : Printable value := by
  simp only [isPrintable, Bool.and_eq_true, Bool.not_eq_true', decide_eq_true_eq, List.all_eq_true] at h
  obtain ⟨⟨⟨⟨⟨hhead, hlast⟩, hquote⟩, hbackslash⟩, hplain⟩, hindent⟩ := h
  refine ⟨hhead, hlast, hquote, hbackslash, fun hr => ?_, hindent⟩
  have := hplain _ hr
  revert this
  decide

private theorem getLast?_shift {x : List Char} {c : Char} (h : x.getLast? ≠ some c) (hc : c ≠ ' ' ∧ c ≠ '\n')
    (k : Nat) : (shift k x).getLast? ≠ some c := by
  rcases List.eq_nil_or_concat x with rfl | ⟨y, d, rfl⟩
  · simp
  · intro hlast
    rw [List.concat_eq_append] at h hlast
    have hd : d ≠ c := by simpa using h
    -- the shift of the last character is of that character or of blanks after a line break
    have hmem : c ∈ shift k [d] := by
      rw [shift_append, List.getLast?_append, List.getLast?_eq_some_getLast (by simp [shift_eq_nil])] at hlast
      rw [← Option.some.inj hlast]
      exact List.getLast_mem _
    by_cases hn : d = '\n'
    · subst hn
      rw [shift_cons_newline, shift_nil, List.append_nil, List.mem_cons, List.mem_replicate] at hmem
      rcases hmem with h | ⟨-, h⟩
      · exact hc.2 h
      · exact hc.1 h
    · rw [shift_cons_of_ne hn, shift_nil, List.mem_singleton] at hmem
      exact hd hmem.symm

/-- However far its lines are shifted, the block literal of a printable value gives the value back. -/
theorem value_lines_shift {x : List Char} (h : Printable x) (k : Nat) : value (lines (shift k x)) = x := by
  obtain ⟨first, rest, hx, hshift⟩ := lines_shift h.noReturn k
  have hrest : (rest.map (List.replicate k ' ' ++ ·)).map
      (outdent (commonIndent (rest.map (List.replicate k ' ' ++ ·)))) = rest := by
    -- the last line is not blank, so the shift is what the lines after the first share
    cases hempty : rest with
    | nil => rfl
    | cons line more =>
      rw [← hempty]
      have hlast := h.last
      rw [hx, List.getLast?_cons_of_ne_nil (by simp [hempty])] at hlast
      rw [commonIndent_shifted, List.map_map]
      · conv => rhs; rw [← List.map_id rest]
        exact List.map_congr_left fun line _ => outdent_shifted line k
      · have := h.indent
        rw [hx] at this
        exact this
      · obtain ⟨l, hl⟩ : ∃ l, rest.getLast? = some l := ⟨_, List.getLast?_eq_some_getLast (by simp [hempty])⟩
        exact ⟨l, List.mem_of_getLast? hl, by simpa [hl] using hlast⟩
  have htrim := trimBlank_eq h.head h.last
  rw [hx] at htrim
  rw [hshift, value, hrest, htrim, ← hx, intercalate_lines h.noReturn]

/-- The block literal of a value is shifted inside its quotes. -/
theorem shift_literal (k : Nat) (x : List Char) :
    shift k (tripleQuote ++ escape x ++ tripleQuote) = tripleQuote ++ escape (shift k x) ++ tripleQuote := by
  rw [shift_append, shift_append, escape_shift, shift_of_not_mem (by decide)]

/-- However far its lines are shifted, the block literal of a printable value is read as one token. -/
theorem read_shift {x : List Char} (h : Printable x) (k : Nat) (rest : List Char) :
    Lexeme.read '"' ('"' :: '"' :: (escape (shift k x) ++ tripleQuote) ++ rest) =
      ⟨.blockString (String.ofList (tripleQuote ++ escape (shift k x) ++ tripleQuote)),
        tripleQuote ++ escape (shift k x) ++ tripleQuote, rest⟩ := by
  simp only [List.cons_append, List.append_assoc]
  rw [read_escape (getLast?_shift h.quote (by decide) k) (getLast?_shift h.backslash (by decide) k) rest,
    List.append_assoc]

theorem cook_shift {value : String} (h : Printable value.toList) (k : Nat) :
    cook (String.ofList (tripleQuote ++ escape (shift k value.toList) ++ tripleQuote)) = .ok value := by
  rw [cook, String.toList_ofList, between?_append]
  simp only [decode, unescape_escape, value_lines_shift h, String.ofList_toList]

end Block

/-- A block literal is read as its value, however far its lines are shifted. -/
theorem prints_blockText {value : String} (h : Block.isPrintable value.toList = true) :
    Prints (Block.tripleQuote ++ Block.escape value.toList ++ Block.tripleQuote) [.string value true] := by
  intro k
  have hp := Block.printable_of_isPrintable h
  have hreads := Reads.lexeme_of_opens (by decide) (by decide) (fun rest _ => Block.read_shift hp k rest) rfl
  rw [Block.shift_literal]
  simp only [Token.Kind.terminal, Block.cook_shift hp] at hreads
  exact hreads

end GraphQL
