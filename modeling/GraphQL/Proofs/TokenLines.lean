import GraphQL.Proofs.LineFeeds

/-!
# Tokens on one line

Every token but the end of the input is a lexeme that is read where no separator stands (`exists_lexeme`). A lexeme
holds no line terminator unless it is a block string, closed or not, or a quoted string that its line's end cuts off:
the error for such a string takes a line feed along, and stops in front of a carriage return (`quotedLength_cut`).
So all other tokens end on the line that they start on (`tokens_on_one_line`).
-/

namespace GraphQL

private theorem startsToken_ignored (text : List Char) : StartsToken (ignored text).2 := by
  rcases exists_gap text with h | ⟨gap, rest, rfl, hgap, hrest⟩
  · rw [ignored_lastGap h]
    simp [StartsToken]
  · rw [ignored_gap_append hgap, ignored_of_startsToken hrest]
    exact hrest

private theorem exists_lexeme_of_tokensFrom {source : String} {before text : List Char}
    (h : source.toList = before ++ text)
    {t : Token} (ht : t ∈ tokensFrom (.behind before) text) :
    t = ⟨.endOfInput, .emptyAt (.after source.toList)⟩ ∨
      ∃ front ch rest, source.toList = front ++ ch :: rest ∧ StartsToken (ch :: rest) ∧
        t = ⟨(Lexeme.read ch rest).kind, ⟨.after front, .after (front ++ (Lexeme.read ch rest).text)⟩⟩ := by
  induction hn : text.length using Nat.strongRecOn generalizing before text with
  | ind n ih =>
    have hsplit := ignored_append text
    have hstarts := startsToken_ignored text
    have hshort := ignored_rest_length text
    rw [tokensFrom_eq, Cursor.after_behind] at ht
    cases hrest : (ignored text).2 with
    | nil =>
      rw [hrest, List.append_nil] at hsplit
      rw [hrest, hsplit, ← h] at ht
      exact .inl (List.mem_singleton.1 ht)
    | cons ch rest =>
      rw [hrest] at hsplit hstarts hshort ht
      have hsource : source.toList = before ++ (ignored text).1 ++ ch :: rest := by
        rw [h, List.append_assoc, hsplit]
      have hread := Lexeme.read_rest_length ch rest
      rw [List.length_cons] at hshort
      simp only [tokensAt, Cursor.after_behind] at ht
      have hfirst := (⟨_, ch, rest, hsource, hstarts, rfl⟩ : ∃ front d rest', source.toList = front ++ d :: rest' ∧
        StartsToken (d :: rest') ∧ (⟨(Lexeme.read ch rest).kind, ⟨.after (before ++ (ignored text).1),
          .after (before ++ (ignored text).1 ++ (Lexeme.read ch rest).text)⟩⟩ : Token) =
          ⟨(Lexeme.read d rest').kind, ⟨.after front, .after (front ++ (Lexeme.read d rest').text)⟩⟩)
      split at ht
      · rw [List.mem_singleton.1 ht]
        exact .inr hfirst
      · rcases List.mem_cons.1 ht with rfl | ht
        · exact .inr hfirst
        · refine ih _ (by omega) ?_ ht rfl
          rw [hsource, List.append_assoc _ _ (Lexeme.read ch rest).rest, Lexeme.read_append]

/-- A token is the end of the input, or it is read where no separator stands. -/
theorem exists_lexeme {source : String} {t : Token} (ht : t ∈ tokens source) :
    t = ⟨.endOfInput, .emptyAt (.after source.toList)⟩ ∨
      ∃ front ch rest, source.toList = front ++ ch :: rest ∧ StartsToken (ch :: rest) ∧
        t = ⟨(Lexeme.read ch rest).kind, ⟨.after front, .after (front ++ (Lexeme.read ch rest).text)⟩⟩ :=
  exists_lexeme_of_tokensFrom (List.nil_append _).symm ht

/-- Texts in front of two places of a source are the same when they have as many bytes. -/
theorem append_inj_of_offset {front rest front' rest' : List Char} (h : front ++ rest = front' ++ rest')
    (hoffset : (Position.after front).offset = (Position.after front').offset) : front = front' ∧ rest = rest' := by
  have hbytes : utf8Length front = utf8Length front' := hoffset
  have hrest := dropBytes_append front rest
  rw [h, hbytes, dropBytes_append, Option.some.injEq] at hrest
  exact ⟨List.append_cancel_right (hrest ▸ h), hrest.symm⟩

/-- A token is the lexeme that is read behind the text in front of it. -/
theorem eq_read_of_first {source : String} {t : Token} (ht : t ∈ tokens source) {front rest : List Char} {ch : Char}
    (hsource : source.toList = front ++ ch :: rest) (hfirst : t.span.first = .after front) :
    t = ⟨(Lexeme.read ch rest).kind, ⟨.after front, .after (front ++ (Lexeme.read ch rest).text)⟩⟩ := by
  rcases exists_lexeme ht with rfl | ⟨front', ch', rest', hsource', -, rfl⟩
  · have hend : front ++ ch :: rest = source.toList ++ [] := by rw [List.append_nil, hsource]
    have hfirst' : Position.after source.toList = .after front := hfirst
    exact absurd (append_inj_of_offset hend (congrArg Position.offset hfirst'.symm)).2 (List.cons_ne_nil ch rest)
  · have hparts : front ++ ch :: rest = front' ++ ch' :: rest' := hsource.symm.trans hsource'
    have hfirst' : Position.after front' = .after front := hfirst
    obtain ⟨rfl, htext⟩ := append_inj_of_offset hparts (congrArg Position.offset hfirst'.symm)
    obtain ⟨rfl, rfl⟩ := List.cons.inj htext
    rfl

/-- Nothing is read after an error. -/
theorem exists_eq_append_of_isError {source : String} {t : Token} (ht : t ∈ tokens source)
    (herror : t.kind.isError = true) : ∃ ts, tokens source = ts ++ [t] := by
  obtain ⟨us, e, htokens, -, hus⟩ := (tiles_tokens source).exists_last
  rw [htokens] at ht
  rcases List.mem_append.1 ht with hu | he
  · exact absurd (.inr herror) (hus t hu)
  · exact ⟨us, by rw [htokens, List.mem_singleton.1 he]⟩

theorem StartsToken.isLineTerminator_eq_false {ch : Char} {rest : List Char} (h : StartsToken (ch :: rest)) :
    isLineTerminator ch = false := by
  rw [← Bool.not_eq_true]
  intro hterminator
  obtain ⟨hblank, -⟩ := h ch rfl
  rw [isBlank_of_isLineTerminator hterminator] at hblank
  cases hblank

private theorem Position.line_append_inline (s : List Char) {text : List Char}
    (h : ∀ ch ∈ text, isLineTerminator ch = false) : (after (s ++ text)).line = (after s).line := by
  have hbehind := Cursor.after_behind s text
  rw [← Cursor.along_eq h] at hbehind
  exact (congrArg (·.position.line) hbehind).symm

private theorem Position.line_append_feed {s : List Char} (h : s.getLast? ≠ some '\r') :
    (after (s ++ ['\n'])).line = (after s).line + 1 := by
  have hstep := Cursor.step_behind s '\n'
  have hreturn : (Cursor.behind s).afterReturn = false := by simpa [Cursor.behind] using h
  rw [Cursor.step, hreturn] at hstep
  exact (congrArg (·.position.line) hstep).symm

namespace Number

/-- Whatever stops a number, all that is taken are characters of numbers and names. -/
theorem isTail_of_mem_reached {r : Except NumberStop Scan} {f : Scan → Except NumberStop Scan}
    (hr : ∀ d ∈ (reached r).taken, isTail d)
    (hf : ∀ s : Scan, (∀ d ∈ s.taken, isTail d) → ∀ d ∈ (reached (f s)).taken, isTail d) :
    ∀ d ∈ (reached (r >>= f)).taken, isTail d := by
  cases r with
  | ok s => exact hf s hr
  | error e => exact hr

private theorem isTail_takeIf {p : Char → Bool} (hp : ∀ d, p d → isTail d) {s : Scan} (h : ∀ d ∈ s.taken, isTail d) :
    ∀ d ∈ (s.takeIf p).taken, isTail d := by
  unfold Scan.takeIf
  split
  · rename_i c rest _
    split
    · rename_i hc
      intro d hd
      rcases List.mem_append.1 hd with hd | hd
      · exact h d hd
      · rw [List.mem_singleton.1 hd]
        exact hp c hc
    · exact h
  · exact h

private theorem isTail_takeWhile {p : Char → Bool} (hp : ∀ d, p d → isTail d) {s : Scan} (h : ∀ d ∈ s.taken, isTail d) :
    ∀ d ∈ (s.takeWhile p).taken, isTail d := by
  intro d hd
  rcases List.mem_append.1 hd with hd | hd
  · exact h d hd
  · exact hp d (all_of_mem_takeWhile hd)

private theorem isTail_scan (text : List Char) : ∀ d ∈ (reached (scan text)).taken, isTail d := by
  have hsign : ∀ d : Char, (d = '-' : Bool) → isTail d := by simp [isTail]
  have hzero : ∀ d : Char, (d = '0' : Bool) → isTail d := by simp [isTail, Char.isAlphanum]
  have hdot : ∀ d : Char, (d = '.' : Bool) → isTail d := by simp [isTail]
  have hexponent : ∀ d : Char, (d = 'e' || d = 'E' : Bool) → isTail d := by
    intro d hd
    rcases (by simpa using hd : d = 'e' ∨ d = 'E') with rfl | rfl <;> rfl
  have hsigns : ∀ d : Char, (d = '+' || d = '-' : Bool) → isTail d := by
    intro d hd
    rcases (by simpa using hd : d = '+' ∨ d = '-') with rfl | rfl <;> rfl
  refine isTail_of_mem_reached ?_ fun s hs => isTail_of_mem_reached ?_ fun s hs => isTail_of_mem_reached ?_ ?_
  · have hminus : ∀ d ∈ (Scan.takeIf (· = '-') ⟨[], text⟩).taken, isTail d := isTail_takeIf hsign (by simp)
    simp only [integerPart, unsignedPart]
    split
    · split <;> exact isTail_takeIf hzero hminus
    · split
      · exact isTail_takeWhile isTail_of_isDigit hminus
      · exact hminus
  · simp only [fractionPart]
    split
    · split
      · exact isTail_takeWhile isTail_of_isDigit (isTail_takeIf hdot hs)
      · exact isTail_takeIf hdot hs
    · exact hs
  · simp only [exponentPart]
    split
    · split
      · exact isTail_takeWhile isTail_of_isDigit (isTail_takeIf hsigns (isTail_takeIf hexponent hs))
      · exact isTail_takeIf hsigns (isTail_takeIf hexponent hs)
    · exact hs
  · intro s hs
    unfold boundary
    split <;> exact hs

private theorem isTail_read (text : List Char) : ∀ d ∈ (read text).text, isTail d := by
  have h := isTail_scan text
  unfold read
  split <;> rename_i heq <;> rw [heq] at h
  · exact h
  · exact h
  · exact isTail_takeWhile (fun _ => id) h

end Number

/-- The kind of token that a quoted string makes. -/
def StringEnd.kind (literal : String) : StringEnd → Token.Kind
  | closed => .string literal
  | endOfLine => .error .stringAtEndOfLine
  | endOfInput => .error .stringAtEndOfInput

/-- The token of a text that starts with one quote, or with two and no third. -/
theorem readString_eq {rest : List Char} (h : ∀ body, rest ≠ '"' :: '"' :: body) {n : Nat} {stop : StringEnd}
    (hlength : quotedLength rest = (n, stop)) : (readString ('"' :: rest)).text = '"' :: rest.take n ∧
      (readString ('"' :: rest)).kind = stop.kind (String.ofList ('"' :: rest.take n)) := by
  cases stop <;> simp [readString, h, hlength, StringEnd.kind]

/-- The token of a text that starts with three quotes. -/
theorem readString_block_kind (body : List Char) : (∃ raw, (readString ('"' :: '"' :: '"' :: body)).kind =
    .blockString raw) ∨ (readString ('"' :: '"' :: '"' :: body)).kind = .error .blockStringAtEndOfInput := by
  simp only [readString]
  split
  · exact .inl ⟨_, rfl⟩
  · exact .inr rfl

/-- A kind of token that may hold line terminators. -/
def Token.Kind.IsBlock (kind : Token.Kind) : Prop :=
  (∃ raw, kind = .blockString raw) ∨ kind = .error .blockStringAtEndOfInput

/-- A quoted string stands on one line but for a line feed that cuts it off. -/
theorem readString_inline {rest : List Char} (hblock : ¬ (readString ('"' :: rest)).kind.IsBlock)
    (hcut : (readString ('"' :: rest)).kind ≠ .error .stringAtEndOfLine) :
    ∀ d ∈ (readString ('"' :: rest)).text, isLineTerminator d = false := by
  have hnot : ∀ body, rest ≠ '"' :: '"' :: body := by
    rintro body rfl
    exact hblock (readString_block_kind body)
  cases hlength : quotedLength rest with
  | mk n stop =>
    obtain ⟨htext, hkind⟩ := readString_eq hnot hlength
    obtain ⟨body, tail, rfl, hparts⟩ := exists_stringParts hlength
    rw [htext]
    cases stop with
    | closed => simpa [isLineTerminator, hparts.closed rfl] using hparts.inline
    | endOfLine => exact absurd hkind hcut
    | endOfInput => simpa [isLineTerminator, (hparts.endOfInput rfl).2] using hparts.inline

private theorem readString_cut_off {rest : List Char}
    (h : (readString ('"' :: rest)).kind = .error .stringAtEndOfLine) :
    ∃ body terminator tail, rest = body ++ terminator :: tail ∧ (∀ d ∈ body, isLineTerminator d = false) ∧
      (terminator = '\n' ∧ (readString ('"' :: rest)).text = '"' :: body ++ ['\n'] ∨
        terminator = '\r' ∧ (readString ('"' :: rest)).text = '"' :: body) := by
  have hnot : ∀ body, rest ≠ '"' :: '"' :: body := by
    rintro body rfl
    rcases readString_block_kind body with ⟨raw, hraw⟩ | hopen
    · rw [hraw] at h
      cases h
    · rw [hopen] at h
      cases h
  cases hlength : quotedLength rest with
  | mk n stop =>
    obtain ⟨htext, hkind⟩ := readString_eq hnot hlength
    obtain ⟨body, tail, rfl, hparts⟩ := exists_stringParts hlength
    rw [hkind] at h
    cases stop with
    | closed => cases h
    | endOfInput => cases h
    | endOfLine =>
      rcases hparts.endOfLine rfl with ⟨hhead, rfl⟩ | ⟨hhead, rfl⟩
      · obtain ⟨tail, rfl⟩ := List.head?_eq_some_iff.1 hhead
        refine ⟨body, '\n', tail, rfl, hparts.inline, .inl ⟨rfl, ?_⟩⟩
        simp [htext, List.take_append, List.take_of_length_le]
      · obtain ⟨tail, rfl⟩ := List.head?_eq_some_iff.1 hhead
        exact ⟨body, '\r', tail, rfl, hparts.inline, .inr ⟨rfl, by simp [htext]⟩⟩

private theorem readDots_inline (rest : List Char) :
    ∀ d ∈ (readDots ('.' :: rest)).text, isLineTerminator d = false := by
  unfold readDots
  split <;> simp_all [isLineTerminator]

/-- A token that is no string has one of these texts. -/
theorem Lexeme.read_cases (ch : Char) (rest : List Char) :
    ch = '"' ∧ read ch rest = readString ('"' :: rest) ∨
      (read ch rest).kind ≠ .error .stringAtEndOfLine ∧ (StartsToken (ch :: rest) →
        ∀ d ∈ (read ch rest).text, isLineTerminator d = false) := by
  cases reading ch with
  | string hquote hread =>
    subst hquote
    exact .inl ⟨rfl, hread rest⟩
  | sign _ hread | stray hread =>
    refine .inr ⟨by simp [hread], fun hch => ?_⟩
    simpa [hread] using hch.isLineTerminator_eq_false
  | dots hdot hread =>
    subst hdot
    refine .inr ⟨?_, fun _ => ?_⟩
    · rcases readDots_kind ('.' :: rest) with hkind | ⟨n, hkind⟩ <;> simp [hread, hkind]
    · rw [hread]
      exact readDots_inline rest
  | word _ hread =>
    refine .inr ⟨?_, fun _ d hd => ?_⟩
    · rcases readName_kind (ch :: rest) with hkind | hkind | hkind | ⟨word, hkind⟩ <;> simp [hread, hkind]
    · rw [hread] at hd
      exact isLineTerminator_eq_false (p := isNameContinue) (by decide) (all_of_mem_takeWhile hd)
  | number _ hread =>
    refine .inr ⟨?_, fun _ d hd => ?_⟩
    · rcases Number.read_kind (ch :: rest) with ⟨raw, hkind⟩ | ⟨raw, hkind⟩ | hkind | ⟨fault, raw, hkind⟩ <;>
        simp [hread, hkind]
    · rw [hread] at hd
      exact isLineTerminator_eq_false (p := Number.isTail) (by decide) (Number.isTail_read _ d hd)

/-! ### Tokens -/

/-- A token that is no block string ends on the line that it starts on, unless it is the error for a quoted string that
a line feed cuts off. The error for a quoted string that its line's end cuts off covers the text from the quote to the
line terminator; it stops in front of a carriage return, and behind a line feed, that is on the next line. -/
theorem tokens_on_one_line {source : String} {t : Token} (ht : t ∈ tokens source) (hblock : ¬ t.kind.IsBlock) :
    (t.kind ≠ .error .stringAtEndOfLine → t.span.stop.line = t.span.first.line) ∧
    (t.kind = .error .stringAtEndOfLine → ∃ before body terminator rest,
      source.toList = before ++ '"' :: body ++ terminator :: rest ∧
      (∀ c ∈ body, isLineTerminator c = false) ∧ t.span.first = .after before ∧
      (terminator = '\r' ∧ t.span.stop = .after (before ++ '"' :: body) ∧ t.span.stop.line = t.span.first.line ∨
        terminator = '\n' ∧ t.span.stop = .after (before ++ '"' :: body ++ ['\n']) ∧
          t.span.stop.line = t.span.first.line + 1)) := by
  rcases exists_lexeme ht with rfl | ⟨front, ch, rest, hsource, hch, rfl⟩
  · exact ⟨fun _ => rfl, fun h => nomatch h⟩
  · rcases Lexeme.read_cases ch rest with ⟨rfl, hread⟩ | ⟨hkind, hinline⟩
    · rw [hread] at hblock ⊢
      refine ⟨fun hcut => Position.line_append_inline front (readString_inline hblock hcut), fun hcut => ?_⟩
      obtain ⟨body, terminator, tail, rfl, hbody, hends⟩ := readString_cut_off hcut
      have hquoted : ∀ c ∈ '"' :: body, isLineTerminator c = false := List.forall_mem_cons.2 ⟨rfl, hbody⟩
      refine ⟨front, body, terminator, tail, by simpa using hsource, hbody, rfl, ?_⟩
      rcases hends with ⟨hfeed, htext⟩ | ⟨hreturn, htext⟩
      · have hlast : (front ++ '"' :: body).getLast? ≠ some '\r' := by
          intro hlast
          rw [List.getLast?_append, List.getLast?_eq_some_getLast (List.cons_ne_nil '"' body), Option.some_or] at hlast
          have hmem := List.getLast_mem (List.cons_ne_nil '"' body)
          rw [Option.some.inj hlast] at hmem
          exact absurd (hquoted '\r' hmem) (by decide)
        refine .inr ⟨hfeed, by rw [htext, List.append_assoc], ?_⟩
        simp only [htext]
        rw [← List.append_assoc, Position.line_append_feed hlast, Position.line_append_inline front hquoted]
      · refine .inl ⟨hreturn, by rw [htext], ?_⟩
        simp only [htext]
        exact Position.line_append_inline front hquoted
    · exact ⟨fun _ => Position.line_append_inline front (hinline hch), fun hcut => absurd hcut hkind⟩

/-- The error for a quoted string takes along the line feed that cuts the string off, and so ends on the next line. -/
theorem cut_off_string_takes_line_feed : ∃ t ∈ tokens "\"a\n", t.kind = .error .stringAtEndOfLine ∧
    ¬ t.kind.IsBlock ∧ t.span.slice? "\"a\n" = some "\"a\n" ∧ t.span.first.line ≠ t.span.stop.line := by
  refine ⟨⟨.error .stringAtEndOfLine, ⟨⟨0, 0, 0, 0⟩, ⟨1, 0, 0, 3⟩⟩⟩, ?_, rfl, ?_, ?_, by decide⟩
  · obtain ⟨text, htext, hmem⟩ : ∃ text, "\"a\n".toList = text ∧
        (⟨.error .stringAtEndOfLine, ⟨⟨0, 0, 0, 0⟩, ⟨1, 0, 0, 3⟩⟩⟩ : Token) ∈ lexChars text :=
      ⟨_, String.toList_ofList, by decide +kernel⟩
    rwa [tokens_eq_lexChars htext]
  · rintro (⟨raw, hraw⟩ | hopen)
    · cases hraw
    · cases hopen
  · decide +kernel

/-- A quoted string with an escaped quote, which a carriage return and a line feed cut off. -/
theorem tokens_on_one_line_of_returns :
    let source := "x\r\n\"a\\\"\r\n"
    let t : Token := ⟨.error .stringAtEndOfLine, ⟨⟨1, 0, 0, 3⟩, ⟨1, 4, 4, 7⟩⟩⟩
    t ∈ tokens source ∧ ¬ t.kind.IsBlock ∧ ∃ before body terminator rest,
      source.toList = before ++ '"' :: body ++ terminator :: rest ∧
      (∀ c ∈ body, isLineTerminator c = false) ∧ t.span.first = .after before ∧
      (terminator = '\r' ∧ t.span.stop = .after (before ++ '"' :: body) ∧ t.span.stop.line = t.span.first.line ∨
        terminator = '\n' ∧ t.span.stop = .after (before ++ '"' :: body ++ ['\n']) ∧
          t.span.stop.line = t.span.first.line + 1) := by
  intro source t
  have ht : t ∈ tokens source := by
    obtain ⟨text, htext, hmem⟩ : ∃ text, source.toList = text ∧ t ∈ lexChars text :=
      ⟨_, String.toList_ofList, by decide +kernel⟩
    rwa [tokens_eq_lexChars htext]
  have hblock : ¬ t.kind.IsBlock := by
    rintro (⟨raw, hraw⟩ | hopen)
    · cases hraw
    · cases hopen
  exact ⟨ht, hblock, (tokens_on_one_line ht hblock).2 rfl⟩

end GraphQL
