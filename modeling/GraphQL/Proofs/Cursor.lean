import GraphQL.Proofs.Lexemes
import GraphQL.Token.Lexer

/-!
# Where the lexer stands

The reading point that the lexer moves over stretches of text stands where it would stand after one character at a
time (`Cursor.skip_eq`, `Cursor.past_read`), since only strings and what is no token hold line terminators. From
the start of a text it counts what `Position.after` counts afresh (`Cursor.after_behind`).
-/

namespace GraphQL

namespace Cursor

private theorem step_of_inline {ch : Char} (h : isLineTerminator ch = false) (c : Cursor) :
    c.step ch = c.along [ch] := by
  have hfeed : ch ≠ '\n' := by
    rintro rfl
    cases h
  simp [step, along, h, hfeed]

private theorem along_cons (c : Cursor) (ch : Char) (stretch : List Char) :
    c.along (ch :: stretch) = (c.along [ch]).along stretch := by
  simp only [along, List.length_cons, List.length_nil, utf16Length_cons, utf16Length_nil, utf8Length_cons,
    utf8Length_nil, List.isEmpty_cons, Bool.and_false, Bool.false_and, Nat.add_zero, Nat.zero_add, Nat.add_assoc,
    Nat.add_comm 1]

/-- A stretch without line terminators may be passed at once. -/
theorem along_eq {stretch : List Char} (h : ∀ ch ∈ stretch, isLineTerminator ch = false) (c : Cursor) :
    c.along stretch = c.after stretch := by
  induction stretch generalizing c with
  | nil => simp [along]
  | cons ch stretch ih =>
    have hhead : isLineTerminator ch = false := h ch (by simp)
    have htail := ih (fun d hd => h d (by simp [hd])) (c.step ch)
    rw [along_cons, ← step_of_inline hhead, htail, after_cons]

private theorem inline_takeWhile (text : List Char) :
    ∀ ch ∈ text.takeWhile (!isLineTerminator ·), isLineTerminator ch = false := by
  intro ch hch
  simpa using all_of_mem_takeWhile hch

/-- Any text may be passed line by line. -/
theorem across_eq (c : Cursor) (text : List Char) : c.across text = c.after text := by
  fun_induction across c text with
  | case1 c text hrest =>
    have hline : text.takeWhile (!isLineTerminator ·) = text := by
      have := List.takeWhile_append_dropWhile (p := (!isLineTerminator ·)) (l := text)
      rwa [hrest, List.append_nil] at this
    exact along_eq (hline ▸ inline_takeWhile text) c
  | case2 c text terminator rest hrest ih =>
    have hsplit := List.takeWhile_append_dropWhile (p := (!isLineTerminator ·)) (l := text)
    rw [hrest] at hsplit
    rw [ih, along_eq (inline_takeWhile text), ← after_cons, ← after_append, hsplit]

/-- Separators may be passed with each comment at once. -/
@[simp] theorem skip_eq (c : Cursor) (separators : List Char) : c.skip separators = c.after separators := by
  fun_induction skip c separators with
  | case1 => rfl
  | case2 c rest ih =>
    have hcomment : ∀ ch ∈ '#' :: rest.takeWhile (!isLineTerminator ·), isLineTerminator ch = false := by
      intro ch hch
      rcases List.mem_cons.1 hch with rfl | hch
      · rfl
      · exact inline_takeWhile rest ch hch
    rw [ih, along_eq hcomment, ← after_append, List.cons_append, List.takeWhile_append_dropWhile]
  | case3 c ch rest _ ih => rw [ih, after_cons]

private theorem offset_step (c : Cursor) (ch : Char) :
    (c.step ch).position.offset = c.position.offset + ch.utf8Size := by
  unfold step
  split
  · rfl
  · split <;> rfl

/-- The reading point behind a text has as many bytes more before it as the text has. -/
theorem offset_after (c : Cursor) (text : List Char) :
    (c.after text).position.offset = c.position.offset + utf8Length text := by
  induction text generalizing c with
  | nil => rfl
  | cons ch text ih => rw [after_cons, ih, offset_step, utf8Length_cons, Nat.add_assoc]

end Cursor

theorem utf8Length_pos {text : List Char} (h : text ≠ []) : 0 < utf8Length text := by
  cases text with
  | nil => exact absurd rfl h
  | cons c text =>
    have := c.utf8Size_pos
    rw [utf8Length_cons]
    omega

/-! ### Positions counted afresh -/

theorem head?_ne_feed {c : Char} {text : List Char} (h : ∀ rest, c = '\r' → text = '\n' :: rest → False)
    (hc : c = '\r') : text.head? ≠ some '\n' := by
  intro hhead
  obtain ⟨rest, rfl⟩ := List.head?_eq_some_iff.1 hhead
  exact h rest hc rfl

/-- The last line of a text goes on with the first line of what follows, if they part no line terminator. -/
theorem lines_append_of_split {front rest last first : List Char} {ls more : List (List Char)}
    (hsplit : front.getLast? = some '\r' → rest.head? ≠ some '\n') (hfront : lines front = ls ++ [last])
    (hrest : lines rest = first :: more) : lines (front ++ rest) = ls ++ (last ++ first) :: more := by
  have hcons {c : Char} {front : List Char} (hsplit : (c :: front).getLast? = some '\r' → rest.head? ≠ some '\n') :
      front.getLast? = some '\r' → rest.head? ≠ some '\n' :=
    fun hlast => hsplit (by rw [List.getLast?_cons, hlast]; rfl)
  fun_induction lines front generalizing ls last with
  | case1 =>
    obtain ⟨rfl, rfl⟩ : ls = [] ∧ last = [] := by cases ls <;> simp_all
    exact hrest
  | case2 front ih =>
    cases ls with
    | nil => exact absurd (List.cons.inj hfront).2 (lines_ne_nil front)
    | cons line ls =>
      obtain ⟨rfl, htail⟩ := List.cons.inj hfront
      rw [List.cons_append, List.cons_append, lines, ih (hcons (hcons hsplit)) htail]
      rfl
  | case3 c front hpair hc ih =>
    cases ls with
    | nil => exact absurd (List.cons.inj hfront).2 (lines_ne_nil front)
    | cons line ls =>
      obtain ⟨rfl, htail⟩ := List.cons.inj hfront
      have hhead : c = '\r' → (front ++ rest).head? ≠ some '\n' := by
        intro hreturn
        cases front with
        | nil => exact hsplit (by rw [hreturn]; rfl)
        | cons d front => simpa using head?_ne_feed hpair hreturn
      rw [List.cons_append, lines_terminator hc hhead, ih (hcons hsplit) htail]
      rfl
  | case4 c front hpair hc ih =>
    rw [Bool.not_eq_true] at hc
    obtain ⟨line, more', hlines⟩ := List.exists_cons_of_ne_nil (lines_ne_nil front)
    rw [hlines] at hfront
    rw [List.cons_append, lines_cons hc]
    cases ls with
    | nil =>
      obtain ⟨rfl, rfl⟩ := List.cons.inj hfront
      have hlast : lines front = [] ++ [line] := hlines
      rw [ih (hcons hsplit) hlast]
      rfl
    | cons _ ls =>
      obtain ⟨rfl, rfl⟩ := List.cons.inj hfront
      have hlast : lines front = (line :: ls) ++ [last] := hlines
      rw [ih (hcons hsplit) hlast]
      rfl

/-- One more character completes a line ending, ends the last line, or belongs to it. -/
theorem lines_concat {text : List Char} {ls : List (List Char)} {last : List Char}
    (h : lines text = ls ++ [last]) (ch : Char) :
    lines (text ++ [ch]) =
      if ch = '\n' ∧ text.getLast? = some '\r' then ls ++ [last]
      else if isLineTerminator ch then ls ++ [last, []]
      else ls ++ [last ++ [ch]] := by
  split
  · rename_i hpair
    obtain ⟨rfl, hlast⟩ := hpair
    obtain ⟨front, rfl⟩ := List.getLast?_eq_some_iff.1 hlast
    have hfront := (List.dropLast_concat_getLast (lines_ne_nil front)).symm
    -- a carriage return and a line feed end one line together, as the carriage return alone does
    have hreturn : lines (front ++ ['\r']) = _ := lines_append_of_split (by simp) hfront rfl
    have hreturnFeed : lines (front ++ ['\r', '\n']) = _ := lines_append_of_split (by simp) hfront rfl
    rw [List.append_assoc, List.singleton_append, hreturnFeed, ← hreturn, h]
  · rename_i hpair
    have hsplit : text.getLast? = some '\r' → [ch].head? ≠ some '\n' := by
      intro hlast hfeed
      exact hpair ⟨Option.some.inj hfeed, hlast⟩
    split
    · rename_i hch
      have hrest : lines [ch] = [] :: [[]] := lines_terminator hch (by simp)
      rw [lines_append_of_split hsplit h hrest, List.append_nil]
    · rename_i hch
      have hrest : lines [ch] = [ch] :: [] := lines_cons (by simpa using hch) []
      rw [lines_append_of_split hsplit h hrest]

/-- The position after a text by its last line and the lines before. -/
theorem Position.after_eq {text : List Char} {ls : List (List Char)} {last : List Char}
    (h : lines text = ls ++ [last]) :
    Position.after text = ⟨ls.length, last.length, utf16Length last, utf8Length text⟩ := by
  simp [Position.after, h]

namespace Cursor

/-- The reading point behind a text, counted afresh. -/
def behind (text : List Char) : Cursor := ⟨.after text, text.getLast? = some '\r'⟩

theorem start_eq_behind : start = behind [] := rfl

/-- A position is the same whether it is counted step by step or afresh. -/
theorem step_behind (text : List Char) (ch : Char) : (behind text).step ch = behind (text ++ [ch]) := by
  obtain ⟨ls, last, hls⟩ := (List.eq_nil_or_concat (lines text)).resolve_left (lines_ne_nil text)
  rw [List.concat_eq_append] at hls
  have hconcat := lines_concat hls ch
  rw [behind, behind, Position.after_eq hls, step]
  simp only [decide_eq_true_eq, List.getLast?_concat, Option.some.injEq]
  split
  · rename_i hpair
    rw [if_pos hpair] at hconcat
    rw [Position.after_eq hconcat]
    simp [hpair.1]
  · rename_i hpair
    rw [if_neg hpair] at hconcat
    split
    · rename_i hch
      rw [if_pos hch] at hconcat
      have hlines : lines (text ++ [ch]) = (ls ++ [last]) ++ [[]] := by simpa using hconcat
      rw [Position.after_eq hlines]
      simp
    · rename_i hch
      rw [if_neg hch] at hconcat
      have hreturn : ch ≠ '\r' := by
        rintro rfl
        exact hch rfl
      rw [Position.after_eq hconcat]
      simp [hreturn]

/-- The reading point that moves on counts what is counted afresh from the start. -/
theorem after_behind (s t : List Char) : (behind s).after t = behind (s ++ t) := by
  induction t generalizing s with
  | nil => rw [after_nil, List.append_nil]
  | cons ch t ih => rw [after_cons, step_behind, ih, List.append_assoc, List.singleton_append]

end Cursor

/-- A character that passes a test which both line terminators fail is none of them. -/
theorem isLineTerminator_eq_false {p : Char → Bool} (hp : p '\n' = false ∧ p '\r' = false) {ch : Char}
    (h : p ch = true) : isLineTerminator ch = false := by
  simp only [isLineTerminator, Bool.or_eq_false_iff, decide_eq_false_iff_not]
  constructor
  · rintro rfl
    exact absurd h (by simp [hp.1])
  · rintro rfl
    exact absurd h (by simp [hp.2])

namespace Cursor

private theorem past_of_inline {lexeme : Lexeme} (h : ∀ ch ∈ lexeme.text, isLineTerminator ch = false) (c : Cursor) :
    c.past lexeme = c.after lexeme.text := by
  unfold past
  split
  · exact across_eq c _
  · exact across_eq c _
  · exact across_eq c _
  · exact along_eq h c

private theorem past_number (c : Cursor) (text : List Char) :
    c.past (Number.read text) = c.after (Number.read text).text := by
  unfold Number.read
  split
  · rename_i s hscan
    have htail := (Number.isLiteral_of_scan hscan).1.isTail
    exact past_of_inline (fun ch hch => isLineTerminator_eq_false (by decide) (htail ch hch)) c
  · exact across_eq c _
  · exact across_eq c _

private theorem past_string (c : Cursor) (text : List Char) :
    c.past (readString text) = c.after (readString text).text := by
  unfold past
  rcases readString_kind text with ⟨raw, hkind⟩ | ⟨raw, hkind⟩ | ⟨cause, hkind⟩ <;>
    (rw [hkind]; exact across_eq c _)

private theorem past_dots (c : Cursor) (text : List Char) : c.past (readDots text) = c.after (readDots text).text := by
  unfold readDots
  split
  · rename_i rest
    have hdots : ∀ ch ∈ ['.', '.', '.'], isLineTerminator ch = false := by simp [isLineTerminator]
    exact past_of_inline hdots c
  · exact across_eq c _
  · exact across_eq c _

/-- Only strings, and what is no token, hold line terminators. -/
@[simp] theorem past_read (c : Cursor) (ch : Char) (rest : List Char) :
    c.past (Lexeme.read ch rest) = c.after (Lexeme.read ch rest).text := by
  cases Lexeme.reading ch with
  | sign hsign hread =>
    rw [hread]
    refine past_of_inline (fun d hd => ?_) c
    obtain rfl : d = ch := by simpa using hd
    exact isLineTerminator_eq_false (p := fun d => (Punctuator.ofChar? d).isSome) (by decide) (by simp [hsign])
  | dots _ hread => rw [hread, past_dots]
  | string _ hread => rw [hread, past_string]
  | word _ hread =>
    rw [hread]
    refine past_of_inline (fun d hd => ?_) c
    exact isLineTerminator_eq_false (p := isNameContinue) (by decide) (all_of_mem_takeWhile hd)
  | number _ hread => rw [hread, past_number]
  | stray hread =>
    rw [hread]
    exact across_eq c _

end Cursor

/-- The tokens of a text that does not start with a separator. -/
def tokensAt (c : Cursor) : List Char → List Token
  | [] => [⟨.endOfInput, .emptyAt c.position⟩]
  | ch :: rest =>
    let lexeme := Lexeme.read ch rest
    let next := c.after lexeme.text
    let token : Token := ⟨lexeme.kind, ⟨c.position, next.position⟩⟩
    if lexeme.kind.isError then [token] else token :: tokensFrom next lexeme.rest

/-- The tokens of a text start behind the separators in front. -/
theorem tokensFrom_eq (c : Cursor) (text : List Char) :
    tokensFrom c text = tokensAt (c.after (ignored text).1) (ignored text).2 := by
  rw [tokensFrom]
  split
  · rename_i hrest
    rw [hrest, Cursor.skip_eq]
    rfl
  · rename_i ch rest hrest
    rw [hrest]
    simp only [Cursor.skip_eq, Cursor.past_read]
    rfl

end GraphQL
