import GraphQL.Proofs.StringSpelling

/-!
# Lines of a text

`lines` gives the lines that a text falls into (`SplitsInto`), and the line of a place goes on with the text behind it
(`exists_line_around`). `feedLines` gives the same lines up to the first that a carriage return alone ends
(`LoneReturnBy.getElem?_lines`), and keeps that carriage return in one of its own (`LoneReturnBy.exists_line`).
-/

namespace GraphQL

private theorem eq_of_isLineTerminator {c : Char} (h : isLineTerminator c = true) : c = '\n' ∨ c = '\r' := by
  simpa [isLineTerminator] using h

/-- A text falls into lines: each line but the last is ended by a line feed, by a carriage return and a line feed, or
by a carriage return with no line feed after it. -/
inductive SplitsInto : List Char → List (List Char) → Prop
  | last {line : List Char} (inline : ∀ c ∈ line, isLineTerminator c = false) : SplitsInto line [line]
  | feed {line rest : List Char} {ls : List (List Char)} (inline : ∀ c ∈ line, isLineTerminator c = false)
      (splits : SplitsInto rest ls) : SplitsInto (line ++ '\n' :: rest) (line :: ls)
  | returnFeed {line rest : List Char} {ls : List (List Char)} (inline : ∀ c ∈ line, isLineTerminator c = false)
      (splits : SplitsInto rest ls) : SplitsInto (line ++ '\r' :: '\n' :: rest) (line :: ls)
  | loneReturn {line rest : List Char} {ls : List (List Char)} (inline : ∀ c ∈ line, isLineTerminator c = false)
      (alone : rest.head? ≠ some '\n') (splits : SplitsInto rest ls) : SplitsInto (line ++ '\r' :: rest) (line :: ls)

namespace SplitsInto

variable {text : List Char} {ls : List (List Char)}

private theorem cons {c : Char} (hc : isLineTerminator c = false) (h : SplitsInto text ls) :
    SplitsInto (c :: text) (consToHead c ls) := by
  cases h with
  | last inline => exact .last (List.forall_mem_cons.2 ⟨hc, inline⟩)
  | feed inline splits => exact .feed (List.forall_mem_cons.2 ⟨hc, inline⟩) splits
  | returnFeed inline splits => exact .returnFeed (List.forall_mem_cons.2 ⟨hc, inline⟩) splits
  | loneReturn inline alone splits => exact .loneReturn (List.forall_mem_cons.2 ⟨hc, inline⟩) alone splits

/-- There is one way only for a text to fall into lines. -/
theorem lines_eq (h : SplitsInto text ls) : lines text = ls := by
  have hline {line text : List Char} {ls : List (List Char)} (inline : ∀ c ∈ line, isLineTerminator c = false)
      (hrest : lines text = [] :: ls) : lines (line ++ text) = line :: ls := by
    rw [Block.lines_append inline hrest, List.append_nil]
  induction h with
  | last inline =>
    have h := hline inline (show lines [] = [[]] from rfl)
    rwa [List.append_nil] at h
  | feed inline splits ih => exact hline inline (by rw [Block.lines_newline, ih])
  | returnFeed inline splits ih => exact hline inline (by rw [lines, ih])
  | loneReturn inline alone splits ih => exact hline inline (by rw [lines_terminator rfl fun _ => alone, ih])

theorem inline (h : SplitsInto text ls) : ∀ line ∈ ls, ∀ c ∈ line, isLineTerminator c = false := by
  induction h with
  | last inline => simpa using inline
  | feed inline splits ih | returnFeed inline splits ih | loneReturn inline alone splits ih =>
    exact List.forall_mem_cons.2 ⟨inline, ih⟩

/-- Lines that are joined with line feeds are parted again. -/
theorem intercalate {first : List Char} {rest : List (List Char)}
    (h : ∀ line ∈ first :: rest, ∀ c ∈ line, isLineTerminator c = false) :
    SplitsInto (['\n'].intercalate (first :: rest)) (first :: rest) := by
  induction rest generalizing first with
  | nil => simpa using SplitsInto.last (h first (by simp))
  | cons second rest ih =>
    obtain ⟨hfirst, hrest⟩ := List.forall_mem_cons.1 h
    rw [List.intercalate_cons_cons, List.append_assoc]
    exact .feed hfirst (ih hrest)

end SplitsInto

/-- Every text falls into its lines. -/
theorem splitsInto_lines (text : List Char) : SplitsInto text (lines text) := by
  have hempty : ∀ c ∈ ([] : List Char), isLineTerminator c = false := List.forall_mem_nil _
  fun_induction lines text with
  | case1 => exact .last hempty
  | case2 rest ih => exact .returnFeed hempty ih
  | case3 c rest hpair hc ih =>
    rcases eq_of_isLineTerminator hc with rfl | rfl
    · exact .feed hempty ih
    · exact .loneReturn hempty (head?_ne_feed hpair rfl) ih
  | case4 c rest hpair hc ih => exact ih.cons (by simpa using hc)

/-- One of the lines from `0` to `k` has a carriage return with no line feed after it. -/
def LoneReturnBy (text : List Char) (k : Nat) : Prop :=
  ∃ before rest, text = before ++ '\r' :: rest ∧ rest.head? ≠ some '\n' ∧ (Position.after before).line ≤ k

/-- There is a lone carriage return by a line if and only if one stands on it or above. -/
private theorem loneReturnBy_iff {text : List Char} {k : Nat} :
    LoneReturnBy text k ↔ ∃ i, i < text.length ∧ text[i]? = some '\r' ∧ text[i + 1]? ≠ some '\n' ∧
      (Position.after (text.take i)).line ≤ k := by
  constructor
  · rintro ⟨before, rest, rfl, halone, hline⟩
    refine ⟨before.length, by simp, by simp, ?_, by rwa [List.take_left]⟩
    simpa [List.getElem?_append_right, List.head?_eq_getElem?] using halone
  · rintro ⟨i, hi, hreturn, halone, hline⟩
    have hsplit := List.take_append_drop i text
    rw [List.drop_eq_getElem_cons hi, (List.getElem?_eq_some_iff.1 hreturn).2] at hsplit
    exact ⟨text.take i, text.drop (i + 1), hsplit.symm, by rwa [List.head?_drop], hline⟩

instance (text : List Char) (k : Nat) : Decidable (LoneReturnBy text k) := decidable_of_iff _ loneReturnBy_iff.symm

@[simp] theorem getElem?_consToHead_zero (c : Char) (ls : List (List Char)) :
    (consToHead c ls)[0]? = some (c :: ls[0]?.getD []) := by
  cases ls <;> rfl

@[simp] theorem getElem?_consToHead_succ (c : Char) (ls : List (List Char)) (j : Nat) :
    (consToHead c ls)[j + 1]? = ls[j + 1]? := by
  cases ls <;> rfl

/-- A character in front leaves what the lines hold. -/
theorem exists_getElem?_consToHead (c : Char) {d : Char} {ls : List (List Char)} {j : Nat} {line : List Char}
    (h : ls[j]? = some line) (hd : d ∈ line) : ∃ line', (consToHead c ls)[j]? = some line' ∧ d ∈ line' := by
  cases j with
  | zero => exact ⟨c :: line, by rw [getElem?_consToHead_zero, h]; rfl, List.mem_cons_of_mem c hd⟩
  | succ j => exact ⟨line, by rwa [getElem?_consToHead_succ], hd⟩

private theorem feedLines_feed (text : List Char) : feedLines ('\n' :: text) = [] :: feedLines text := by
  rw [feedLines.eq_3, if_pos rfl]
  rintro r h
  cases h

private theorem feedLines_cons {c : Char} {text : List Char} (hc : c ≠ '\n')
    (hpair : c = '\r' → text.head? ≠ some '\n') :
    feedLines (c :: text) = consToHead c (feedLines text) := by
  rw [feedLines.eq_3, if_neg hc]
  rintro r rfl rfl
  exact hpair rfl rfl

private theorem feedLines_of_inline {c : Char} (h : isLineTerminator c = false) (text : List Char) :
    feedLines (c :: text) = consToHead c (feedLines text) := by
  refine feedLines_cons ?_ fun hreturn => ?_
  · rintro rfl
    cases h
  · rw [hreturn] at h
    cases h

/-- Only the empty text has no lines that line feeds end. -/
private theorem feedLines_eq_nil_iff {text : List Char} : feedLines text = [] ↔ text = [] := by
  fun_induction feedLines text with
  | case1 => simp
  | case2 => simp
  | case3 => simp
  | case4 c rest _ _ _ => cases feedLines rest <;> simp [consToHead]

namespace Position

private theorem line_cons {c : Char} (h : isLineTerminator c = false) (text : List Char) :
    (after (c :: text)).line = (after text).line := by
  have hlines : (lines (c :: text)).length = (lines text).length := by
    rw [lines_cons h]
    cases hrest : lines text with
    | nil => exact absurd hrest (lines_ne_nil text)
    | cons => rfl
  simp only [after, hlines]

/-- A line terminator begins a new line, unless a line feed still belongs to it. -/
private theorem line_terminator {c : Char} (h : isLineTerminator c = true) {text : List Char}
    (hpair : c = '\r' → text.head? ≠ some '\n') : (after (c :: text)).line = (after text).line + 1 := by
  have := List.length_pos_iff.2 (lines_ne_nil text)
  simp only [after, lines_terminator h hpair, List.length_cons]
  omega

private theorem line_returnFeed (text : List Char) : (after ('\r' :: '\n' :: text)).line = (after text).line + 1 := by
  have := List.length_pos_iff.2 (lines_ne_nil text)
  simp only [after, lines, List.length_cons]
  omega

end Position

namespace LoneReturnBy

variable {text : List Char} {k : Nat}

private theorem cons {c : Char} (hc : isLineTerminator c = false) (h : LoneReturnBy text k) :
    LoneReturnBy (c :: text) k := by
  obtain ⟨before, rest, rfl, halone, hline⟩ := h
  exact ⟨c :: before, rest, rfl, halone, by rwa [Position.line_cons hc]⟩

private theorem feed (h : LoneReturnBy text k) : LoneReturnBy ('\n' :: text) (k + 1) := by
  obtain ⟨before, rest, rfl, halone, hline⟩ := h
  refine ⟨'\n' :: before, rest, rfl, halone, ?_⟩
  rw [Position.line_terminator rfl (by simp)]
  omega

private theorem returnFeed (h : LoneReturnBy text k) : LoneReturnBy ('\r' :: '\n' :: text) (k + 1) := by
  obtain ⟨before, rest, rfl, halone, hline⟩ := h
  refine ⟨'\r' :: '\n' :: before, rest, rfl, halone, ?_⟩
  rw [Position.line_returnFeed]
  omega

/-- Without such a carriage return, the line feeds end the same lines. -/
theorem getElem?_lines (h : ¬ LoneReturnBy text k) {j : Nat} (hj : j ≤ k) {line : List Char}
    (hline : (feedLines text)[j]? = some line) : (lines text)[j]? = some line := by
  fun_induction lines text generalizing k j line with
  | case1 => simp [feedLines] at hline
  | case2 rest ih =>
    rw [feedLines] at hline
    cases j with
    | zero => exact hline
    | succ j =>
      obtain ⟨k, rfl⟩ : ∃ k', k = k' + 1 := ⟨k - 1, by omega⟩
      exact ih (fun hrest => h hrest.returnFeed) (by omega) hline
  | case3 c rest hpair hc ih =>
    rcases eq_of_isLineTerminator hc with rfl | rfl
    · rw [feedLines_feed] at hline
      cases j with
      | zero => exact hline
      | succ j =>
        obtain ⟨k, rfl⟩ : ∃ k', k = k' + 1 := ⟨k - 1, by omega⟩
        exact ih (fun hrest => h hrest.feed) (by omega) hline
    · exact absurd ⟨[], rest, rfl, head?_ne_feed hpair rfl, Nat.zero_le k⟩ h
  | case4 c rest hpair hc ih =>
    rw [Bool.not_eq_true] at hc
    have hrest : ¬ LoneReturnBy rest k := fun hrest => h (hrest.cons hc)
    rw [feedLines_of_inline hc] at hline
    cases j with
    | zero =>
      rw [getElem?_consToHead_zero] at hline ⊢
      cases hfirst : (feedLines rest)[0]? with
      | some first => rwa [ih hrest hj hfirst, ← hfirst]
      | none =>
        -- nothing follows, and the last line has no line feed
        obtain rfl : rest = [] := feedLines_eq_nil_iff.1 (by simpa using hfirst)
        simpa [feedLines, lines] using hline
    | succ j =>
      rw [getElem?_consToHead_succ] at hline ⊢
      exact ih hrest hj hline

/-- Such a carriage return stays in one of the lines that line feeds end. -/
theorem exists_line (h : LoneReturnBy text k) :
    ∃ j ≤ k, ∃ line, (feedLines text)[j]? = some line ∧ '\r' ∈ line := by
  obtain ⟨before, rest, rfl, halone, hline⟩ := h
  suffices ∃ j ≤ (Position.after before).line, ∃ line, (feedLines (before ++ '\r' :: rest))[j]? = some line ∧
      '\r' ∈ line by
    obtain ⟨j, hj, hshown⟩ := this
    exact ⟨j, Nat.le_trans hj hline, hshown⟩
  clear hline k
  fun_induction lines before with
  | case1 =>
    refine ⟨0, Nat.zero_le _, ?_⟩
    rw [List.nil_append, feedLines_cons (by decide) fun _ => halone]
    exact ⟨_, getElem?_consToHead_zero _ _, by simp⟩
  | case2 before ih =>
    obtain ⟨j, hj, hshown⟩ := ih
    exact ⟨j + 1, by rw [Position.line_returnFeed]; omega, hshown⟩
  | case3 c before hpair hc ih =>
    obtain ⟨j, hj, line, hshown, hmem⟩ := ih
    rw [Position.line_terminator hc (head?_ne_feed hpair)]
    rcases eq_of_isLineTerminator hc with rfl | rfl
    · exact ⟨j + 1, by omega, line, by rwa [List.cons_append, feedLines_feed], hmem⟩
    · -- a carriage return alone leaves the line where it is
      have hnext : (before ++ '\r' :: rest).head? ≠ some '\n' := by cases before <;> simp_all
      rw [List.cons_append, feedLines_cons (by decide) fun _ => hnext]
      obtain ⟨line, hline⟩ := exists_getElem?_consToHead '\r' hshown hmem
      exact ⟨j, by omega, line, hline⟩
  | case4 c before hpair hc ih =>
    obtain ⟨j, hj, line, hshown, hmem⟩ := ih
    rw [Bool.not_eq_true] at hc
    rw [Position.line_cons hc, List.cons_append, feedLines_of_inline hc]
    exact ⟨j, hj, exists_getElem?_consToHead c hshown hmem⟩

end LoneReturnBy

/-- The first line goes up to the first line terminator. -/
theorem head?_lines (text : List Char) : (lines text).head? = some (text.takeWhile (!isLineTerminator ·)) := by
  fun_induction lines text with
  | case1 => rfl
  | case2 rest ih => rfl
  | case3 c rest hpair hc ih => simp [hc]
  | case4 c rest hpair hc ih =>
    rw [Bool.not_eq_true] at hc
    obtain ⟨ls, hls⟩ := List.head?_eq_some_iff.1 ih
    simp [hls, consToHead, hc]

/-- The line that a place stands on goes on from the place's column with the text behind the place. -/
theorem exists_line_around {front rest : List Char} (hsplit : front.getLast? = some '\r' → rest.head? ≠ some '\n') :
    ∃ line, (lines (front ++ rest))[(Position.after front).line]? = some line ∧
      line.drop (Position.after front).column = rest.takeWhile (!isLineTerminator ·) := by
  obtain ⟨more, hrest⟩ := List.head?_eq_some_iff.1 (head?_lines rest)
  have hfront := (List.dropLast_concat_getLast (lines_ne_nil front)).symm
  have hlines := lines_append_of_split hsplit hfront hrest
  refine ⟨_, ?_, List.drop_left⟩
  simp [hlines, Position.after]

end GraphQL
