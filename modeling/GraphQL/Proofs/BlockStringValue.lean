import GraphQL.Proofs.TextLines
import Mathlib.Data.List.DropRight

/-!
# Values of block strings

`Block.standardValue` follows the algorithm of the language's specification for the value of a block string, line by
line. `Block.cook` gives this value unless a line of spaces and tabs that is not empty, but shorter than what the
lines share, stands between two lines with text (`Block.Overlooked`): the specification empties such a line, and
cooking keeps it. This is the only difference (`cook_standardValue_iff`), since both sides see the same lines as blank,
and so drop the same lines at both ends.
-/

namespace GraphQL.Block

/-- One step of the search for the common indentation: a line that is not all indentation lowers it to its own. -/
def lowerIndent (common : Option Nat) (line : List Char) : Option Nat :=
  if indentation line < line.length then
    match common with
    | none => some (indentation line)
    | some n => if indentation line < n then some (indentation line) else some n
  else common

/-- The number of characters that each line after the first loses, where `rest` are these lines. -/
def standardIndent (rest : List (List Char)) : Nat := (rest.foldl lowerIndent none).getD 0

/-- The value of a block string whose raw text has the lines `first :: rest`. -/
def standardValue (first : List Char) (rest : List (List Char)) : List Char :=
  let outdented := first :: rest.map (·.drop (standardIndent rest))
  ['\n'].intercalate ((outdented.dropWhile isBlankLine).rdropWhile isBlankLine)

/-- A line that is not empty, but shorter than the common indentation, with text above it and below it. -/
def Overlooked (first : List Char) (rest : List (List Char)) (line : List Char) : Prop :=
  line ≠ [] ∧ line.length < standardIndent rest ∧ ∃ above below, rest = above ++ line :: below ∧
    (∃ l ∈ first :: above, isBlankLine l = false) ∧ ∃ l ∈ below, isBlankLine l = false

private theorem indentation_le_length (line : List Char) : indentation line ≤ line.length :=
  (List.takeWhile_sublist _).length_le

private theorem indentation_lt_length_iff {line : List Char} :
    indentation line < line.length ↔ isBlankLine line = false := by
  have hblank : indentation line = line.length ↔ isBlankLine line = true := by
    rw [indentation, isBlankLine, List.all_eq_true, ← List.takeWhile_eq_self_iff]
    exact ⟨(List.takeWhile_prefix _).eq_of_length, congrArg List.length⟩
  rw [← Bool.not_eq_true, ← hblank]
  have := indentation_le_length line
  omega

/-- The search ends with the least indentation of the lines that are not blank. -/
private theorem foldl_lowerIndent (common : Option Nat) (rest : List (List Char)) :
    rest.foldl lowerIndent common =
      (common.toList ++ (rest.filter (!isBlankLine ·)).map indentation).min? := by
  induction rest generalizing common with
  | nil => cases common <;> simp
  | cons line rest ih =>
    rw [List.foldl_cons, ih]
    unfold lowerIndent
    cases hblank : isBlankLine line with
    | true =>
      have hnot : ¬ indentation line < line.length := by simp [indentation_lt_length_iff, hblank]
      rw [if_neg hnot, List.filter_cons_of_neg (by simp [hblank])]
    | false =>
      rw [if_pos (indentation_lt_length_iff.2 hblank), List.filter_cons_of_pos (by simp [hblank])]
      cases common with
      | none => rfl
      | some n =>
        have hmin : (if indentation line < n then some (indentation line) else some n) =
            some (min n (indentation line)) := by
          split <;> rw [Option.some.injEq] <;> omega
        simp only [hmin, Option.toList_some, List.map_cons, List.singleton_append, List.min?_cons', List.foldl_cons]

/-- Lines lose as many characters here as in the algorithm of the specification. -/
private theorem standardIndent_eq (rest : List (List Char)) : standardIndent rest = commonIndent rest := by
  rw [standardIndent, foldl_lowerIndent]
  rfl

private theorem standardIndent_le {rest : List (List Char)} {line : List Char} (hline : line ∈ rest)
    (hblank : isBlankLine line = false) : standardIndent rest ≤ indentation line := by
  have hmem : indentation line ∈ (rest.filter (!isBlankLine ·)).map indentation :=
    List.mem_map_of_mem (List.mem_filter.2 ⟨hline, by simp [hblank]⟩)
  rw [standardIndent_eq, commonIndent]
  cases hmin : ((rest.filter (!isBlankLine ·)).map indentation).min? with
  | none => exact Nat.zero_le _
  | some n => exact (List.min?_eq_some_iff.1 hmin).2 _ hmem

/-- No text is taken off a line that has as much indentation. -/
theorem isBlankLine_drop {n : Nat} {line : List Char} (h : isBlankLine line = false → n ≤ indentation line) :
    isBlankLine (line.drop n) = isBlankLine line := by
  cases hblank : isBlankLine line with
  | true =>
    rw [isBlankLine, List.all_eq_true] at hblank ⊢
    exact fun c hc => hblank c (List.mem_of_mem_drop hc)
  | false =>
    have hsplit := List.take_append_drop n line
    have htaken : (line.take n).all isIndent = true := by
      rw [List.all_eq_true]
      intro c hc
      have htake : line.take n <+: line.takeWhile isIndent :=
        List.prefix_of_prefix_length_le (List.take_prefix n line) (List.takeWhile_prefix _)
          (Nat.le_trans (List.length_take_le n line) (h hblank))
      exact all_of_mem_takeWhile (htake.subset hc)
    rw [isBlankLine, ← hsplit, List.all_append, htaken, Bool.true_and] at hblank
    exact hblank

private theorem outdent_of_le {n : Nat} {line : List Char} (h : n ≤ line.length) : outdent n line = line.drop n :=
  if_neg (Nat.not_lt.2 h)

private theorem mem_of_mem_outdent {n : Nat} {line : List Char} {c : Char} (h : c ∈ outdent n line) : c ∈ line := by
  unfold outdent at h
  split at h
  · exact h
  · exact List.mem_of_mem_drop h

/-- A line is blank after it has lost its indentation if and only if it was before. -/
private theorem isBlankLine_outdent {n : Nat} {line : List Char} (h : isBlankLine line = false → n ≤ indentation line) :
    isBlankLine (outdent n line) = isBlankLine line := by
  unfold outdent
  split
  · rfl
  · exact isBlankLine_drop h

/-- A list without what it has of `p` at both ends. -/
structure Trimmed {α : Type} (p : α → Bool) (all front kept back : List α) : Prop where
  parts : all = front ++ kept ++ back
  front : ∀ x ∈ front, p x = true
  back : ∀ x ∈ back, p x = true
  head : kept.head?.any p = false
  last : kept.getLast?.any p = false

private theorem exists_trimmed {α : Type} (p : α → Bool) (all : List α) :
    ∃ front kept back, Trimmed p all front kept back := by
  refine ⟨all.takeWhile p, (all.dropWhile p).rdropWhile p, (all.dropWhile p).rtakeWhile p, ?_, ?_, ?_, ?_, ?_⟩
  · rw [List.append_assoc, List.rdropWhile_append_rtakeWhile, List.takeWhile_append_dropWhile]
  · exact List.all_eq_true.1 List.all_takeWhile
  · exact fun x hx => List.mem_rtakeWhile_imp hx
  · obtain ⟨back, hback⟩ := List.rdropWhile_prefix p (all.dropWhile p)
    cases hkept : (all.dropWhile p).rdropWhile p with
    | nil => rfl
    | cons x kept =>
      have hhead := List.head?_dropWhile_not p all
      rw [hkept] at hback
      rw [← hback] at hhead
      simpa using hhead
  · by_cases hne : (all.dropWhile p).rdropWhile p = []
    · rw [hne]
      rfl
    · rw [List.getLast?_eq_some_getLast hne]
      simpa using List.rdropWhile_last_not p _ hne

namespace Trimmed

variable {α : Type} {p : α → Bool} {all front kept back : List α}

private theorem map {β : Type} {f : α → β} {q : β → Bool} (h : Trimmed p all front kept back)
    (hf : ∀ x ∈ all, q (f x) = p x) : Trimmed q (all.map f) (front.map f) (kept.map f) (back.map f) := by
  obtain ⟨rfl, hfront, hback, hhead, hlast⟩ := h
  refine ⟨by simp, ?_, ?_, ?_, ?_⟩
  · simpa using fun x hx => (hf x (by simp [hx])).trans (hfront x hx)
  · simpa using fun x hx => (hf x (by simp [hx])).trans (hback x hx)
  · cases kept with
    | nil => rfl
    | cons x kept => simpa using (hf x (by simp)).trans (by simpa using hhead)
  · rcases List.eq_nil_or_concat kept with rfl | ⟨kept, x, rfl⟩
    · rfl
    · simpa using (hf x (by simp)).trans (by simpa using hlast)

/-- What is left of the lines does not depend on how the blank lines at the ends are found. -/
private theorem trimBlank_eq {all front kept back : List (List Char)} (h : Trimmed isBlankLine all front kept back) :
    trimBlank all = kept := by
  obtain ⟨rfl, hfront, hback, hhead, hlast⟩ := h
  rw [trimBlank, List.append_assoc, List.dropWhile_append_of_pos hfront]
  cases kept with
  | nil =>
    rw [List.nil_append, List.dropWhile_eq_nil_iff.2 hback]
    rfl
  | cons line kept =>
    rw [List.cons_append, List.dropWhile_cons_of_neg (by simpa using hhead), ← List.cons_append, List.reverse_append,
      List.dropWhile_append_of_pos (by simpa using hback)]
    have htrim := Block.trimBlank_eq hhead hlast
    rwa [trimBlank, List.dropWhile_cons_of_neg (by simpa using hhead)] at htrim

/-- What `p` holds of is kept just where it stands between things that `p` does not hold of. -/
theorem mem_kept_iff (h : Trimmed p all front kept back) {x : α} (hx : p x = true) :
    x ∈ kept ↔ ∃ above below, all = above ++ x :: below ∧ (∃ y ∈ above, p y = false) ∧ ∃ y ∈ below, p y = false := by
  obtain ⟨rfl, hfront, hback, hhead, hlast⟩ := h
  constructor
  · intro hmem
    obtain ⟨above, below, rfl⟩ := List.append_of_mem hmem
    refine ⟨front ++ above, below ++ back, by simp, ?_, ?_⟩
    · cases above with
      | nil => simp [hx] at hhead
      | cons y above => exact ⟨y, by simp, by simpa using hhead⟩
    · rcases List.eq_nil_or_concat below with rfl | ⟨below, y, rfl⟩
      · simp [hx] at hlast
      · rw [List.concat_eq_append, ← List.cons_append, ← List.append_assoc, List.getLast?_concat] at hlast
        exact ⟨y, by simp, by simpa using hlast⟩
  · rintro ⟨above, below, hparts, ⟨y, hy, hnot⟩, z, hz, hnot'⟩
    rw [List.append_assoc] at hparts
    rcases List.append_eq_append_iff.1 hparts with ⟨above', rfl, hrest⟩ | ⟨front', rfl, -⟩
    · rcases List.append_eq_append_iff.1 hrest with ⟨back', rfl, rfl⟩ | ⟨kept', rfl, hbelow⟩
      · simp [hback z (by simp [hz])] at hnot'
      · cases kept' with
        | nil => simp [hback z (by rw [← List.nil_append back, ← hbelow]; simp [hz])] at hnot'
        | cons w kept' =>
          obtain ⟨rfl, -⟩ := List.cons.inj hbelow
          simp
    · simp [hfront y (by simp [hy])] at hnot

end Trimmed

/-! ### The value as a whole -/

/-- The lines of a block string, each with the number of characters that it loses. -/
def cuts (first : List Char) (rest : List (List Char)) : List (Nat × List Char) :=
  (0, first) :: rest.map (standardIndent rest, ·)

variable {first : List Char} {rest : List (List Char)}

private theorem cuts_le {cut : Nat × List Char} (hcut : cut ∈ cuts first rest) (hblank : isBlankLine cut.2 = false) :
    cut.1 ≤ indentation cut.2 := by
  rcases List.mem_cons.1 hcut with rfl | hcut
  · exact Nat.zero_le _
  · obtain ⟨line, hline, rfl⟩ := List.mem_map.1 hcut
    exact standardIndent_le hline hblank

/-- A line that is shorter than what it loses has no text. -/
theorem isBlankLine_of_short {cut : Nat × List Char} (hcut : cut ∈ cuts first rest) (hshort : cut.2.length < cut.1) :
    isBlankLine cut.2 = true := by
  rw [← Bool.not_eq_false]
  intro hblank
  have := cuts_le hcut hblank
  have := indentation_le_length cut.2
  omega

private theorem value_eq (first : List Char) (rest : List (List Char)) :
    value (first :: rest) = ['\n'].intercalate (trimBlank ((cuts first rest).map fun cut => outdent cut.1 cut.2)) := by
  rw [value, ← standardIndent_eq, cuts, List.map_cons, List.map_map, outdent_of_le (Nat.zero_le _), List.drop_zero]
  rfl

private theorem standardValue_eq (first : List Char) (rest : List (List Char)) :
    standardValue first rest = ['\n'].intercalate (trimBlank ((cuts first rest).map fun cut => cut.2.drop cut.1)) := by
  rw [cuts, List.map_cons, List.map_map, List.drop_zero]
  rfl

private theorem overlooked_of_split {cut : Nat × List Char} {above below : List (Nat × List Char)}
    (hcut : cuts first rest = above ++ cut :: below) (habove : ∃ y ∈ above, isBlankLine y.2 = false)
    (hbelow : ∃ y ∈ below, isBlankLine y.2 = false) (hne : cut.2 ≠ []) (hshort : cut.2.length < cut.1) :
    Overlooked first rest cut.2 := by
  cases above with
  | nil => simp at habove
  | cons head above =>
    obtain ⟨rfl, hrest⟩ := List.cons.inj hcut
    obtain ⟨as, bs, rfl, rfl, hbs⟩ := List.map_eq_append_iff.1 hrest
    obtain ⟨line, bs, rfl, rfl, rfl⟩ := List.map_eq_cons_iff.1 hbs
    exact ⟨hne, hshort, as, bs, rfl, by simpa using habove, by simpa using hbelow⟩

private theorem Overlooked.split {line : List Char} (h : Overlooked first rest line) :
    ∃ above below, cuts first rest = above ++ (standardIndent rest, line) :: below ∧
      (∃ y ∈ above, isBlankLine y.2 = false) ∧ ∃ y ∈ below, isBlankLine y.2 = false := by
  obtain ⟨-, -, above, below, hrest, habove, hbelow⟩ := h
  refine ⟨(0, first) :: above.map (standardIndent rest, ·), below.map (standardIndent rest, ·), ?_, ?_, ?_⟩
  · conv => lhs; rw [cuts, hrest]
    rw [hrest]
    simp
  · simpa using habove
  · simpa using hbelow

/-- The lines that cooking and the specification keep, cut from the same lines of the text. -/
theorem exists_kept (first : List Char) (rest : List (List Char)) :
    ∃ kept : List (Nat × List Char),
      value (first :: rest) = ['\n'].intercalate (kept.map fun cut => outdent cut.1 cut.2) ∧
      standardValue first rest = ['\n'].intercalate (kept.map fun cut => cut.2.drop cut.1) ∧
      (∀ cut ∈ kept, cut.2 ∈ first :: rest ∧ (outdent cut.1 cut.2 = cut.2.drop cut.1 ∨
        Overlooked first rest (outdent cut.1 cut.2) ∧ cut.2.drop cut.1 = [])) ∧
      ∀ line, Overlooked first rest line → (standardIndent rest, line) ∈ kept := by
  obtain ⟨front, kept, back, h⟩ := exists_trimmed (isBlankLine ·.2) (cuts first rest)
  have hmem {cut : Nat × List Char} (hcut : cut ∈ kept) : cut ∈ cuts first rest := by
    rw [h.parts]
    simp [hcut]
  refine ⟨kept, ?_, ?_, fun cut hcut => ⟨?_, ?_⟩, fun line hline => ?_⟩
  · rw [value_eq, (h.map fun cut hcut => isBlankLine_outdent (cuts_le hcut)).trimBlank_eq]
  · rw [standardValue_eq, (h.map fun cut hcut => isBlankLine_drop (cuts_le hcut)).trimBlank_eq]
  · have hline := List.mem_map_of_mem (f := Prod.snd) (hmem hcut)
    simpa [cuts, List.map_map] using hline
  · by_cases hshort : cut.2.length < cut.1
    · have hdrop : cut.2.drop cut.1 = [] := List.drop_eq_nil_of_le (Nat.le_of_lt hshort)
      rw [outdent, if_pos hshort, hdrop]
      by_cases hne : cut.2 = []
      · exact .inl hne
      · obtain ⟨above, below, hsplit, habove, hbelow⟩ :=
          (h.mem_kept_iff (isBlankLine_of_short (hmem hcut) hshort)).1 hcut
        exact .inr ⟨overlooked_of_split hsplit habove hbelow hne hshort, rfl⟩
    · exact .inl (outdent_of_le (Nat.not_lt.1 hshort))
  · obtain ⟨above, below, hsplit, habove, hbelow⟩ := hline.split
    have hcut : (standardIndent rest, line) ∈ cuts first rest := by simp [hsplit]
    exact (h.mem_kept_iff (isBlankLine_of_short hcut hline.2.1)).2 ⟨above, below, hsplit, habove, hbelow⟩

/-- Lines that are joined with line feeds can be told from the text. -/
theorem eq_of_intercalate_eq {ls ls' : List (List Char)} (h : ∀ line ∈ ls, ∀ c ∈ line, isLineTerminator c = false)
    (h' : ∀ line ∈ ls', ∀ c ∈ line, isLineTerminator c = false) (hlength : ls.length = ls'.length)
    (heq : ['\n'].intercalate ls = ['\n'].intercalate ls') : ls = ls' := by
  cases ls with
  | nil => exact (List.length_eq_zero_iff.1 hlength.symm).symm
  | cons first rest =>
    cases ls' with
    | nil => cases hlength
    | cons first' rest' => rw [← (SplitsInto.intercalate h).lines_eq, heq, (SplitsInto.intercalate h').lines_eq]

/-- The value of a block string has the lines of the value that the specification gives, but for overlooked lines,
which the specification empties: it is that value unless there is such a line. -/
theorem cook_standardValue_iff (text : List Char) :
    let raw := String.ofList (tripleQuote ++ text ++ tripleQuote)
    ∃ (first : List Char) (rest : List (List Char)) (pairs : List (List Char × List Char)),
      SplitsInto (unescape text) (first :: rest) ∧
      cook raw = .ok (String.ofList (['\n'].intercalate (pairs.map Prod.fst))) ∧
      standardValue first rest = ['\n'].intercalate (pairs.map Prod.snd) ∧
      (∀ pair ∈ pairs, pair.1 = pair.2 ∨ Overlooked first rest pair.1 ∧ pair.2 = []) ∧
      (cook raw = .ok (String.ofList (standardValue first rest)) ↔ ∀ line, ¬ Overlooked first rest line) := by
  intro raw
  obtain ⟨first, rest, hlines⟩ := List.exists_cons_of_ne_nil (lines_ne_nil (unescape text))
  have hsplits := splitsInto_lines (unescape text)
  rw [hlines] at hsplits
  obtain ⟨kept, hvalue, hstandard, hkept, hoverlooked⟩ := exists_kept first rest
  have hcook : cook raw = .ok (String.ofList (value (first :: rest))) := by
    simp only [raw, cook, String.toList_ofList, between?_append, decode, hlines]
  refine ⟨first, rest, kept.map fun cut => (outdent cut.1 cut.2, cut.2.drop cut.1), hsplits, ?_, ?_, ?_, ?_⟩
  · rw [hcook, hvalue, List.map_map]
    rfl
  · rw [hstandard, List.map_map]
    rfl
  · exact List.forall_mem_map.2 fun cut hcut => (hkept cut hcut).2
  · rw [hcook, Except.ok.injEq, String.ofList_inj, hvalue, hstandard]
    constructor
    · intro heq line hline
      have hinline (cut : Nat × List Char) (hcut : cut ∈ kept) : ∀ c ∈ cut.2, isLineTerminator c = false :=
        hsplits.inline _ (hkept cut hcut).1
      have hlines := eq_of_intercalate_eq
        (List.forall_mem_map.2 fun cut hcut c hc => hinline cut hcut c (mem_of_mem_outdent hc))
        (List.forall_mem_map.2 fun cut hcut c hc => hinline cut hcut c (List.mem_of_mem_drop hc)) (by simp) heq
      have hline' := List.map_inj_left.1 hlines _ (hoverlooked line hline)
      rw [outdent, if_pos hline.2.1, List.drop_eq_nil_of_le (Nat.le_of_lt hline.2.1)] at hline'
      exact hline.1 hline'
    · intro hnone
      refine congrArg _ (List.map_congr_left fun cut hcut => ?_)
      exact (hkept cut hcut).2.resolve_right fun h => hnone _ h.1

/-- Cooking keeps a line of one space between lines that share an indentation of two. -/
theorem cook_keeps_short_line :
    let text := ['\n', ' ', ' ', 'a', '\n', ' ', '\n', ' ', ' ', 'b', '\n']
    let raw := String.ofList (tripleQuote ++ text ++ tripleQuote)
    let rest := [[' ', ' ', 'a'], [' '], [' ', ' ', 'b'], []]
    SplitsInto (unescape text) ([] :: rest) ∧ cook raw = .ok (String.ofList ['a', '\n', ' ', '\n', 'b']) ∧
      cook raw ≠ .ok (String.ofList (standardValue [] rest)) := by
  intro text raw rest
  have hlines : lines (unescape text) = [] :: rest := by decide +kernel
  have hvalue : decode text = ['a', '\n', ' ', '\n', 'b'] := by decide +kernel
  have hcook : cook raw = .ok (String.ofList ['a', '\n', ' ', '\n', 'b']) := by
    simp only [raw, cook, String.toList_ofList, between?_append, hvalue]
  have hstandard : standardValue [] rest ≠ ['a', '\n', ' ', '\n', 'b'] := by decide +kernel
  refine ⟨hlines ▸ splitsInto_lines _, hcook, ?_⟩
  rw [hcook, ne_eq, Except.ok.injEq, String.ofList_inj]
  exact hstandard.symm

end GraphQL.Block
