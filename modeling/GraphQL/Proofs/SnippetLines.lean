import GraphQL.ParseError.Report
import GraphQL.Proofs.FaultPlaces
import GraphQL.Proofs.TextLines
import GraphQL.Proofs.TokenLines

/-!
# Snippets in reports of parse errors

A report numbers its lines as the lexer does, but takes them from `feedLines`, which a carriage return alone does not
end. Every snippet that is not empty shows its line under the number of the span's first line, with the first marker
in the span's column (`snippet_shows`). The line is the lexer's line of that number unless a carriage return stands
alone on the line or on one before it (`LoneReturnBy`), and then it is not for some span that starts by that line
(`faithful_iff`).
-/

namespace GraphQL.ParseError

/-- The snippet shows a line under its number and a row of markers under the line, the first of them under the
character in the column. -/
def Shows (snippet : String) (number : Nat) (line : List Char) (column : Nat) (marker : Char) : Prop :=
  ∃ bar margin blank count,
    snippet.toList = bar ++ '\n' :: (margin ++ (toString number).toList ++ [' ', '|', ' '] ++ line ++
      '\n' :: (blank ++ List.replicate (count + 1) marker ++ ['\n'])) ∧
    (∀ c ∈ margin, c = ' ') ∧ (∀ c ∈ bar ++ blank, c = ' ' ∨ c = '|') ∧
    blank.length = margin.length + (toString number).length + 3 + column

/-- The snippet is empty, or it shows the line of the source that has the number of the span's first line, with the
first marker in the span's first column. -/
def Faithful (source : String) (span : Span) (marker : Char) : Prop :=
  snippet source span marker = "" ∨ ∃ line, (lines source.toList)[span.first.line]? = some line ∧
    Shows (snippet source span marker) (span.first.line + 1) line span.first.column marker

private theorem snippet_eq_empty {source : String} {span : Span}
    (h : (feedLines source.toList)[span.first.line]? = none) (marker : Char) : snippet source span marker = "" := by
  simp only [snippet, h]

/-- Whatever a snippet shows, it shows under the number of the span's first line, and in the span's column. -/
theorem snippet_shows {source : String} {span : Span} {line : List Char}
    (h : (feedLines source.toList)[span.first.line]? = some line) (marker : Char) :
    Shows (snippet source span marker) (span.first.line + 1) line span.first.column marker := by
  have hcount : markerCount span line - 1 + 1 = markerCount span line := Nat.sub_add_cancel (Nat.le_max_left 1 _)
  simp only [Shows, snippet, h]
  generalize toString (span.first.line + 1) = number
  have hgutter : number.length ≤ max 2 number.length := Nat.le_max_right 2 _
  generalize max 2 number.length = gutter at hgutter
  refine ⟨List.replicate gutter ' ' ++ [' ', '|'], List.replicate (gutter - number.length) ' ',
    List.replicate gutter ' ' ++ [' ', '|', ' '] ++ List.replicate span.first.column ' ', markerCount span line - 1,
    ?_, ?_, ?_, ?_⟩
  · rw [hcount]
    simp [spaces]
  · exact fun c hc => (List.mem_replicate.1 hc).2
  · have hspaces (n : Nat) : ∀ c ∈ List.replicate n ' ', c = ' ' ∨ c = '|' :=
      fun c hc => .inl (List.mem_replicate.1 hc).2
    simp only [List.forall_mem_append]
    exact ⟨⟨hspaces _, by simp⟩, ⟨hspaces _, by simp⟩, hspaces _⟩
  · simp only [List.length_append, List.length_replicate, List.length_cons, List.length_nil]
    omega

private theorem Shows.ne_empty {snippet : String} {number column : Nat} {line : List Char} {marker : Char}
    (h : Shows snippet number line column marker) : snippet ≠ "" := by
  rintro rfl
  obtain ⟨bar, margin, blank, count, htext, -⟩ := h
  simp at htext

/-- A snippet has of most characters those of its number and its line. -/
theorem Shows.count {snippet : String} {number column : Nat} {line : List Char} {marker : Char}
    (h : Shows snippet number line column marker) {d : Char} (hd : d ∉ [' ', '|', '\n', marker]) :
    snippet.toList.count d = (toString number).toList.count d + line.count d := by
  obtain ⟨bar, margin, blank, count, htext, hmargin, hblank, -⟩ := h
  simp only [List.mem_cons, List.not_mem_nil, or_false, not_or] at hd
  obtain ⟨hspace, hrule, hfeed, hmarker⟩ := hd
  have hblank : d ∉ bar ++ blank := fun hmem => (hblank d hmem).elim hspace hrule
  have hmargin : d ∉ margin := fun hmem => hspace (hmargin d hmem)
  have hmarkers : d ∉ List.replicate (count + 1) marker := fun hmem => hmarker (List.mem_replicate.1 hmem).2
  rw [List.mem_append, not_or] at hblank
  rw [htext]
  simp [List.count_append, List.count_eq_zero.2 hblank.1, List.count_eq_zero.2 hblank.2,
    List.count_eq_zero.2 hmargin, List.count_eq_zero.2 hmarkers, Ne.symm hspace, Ne.symm hrule, Ne.symm hfeed]

/-- Two lines of which one snippet shows either under the same number hold the same characters. -/
theorem Shows.count_eq {snippet : String} {number column column' : Nat} {line line' : List Char} {marker : Char}
    (h : Shows snippet number line column marker) (h' : Shows snippet number line' column' marker) {d : Char}
    (hd : d ∉ [' ', '|', '\n', marker]) : line.count d = line'.count d :=
  Nat.add_left_cancel ((h.count hd).symm.trans (h'.count hd))

private theorem faithful_of_not_loneReturnBy {source : String} {span : Span}
    (h : ¬ LoneReturnBy source.toList span.first.line)
    (marker : Char) : Faithful source span marker := by
  cases hshown : (feedLines source.toList)[span.first.line]? with
  | none => exact .inl (snippet_eq_empty hshown marker)
  | some line => exact .inr ⟨line, LoneReturnBy.getElem?_lines h (Nat.le_refl _) hshown, snippet_shows hshown marker⟩

theorem faithful_iff (source : String) (k : Nat) :
    (∀ span : Span, span.first.line ≤ k → Faithful source span '^') ↔ ¬ LoneReturnBy source.toList k := by
  constructor
  · intro hall hreturn
    obtain ⟨j, hj, line, hline, hmem⟩ := hreturn.exists_line
    -- the snippet of any place on this line holds the carriage return
    let span : Span := .emptyAt ⟨j, 0, 0, 0⟩
    have hshows : Shows (snippet source span '^') (j + 1) line 0 '^' := snippet_shows hline '^'
    rcases hall span hj with hempty | ⟨line', hline', hshows'⟩
    · exact hshows.ne_empty hempty
    · have hcount : line.count '\r' = line'.count '\r' := hshows.count_eq hshows' (by decide)
      have hpos := List.count_pos_iff.2 hmem
      rw [hcount] at hpos
      have hinline := (splitsInto_lines _).inline _ (List.mem_of_getElem? hline')
      exact absurd (hinline _ (List.count_pos_iff.1 hpos)) (by decide)
  · intro h span hspan
    refine faithful_of_not_loneReturnBy (fun hreturn => h ?_) '^'
    obtain ⟨before, rest, hsource, halone, hline⟩ := hreturn
    exact ⟨before, rest, hsource, halone, Nat.le_trans hline hspan⟩

/-- The places that a report underlines, each with its marker. -/
def underlined (e : ParseError) : List (Span × Char) :=
  (e.span, '^') :: (e.notes.filterMap (·.span)).map (·, '-')

private theorem snippet_in_detailed {e : ParseError} {span : Span} {marker : Char} (h : (span, marker) ∈ e.underlined)
    (source : String) (file : Option String) :
    (snippet source span marker).toList <:+: (e.detailed source file).toList := by
  rw [detailed, String.toList_append, String.toList_append, String.toList_join]
  rcases List.mem_cons.1 h with heq | h
  · obtain ⟨rfl, rfl⟩ := Prod.mk.inj heq
    exact ⟨_, _, rfl⟩
  · obtain ⟨place, hplace, heq⟩ := List.mem_map.1 h
    obtain ⟨rfl, rfl⟩ := Prod.mk.inj heq
    obtain ⟨note, hnote, hat⟩ := List.mem_filterMap.1 hplace
    have htext : (snippet source place '-').toList <:+: (noteText source note).toList := by
      simp only [noteText, hat, String.toList_append]
      exact (List.suffix_append _ _).isInfix
    have hnotes : (noteText source note).toList <:+: (e.notes.map (noteText source)).flatMap String.toList :=
      List.infix_of_mem_flatten (List.mem_map_of_mem (List.mem_map_of_mem hnote))
    exact htext.trans (hnotes.trans (List.suffix_append _ _).isInfix)

private theorem exists_start_of_token {source : String} {t : Token} (ht : t ∈ tokens source) :
    ∃ front rest, source.toList = front ++ rest ∧ StartsToken rest ∧ t.span.first = .after front := by
  rcases exists_lexeme ht with rfl | ⟨front, ch, rest, hsource, hstarts, rfl⟩
  · exact ⟨source.toList, [], by simp, by simp [StartsToken], rfl⟩
  · exact ⟨front, ch :: rest, hsource, hstarts, rfl⟩

/-- What a report underlines begins where a token begins. -/
theorem PlacedIn.exists_start {source : String} {e : ParseError} (h : e.PlacedIn (tokens source)) {span : Span}
    {marker : Char} (hspan : (span, marker) ∈ e.underlined) :
    ∃ front rest, source.toList = front ++ rest ∧ StartsToken rest ∧ span.first = .after front := by
  suffices ∃ t ∈ tokens source, t.span.first = span.first by
    obtain ⟨t, ht, hfirst⟩ := this
    rw [← hfirst]
    exact exists_start_of_token ht
  have hfirst : ∃ t ∈ tokens source, t.span.first = e.span.first := by
    cases h with
    | lexical mem => exact ⟨_, mem, rfl⟩
    | @grammar fault span before us after split covers sound points =>
      obtain ⟨t, ht, u, hu, rfl⟩ := covers
      exact ⟨t, by simp [split, List.mem_of_head? ht], rfl⟩
  rcases List.mem_cons.1 hspan with heq | hspan
  · obtain ⟨rfl, -⟩ := Prod.mk.inj heq
    exact hfirst
  · obtain ⟨place, hplace, heq⟩ := List.mem_map.1 hspan
    obtain ⟨rfl, -⟩ := Prod.mk.inj heq
    obtain ⟨note, hnote, hat⟩ := List.mem_filterMap.1 hplace
    rcases h.place_of_note hnote hat with rfl | ⟨t, ht, rfl⟩
    · exact hfirst
    · exact ⟨t, ht, rfl⟩

/-- Each place that the report of an error underlines begins on a line of the source, in the line's column of the
span. Its snippet, if it is not empty, shows a line under that line's number, with the first marker in that column, and
the line shown is that line unless a carriage return stands alone on it or before it. Where one does, the snippets of
the lines up to there are not all right. -/
theorem snippets_of_error (source : String) :
    (∀ e, Document.parse source = .error e ∨ SchemaDocument.parse source = .error e →
      ∀ span marker, (span, marker) ∈ e.underlined →
        (∀ file, (snippet source span marker).toList <:+: (e.detailed source file).toList) ∧
        (∃ front rest line, source.toList = front ++ rest ∧ span.first = .after front ∧
          (lines source.toList)[span.first.line]? = some line ∧
          line.drop span.first.column = rest.takeWhile (!isLineTerminator ·)) ∧
        (snippet source span marker = "" ∨ ∃ line, (feedLines source.toList)[span.first.line]? = some line ∧
          Shows (snippet source span marker) (span.first.line + 1) line span.first.column marker) ∧
        (¬ LoneReturnBy source.toList span.first.line → Faithful source span marker)) ∧
    ∀ k, (∀ span : Span, span.first.line ≤ k → Faithful source span '^') ↔ ¬ LoneReturnBy source.toList k := by
  refine ⟨fun e he span marker hspan => ⟨snippet_in_detailed hspan source, ?_, ?_, ?_⟩, faithful_iff source⟩
  · have hplaced : e.PlacedIn (tokens source) := he.elim Document.placedIn_of_parse SchemaDocument.placedIn_of_parse
    obtain ⟨front, rest, hsource, hstarts, hfirst⟩ := hplaced.exists_start hspan
    have hhead : rest.head? ≠ some '\n' := by
      intro hhead
      obtain ⟨tail, rfl⟩ := List.head?_eq_some_iff.1 hhead
      exact absurd hstarts.isLineTerminator_eq_false (by decide)
    obtain ⟨line, hline, hdrop⟩ := exists_line_around fun _ => hhead
    rw [← hsource, ← hfirst] at hline
    exact ⟨front, rest, line, hsource, hfirst, hline, by rw [hfirst, hdrop]⟩
  · cases hshown : (feedLines source.toList)[span.first.line]? with
    | none => exact .inl (snippet_eq_empty hshown marker)
    | some line => exact .inr ⟨line, rfl, snippet_shows hshown marker⟩
  · exact fun h => faithful_of_not_loneReturnBy h marker

/-- A selection set that is not closed, below a comment: both the end of the input and the brace are shown. -/
theorem snippets_of_error_of_unclosed_set :
    let source := "# é\r\n\x7b a"
    let stop : Span := ⟨⟨1, 3, 3, 9⟩, ⟨1, 3, 3, 9⟩⟩
    let brace : Span := ⟨⟨1, 0, 0, 6⟩, ⟨1, 1, 1, 7⟩⟩
    ∃ e, Document.parse source = .error e ∧ e.underlined = [(stop, '^'), (brace, '-')] ∧
      ¬ LoneReturnBy source.toList 1 ∧ Faithful source stop '^' ∧ Faithful source brace '-' := by
  intro source stop brace
  obtain ⟨text, htext, hparse, hreturn⟩ : ∃ text, source.toList = text ∧
      (match Parse.document.run (lexChars text) with
        | .error e => decide (e.underlined = [(stop, '^'), (brace, '-')])
        | .ok _ => false) = true ∧ ¬ LoneReturnBy text 1 :=
    ⟨_, String.toList_ofList, by decide +kernel, by decide +kernel⟩
  rw [← Document.parse_eq htext] at hparse
  rw [← htext] at hreturn
  cases he : Document.parse source with
  | ok d => simp [he] at hparse
  | error e =>
    rw [he] at hparse
    have hplaces : e.underlined = [(stop, '^'), (brace, '-')] := of_decide_eq_true hparse
    have hshown (span : Span) (marker : Char) (hmem : (span, marker) ∈ e.underlined) :=
      ((snippets_of_error source).1 e (.inl he) span marker hmem).2.2.2
    exact ⟨e, rfl, hplaces, hreturn, hshown stop '^' (by simp [hplaces]) hreturn,
      hshown brace '-' (by simp [hplaces]) hreturn⟩

/-- A comment that a carriage return ends: the error is on the line behind it, and the snippet shows the line after. -/
theorem snippet_of_other_line :
    let source := "# c\r\x7d\n\x7b a \x7d"
    ∃ e, Document.parse source = .error e ∧ e.span = ⟨⟨1, 0, 0, 4⟩, ⟨1, 1, 1, 5⟩⟩ ∧
      (lines source.toList)[1]? = some ['\x7d'] ∧ Shows (snippet source e.span '^') 2 "\x7b a \x7d".toList 0 '^' ∧
      ¬ Faithful source e.span '^' := by
  intro source
  obtain ⟨text, htext, hparse, hline, hshown⟩ : ∃ text, source.toList = text ∧
      (match Parse.document.run (lexChars text) with
        | .error e => decide (e.span = ⟨⟨1, 0, 0, 4⟩, ⟨1, 1, 1, 5⟩⟩)
        | .ok _ => false) = true ∧
      (lines text)[1]? = some ['\x7d'] ∧ (feedLines text)[1]? = some ['\x7b', ' ', 'a', ' ', '\x7d'] :=
    ⟨_, String.toList_ofList, by decide +kernel, by decide +kernel, by decide +kernel⟩
  rw [← Document.parse_eq htext] at hparse
  rw [← htext] at hline hshown
  cases he : Document.parse source with
  | ok d => simp [he] at hparse
  | error e =>
    rw [he] at hparse
    have hspan : e.span = ⟨⟨1, 0, 0, 4⟩, ⟨1, 1, 1, 5⟩⟩ := of_decide_eq_true hparse
    have hshows : Shows (snippet source e.span '^') 2 ['\x7b', ' ', 'a', ' ', '\x7d'] 0 '^' := by
      rw [hspan]
      exact snippet_shows hshown '^'
    refine ⟨e, rfl, hspan, hline, hshows, ?_⟩
    rintro (hempty | ⟨line, hline', hshows'⟩)
    · exact hshows.ne_empty hempty
    · rw [hspan] at hline' hshows'
      obtain rfl := Option.some.inj (hline.symm.trans hline')
      rw [hspan] at hshows
      exact absurd (hshows.count_eq hshows' (by decide : 'a' ∉ [' ', '|', '\n', '^'])) (by decide)

end GraphQL.ParseError
