import GraphQL.Proofs.Evaluation
import GraphQL.Proofs.Separators

/-!
# Tokens tile the source

The tokens of a source text and the gaps between them make up the text, one after the other: nothing is skipped but
gaps, and nothing is read twice (`tokens_tile`). The span of a token ends where the text before that place ends when
its lines, characters and code units are counted afresh (`tokens_positions`).
-/

namespace GraphQL

/-- The bytes of a front part may be dropped. -/
theorem dropBytes_append (s t : List Char) : dropBytes (utf8Length s) (s ++ t) = some t := by
  induction s with
  | nil => cases t <;> rfl
  | cons c s ih =>
    have hpos := c.utf8Size_pos
    rw [List.cons_append, dropBytes, utf8Length_cons, if_neg (by omega), if_pos (by omega),
      Nat.add_sub_cancel_left, ih]

private theorem takeBytes_append (s t : List Char) : takeBytes (utf8Length s) (s ++ t) = some s := by
  induction s with
  | nil => cases t <;> rfl
  | cons c s ih =>
    have hpos := c.utf8Size_pos
    rw [List.cons_append, takeBytes, utf8Length_cons, if_neg (by omega), if_pos (by omega),
      Nat.add_sub_cancel_left, ih]
    rfl

/-- The span from one place in a source to another covers what stands between them. -/
theorem slice?_after {source : String} {before text rest : List Char} (h : source.toList = before ++ text ++ rest) :
    (⟨.after before, .after (before ++ text)⟩ : Span).slice? source = some (String.ofList text) := by
  have hsize : (⟨.after before, .after (before ++ text)⟩ : Span).size = utf8Length text := by
    simp [Span.size, Position.after]
  have hle : (Position.after before).offset ≤ (Position.after (before ++ text)).offset := by
    simp [Position.after]
  have hdrop : dropBytes (Position.after before).offset source.toList = some (text ++ rest) := by
    rw [h, List.append_assoc]
    exact dropBytes_append before _
  rw [Span.slice?, if_pos hle]
  simp only [hdrop, hsize, Option.bind_some, takeBytes_append, Option.map_some]

/-- The text of a token, as far as its kind tells. -/
def Token.Kind.spelling? : Token.Kind → Option String
  | punctuator sign => some sign.text
  | name text | int text | float text | string text | blockString text => some text
  | trueWord => some "true"
  | falseWord => some "false"
  | nullWord => some "null"
  | endOfInput => some ""
  | error _ => none

private theorem spelling?_wordKind (w : String) : (wordKind w).spelling? = some w := by
  unfold wordKind
  split
  · simp_all [Token.Kind.spelling?]
  · split
    · simp_all [Token.Kind.spelling?]
    · split <;> simp_all [Token.Kind.spelling?]

private theorem Punctuator.text_of_ofChar? {c : Char} {sign : Punctuator} (h : ofChar? c = some sign) :
    sign.text = String.ofList [c] := by
  unfold ofChar? at h
  split at h <;> cases h <;> rfl

/-- The text of a lexeme is the one that its kind tells. -/
def Lexeme.Spelled (lexeme : Lexeme) : Prop :=
  ∀ w, lexeme.kind.spelling? = some w → w = String.ofList lexeme.text

private theorem readDots_spelled (text : List Char) : (readDots text).Spelled := by
  intro w hw
  unfold readDots at hw ⊢
  split at hw
  · exact (Option.some.inj hw).symm
  · cases hw
  · cases hw

private theorem readString_spelled (text : List Char) : (readString text).Spelled := by
  intro w hw
  unfold readString at hw ⊢
  split at hw
  · dsimp only at hw ⊢
    split at hw
    · exact (Option.some.inj hw).symm
    · cases hw
  · dsimp only at hw ⊢
    split at hw
    · exact (Option.some.inj hw).symm
    · cases hw
    · cases hw

private theorem Number.read_spelled (text : List Char) : (read text).Spelled := by
  intro w hw
  unfold read at hw ⊢
  split at hw
  · dsimp only at hw ⊢
    split at hw <;> exact (Option.some.inj hw).symm
  · cases hw
  · cases hw

theorem Lexeme.read_spelled (c : Char) (rest : List Char) : (read c rest).Spelled := by
  cases reading c with
  | sign hsign hread =>
    intro w hw
    rw [hread] at hw ⊢
    rw [← Option.some.inj hw]
    exact Punctuator.text_of_ofChar? hsign
  | dots _ hread =>
    rw [hread]
    exact readDots_spelled _
  | string _ hread =>
    rw [hread]
    exact readString_spelled _
  | word _ hread =>
    intro w hw
    rw [hread, readName, spelling?_wordKind] at hw
    rw [hread]
    exact (Option.some.inj hw).symm
  | number _ hread =>
    rw [hread]
    exact Number.read_spelled _
  | stray hread =>
    intro w hw
    rw [hread] at hw
    cases hw

/-- A kind of token after which nothing is read. -/
def Token.Kind.IsLast (kind : Token.Kind) : Prop := kind = endOfInput ∨ kind.isError = true

/-- The source is made of the text `before`, a gap, the text of the token, and what follows. The token's span runs
over its text, and its kind tells no other text. At the end of the input the text is empty and nothing follows. -/
structure Token.Tile (t : Token) (source : String) (before gap text after : List Char) : Prop where
  source_eq : source.toList = before ++ gap ++ text ++ after
  ignored : LastGap gap
  first : t.span.first = .after (before ++ gap)
  stop : t.span.stop = .after (before ++ gap ++ text)
  spelling : ∀ w, t.kind.spelling? = some w → w = String.ofList text
  inside : t.kind ≠ .endOfInput → Gap gap ∧ text ≠ []
  atEnd : t.kind = .endOfInput → text = [] ∧ after = []

/-- Tokens that make up the source from the end of the text `before` on: the first stands behind a gap there, and
each other one behind a gap at the end of the token before it. -/
inductive Tiles (source : String) : List Char → List Token → Prop where
  | last {before gap text after : List Char} {t : Token} (h : t.Tile source before gap text after)
    (hlast : t.kind.IsLast) : Tiles source before [t]
  | cons {before gap text after : List Char} {t : Token} {ts : List Token}
    (h : t.Tile source before gap text after) (hlast : ¬ t.kind.IsLast)
    (rest : Tiles source (before ++ gap ++ text) ts) : Tiles source before (t :: ts)

/-- The end of the input stands behind a last gap. -/
theorem tile_endOfInput {source : String} {before gap : List Char} (h : source.toList = before ++ gap)
    (hgap : LastGap gap) : (⟨.endOfInput, .emptyAt (.after (before ++ gap))⟩ : Token).Tile source before gap [] [] where
  source_eq := by simpa using h
  ignored := hgap
  first := rfl
  stop := by rw [List.append_nil]; rfl
  spelling := fun w hw => (Option.some.inj hw).symm
  inside := fun h => absurd rfl h
  atEnd := fun _ => ⟨rfl, rfl⟩

/-- A lexeme stands behind a gap. -/
theorem tile_read {source : String} {before gap : List Char} {ch : Char} {rest : List Char}
    (h : source.toList = before ++ gap ++ ch :: rest) (hgap : Gap gap) :
    let lexeme := Lexeme.read ch rest
    (⟨lexeme.kind, ⟨.after (before ++ gap), .after (before ++ gap ++ lexeme.text)⟩⟩ : Token).Tile source before gap
      lexeme.text lexeme.rest := by
  have hkind := Lexeme.read_kind_ne_endOfInput ch rest
  exact {
    source_eq := by rw [h, List.append_assoc _ _ (Lexeme.read ch rest).rest, Lexeme.read_append]
    ignored := .closed hgap
    first := rfl
    stop := rfl
    spelling := Lexeme.read_spelled ch rest
    inside := fun _ => ⟨hgap, Lexeme.read_text_ne_nil ch rest⟩
    atEnd := fun h => absurd h hkind }

/-- From any place on, the tokens of the rest of the source tile it. -/
theorem tokensFrom_tiles {source : String} {before text : List Char} (h : source.toList = before ++ text) :
    Tiles source before (tokensFrom (.behind before) text) := by
  induction hn : text.length using Nat.strongRecOn generalizing before text with
  | ind n ih =>
    have hsplit := ignored_append text
    have hgap := gap_of_ignored text
    have hshort := ignored_rest_length text
    rw [tokensFrom_eq, Cursor.after_behind]
    cases hrest : (ignored text).2 with
    | nil =>
      rw [hrest, List.append_nil] at hsplit
      have hlast : LastGap (ignored text).1 := by
        rcases hgap with ⟨-, hgap⟩ | hgap
        · exact hgap
        · exact .closed hgap
      exact .last (tile_endOfInput (by rw [h, hsplit]) hlast) (.inl rfl)
    | cons ch rest =>
      rw [hrest] at hsplit hgap hshort
      have hclosed : Gap (ignored text).1 := by
        rcases hgap with ⟨hnil, -⟩ | hgap
        · cases hnil
        · exact hgap
      have hsource : source.toList = before ++ (ignored text).1 ++ ch :: rest := by
        rw [h, List.append_assoc, hsplit]
      have htile := tile_read hsource hclosed
      have hread := Lexeme.read_rest_length ch rest
      rw [List.length_cons] at hshort
      simp only [tokensAt, Cursor.after_behind]
      split
      · rename_i herror
        exact .last htile (.inr herror)
      · rename_i herror
        have hlast : ¬ (Lexeme.read ch rest).kind.IsLast := by
          rintro (hend | hend)
          · exact Lexeme.read_kind_ne_endOfInput ch rest hend
          · exact herror hend
        exact .cons htile hlast (ih _ (by omega) htile.source_eq rfl)

/-- The tokens of a source make it up from its beginning. -/
theorem tiles_tokens (source : String) : Tiles source [] (tokens source) := tokensFrom_tiles rfl

/-! ### What tiles tell -/

namespace Token.Tile

variable {t : Token} {source : String} {before gap text after : List Char}

/-- The span of a token covers the token's text. -/
theorem slice? (h : t.Tile source before gap text after) : t.span.slice? source = some (String.ofList text) := by
  have hspan : t.span = ⟨.after (before ++ gap), .after (before ++ gap ++ text)⟩ := by
    rw [← h.first, ← h.stop]
  rw [hspan]
  exact slice?_after h.source_eq

theorem first_le_stop (h : t.Tile source before gap text after) : t.span.first.offset ≤ t.span.stop.offset := by
  rw [h.first, h.stop]
  simp [Position.after]

/-- The end of the input is the empty span behind the whole source. -/
theorem span_endOfInput (h : t.Tile source before gap text after) (hkind : t.kind = .endOfInput) :
    t.span = .emptyAt (.after source.toList) := by
  obtain ⟨rfl, rfl⟩ := h.atEnd hkind
  have hsource := h.source_eq
  have hfirst := h.first
  have hstop := h.stop
  simp only [List.append_nil] at hsource hstop
  rw [← hsource] at hfirst hstop
  rw [Span.emptyAt, ← hfirst]
  exact congrArg (Span.mk t.span.first) (hstop.trans hfirst.symm)

end Token.Tile

namespace Tiles

variable {source : String} {before : List Char} {ts : List Token}

/-- One token ends the sequence, and it is the last. -/
theorem exists_last (h : Tiles source before ts) :
    ∃ us e, ts = us ++ [e] ∧ e.kind.IsLast ∧ ∀ t ∈ us, ¬ t.kind.IsLast := by
  induction h with
  | @last _ _ _ _ t _ hlast => exact ⟨[], t, rfl, hlast, by simp⟩
  | @cons _ _ _ _ t _ _ hlast _ ih =>
    obtain ⟨us, e, rfl, he, hus⟩ := ih
    exact ⟨t :: us, e, rfl, he, List.forall_mem_cons.2 ⟨hlast, hus⟩⟩

/-- Every token has its tile. -/
theorem exists_tile (h : Tiles source before ts) {t : Token} (ht : t ∈ ts) :
    ∃ start gap text after, t.Tile source start gap text after ∧ before <+: start := by
  induction h with
  | @last before gap text after u h _ =>
    obtain rfl : t = u := by simpa using ht
    exact ⟨before, gap, text, after, h, List.prefix_rfl⟩
  | @cons before gap text after u us h _ _ ih =>
    rcases List.mem_cons.1 ht with rfl | ht
    · exact ⟨before, gap, text, after, h, List.prefix_rfl⟩
    · obtain ⟨start, gap', text', after', hu, hprefix⟩ := ih ht
      refine ⟨start, gap', text', after', hu, ?_⟩
      rw [List.append_assoc] at hprefix
      exact (List.prefix_append _ _).trans hprefix

/-- No token starts before the ones in front of it have ended. -/
theorem pairwise_le (h : Tiles source before ts) :
    ts.Pairwise fun t u => t.span.stop.offset ≤ u.span.first.offset := by
  induction h with
  | last => exact List.pairwise_singleton _ _
  | @cons before gap text after t us h _ rest ih =>
    refine List.pairwise_cons.2 ⟨fun u hu => ?_, ih⟩
    obtain ⟨start, gap', text', after', htile, stretch, rfl⟩ := rest.exists_tile hu
    rw [h.stop, htile.first]
    simp [Position.after]

end Tiles

/-- The tokens and the gaps between them make up the source. One token is the last, no token starts before the ones
in front of it have ended, every span covers a stretch of the source, which is what the token's kind tells, and the
end of the input stands behind the whole source. -/
theorem tokens_tile (source : String) :
    Tiles source [] (tokens source) ∧
      (∃ ts e, tokens source = ts ++ [e] ∧ e.kind.IsLast ∧ ∀ t ∈ ts, ¬ t.kind.IsLast) ∧
      ((tokens source).Pairwise fun t u => t.span.stop.offset ≤ u.span.first.offset) ∧
      ∀ t ∈ tokens source,
        t.span.first.offset ≤ t.span.stop.offset ∧
        (∃ text, t.span.slice? source = some text ∧ ∀ w, t.kind.spelling? = some w → w = text) ∧
        (t.kind = .endOfInput → t.span = .emptyAt (.after source.toList)) := by
  have htiles := tiles_tokens source
  refine ⟨htiles, htiles.exists_last, htiles.pairwise_le, fun t ht => ?_⟩
  obtain ⟨before, gap, text, after, htile, -⟩ := htiles.exists_tile ht
  exact ⟨htile.first_le_stop, ⟨_, htile.slice?, htile.spelling⟩, htile.span_endOfInput⟩

private theorem utf16Size_le (c : Char) : utf16Size c ≤ c.utf8Size := by
  have hpos := c.utf8Size_pos
  by_cases hwide : c.toNat < 0x10000
  · rw [utf16Size, if_pos hwide]
    exact hpos
  · -- a character of two units has four bytes
    have hlarge (n : UInt32) (hn : n.toNat < 0x10000) : ¬ c.val ≤ n := by
      intro hle
      have : c.toNat ≤ n.toNat := UInt32.le_iff_toNat_le.1 hle
      omega
    rw [utf16Size, if_neg hwide, Char.utf8Size, if_neg (hlarge _ (by decide)), if_neg (hlarge _ (by decide)),
      if_neg (hlarge _ (by decide))]
    decide

/-- No line or column runs ahead of the bytes. -/
def Position.Bounded (p : Position) : Prop := p.line + p.column16 ≤ p.offset ∧ p.column ≤ p.column16

private theorem Cursor.step_bounded {c : Cursor} (h : c.position.Bounded) (ch : Char) :
    (c.step ch).position.Bounded := by
  obtain ⟨hline, hcolumn⟩ := h
  have hpos := ch.utf8Size_pos
  have hsize := utf16Size_le ch
  have hunit : 1 ≤ utf16Size ch := by
    unfold utf16Size
    split <;> omega
  unfold step
  split
  · exact ⟨by simp only; omega, hcolumn⟩
  · split
    · exact ⟨by simp only; omega, Nat.le_refl 0⟩
    · exact ⟨by simp only; omega, by simp only; omega⟩

private theorem Cursor.after_bounded {c : Cursor} (h : c.position.Bounded) (text : List Char) :
    (c.after text).position.Bounded := by
  induction text generalizing c with
  | nil => exact h
  | cons ch text ih => exact ih (step_bounded h ch)

/-- No line or column behind a text runs ahead of the bytes. -/
private theorem Position.after_bounded (text : List Char) : (after text).Bounded := by
  have h := Cursor.after_bounded (c := .start) ⟨Nat.le_refl 0, Nat.le_refl 0⟩ text
  rwa [Cursor.start_eq_behind, Cursor.after_behind] at h

/-- Both ends of a token's span are the places counted afresh from the source in front of them, and no line, column
or offset exceeds the length of the source in bytes. -/
theorem tokens_positions (source : String) {t : Token} (ht : t ∈ tokens source) :
    ∀ p ∈ [t.span.first, t.span.stop], ∃ text, takeBytes p.offset source.toList = some text ∧ p = .after text ∧
      p.line ≤ p.offset ∧ p.column ≤ p.offset ∧ p.column16 ≤ p.offset ∧ p.offset ≤ utf8Length source.toList := by
  obtain ⟨before, gap, text, after, htile, -⟩ := (tiles_tokens source).exists_tile ht
  -- both ends stand behind some text that the source begins with
  have hplace : ∀ p ∈ [t.span.first, t.span.stop], ∃ s rest, source.toList = s ++ rest ∧ p = .after s := by
    intro p hp
    simp only [List.mem_cons, List.not_mem_nil, or_false] at hp
    rcases hp with rfl | rfl
    · exact ⟨before ++ gap, text ++ after, by rw [htile.source_eq, List.append_assoc], htile.first⟩
    · exact ⟨before ++ gap ++ text, after, htile.source_eq, htile.stop⟩
  intro p hp
  obtain ⟨s, rest, hsource, rfl⟩ := hplace p hp
  obtain ⟨hline, hcolumn⟩ := Position.after_bounded s
  have hoffset : (Position.after s).offset ≤ utf8Length source.toList := by
    rw [hsource, utf8Length_append]
    exact Nat.le_add_right _ _
  exact ⟨s, by rw [hsource]; exact takeBytes_append s rest, rfl, by omega, by omega, by omega, hoffset⟩

/-- A name behind a block string that holds a line ending and a character of two code units. -/
theorem tokens_positions_of_blockString :
    let source := "\"\"\"\r\n😀\"\"\"x"
    let t : Token := ⟨.name "x", ⟨⟨1, 4, 5, 12⟩, ⟨1, 5, 6, 13⟩⟩⟩
    t ∈ tokens source ∧ ∀ p ∈ [t.span.first, t.span.stop], ∃ text, takeBytes p.offset source.toList = some text ∧
      p = .after text ∧ p.line ≤ p.offset ∧ p.column ≤ p.offset ∧ p.column16 ≤ p.offset ∧
      p.offset ≤ utf8Length source.toList := by
  intro source t
  have ht : t ∈ tokens source := by
    obtain ⟨text, htext, hmem⟩ : ∃ text, source.toList = text ∧ t ∈ lexChars text :=
      ⟨_, String.toList_ofList, by decide +kernel⟩
    rwa [tokens_eq_lexChars htext]
  exact ⟨ht, tokens_positions source ht⟩

end GraphQL
