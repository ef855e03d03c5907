import GraphQL.Proofs.LineFeeds
import GraphQL.Proofs.SpanExact
import GraphQL.Proofs.TextReads

/-!
# Line endings do not matter

A source whose line terminators are all written as line feeds has the same tokens, each at the place that is counted
afresh in the changed text (`tokens_withFeeds`), which is a relocation. So the source is parsed to the relocated
document, with the same lines and columns throughout (`parse_withFeeds`).
-/

namespace GraphQL

/-- The characters at the front of a text that fit into `n` bytes. -/
def firstBytes : Nat → List Char → List Char
  | _, [] => []
  | n, c :: text => if c.utf8Size ≤ n then c :: firstBytes (n - c.utf8Size) text else []

private theorem firstBytes_append (s t : List Char) : firstBytes (utf8Length s) (s ++ t) = s := by
  induction s with
  | nil =>
    cases t with
    | nil => rfl
    | cons c t =>
      have hpos := c.utf8Size_pos
      rw [List.nil_append, utf8Length_nil, firstBytes, if_neg (by omega)]
  | cons c s ih =>
    rw [List.cons_append, utf8Length_cons, firstBytes, if_pos (by omega), Nat.add_sub_cancel_left, ih]

/-- More bytes hold more of the text. -/
theorem firstBytes_mono {n k : Nat} (h : n ≤ k) (text : List Char) : firstBytes n text <+: firstBytes k text := by
  induction text generalizing n k with
  | nil => exact List.prefix_rfl
  | cons c text ih =>
    unfold firstBytes
    by_cases hc : c.utf8Size ≤ n
    · rw [if_pos hc, if_pos (Nat.le_trans hc h)]
      exact List.cons_prefix_cons.2 ⟨rfl, ih (by omega)⟩
    · rw [if_neg hc]
      exact List.nil_prefix

namespace Relocation

section

variable {f : List Char → List Char}

private theorem place_origin_counting (hnil : f [] = []) (text : List Char) :
    Position.after (f (firstBytes Position.origin.offset text)) = .origin := by
  have hnone := firstBytes_append [] text
  rw [List.nil_append, utf8Length_nil] at hnone
  rw [Position.origin, hnone, hnil]
  rfl

private theorem ordered_counting (hmono : ∀ {s t}, s <+: t → f s <+: f t) (text : List Char) (p q : Position)
    (h : p.offset ≤ q.offset) : Position.after (f (firstBytes p.offset text)) = .after (f (firstBytes q.offset text)) ∨
      (Position.after (f (firstBytes p.offset text))).offset <
        (Position.after (f (firstBytes q.offset text))).offset := by
  obtain ⟨more, hmore⟩ := hmono (firstBytes_mono h text)
  rw [← hmore]
  cases more with
  | nil => exact .inl (by rw [List.append_nil])
  | cons c more =>
    have hpos := utf8Length_pos (List.cons_ne_nil c more)
    simp only [Position.after, utf8Length_append]
    exact .inr (by omega)

end

/-- Counts each place of a text afresh in what `f` makes of the text in front of it. -/
def counting (f : List Char → List Char) (hnil : f [] = []) (hmono : ∀ {s t}, s <+: t → f s <+: f t)
    (block : String → String) (hblock : ∀ raw, Block.cook (block raw) = Block.cook raw) (text : List Char) :
    Relocation where
  place p := .after (f (firstBytes p.offset text))
  block := block
  place_origin := place_origin_counting hnil text
  ordered := ordered_counting hmono text
  cook_block := hblock

private theorem cook_block_id (raw : String) : Block.cook (id raw) = Block.cook raw := rfl

/-- Counts each place of the text afresh. -/
def afresh (text : List Char) : Relocation := counting id rfl id id cook_block_id text

/-- Counts each place of the text where its line terminators are line feeds. -/
def feeding (text : List Char) : Relocation :=
  counting withFeeds rfl withFeeds_mono Block.literalWithFeeds Block.cook_withFeeds text

private theorem place_afresh {text s t : List Char} (h : text = s ++ t) :
    (afresh text).place (.after s) = .after s := by
  subst h
  exact congrArg Position.after (firstBytes_append s t)

private theorem place_feeding {text s t : List Char} (h : text = s ++ t) :
    (feeding text).place (.after s) = .after (withFeeds s) := by
  subst h
  exact congrArg (Position.after ∘ withFeeds) (firstBytes_append s t)

end Relocation

/-! ### Tokens -/

open Relocation

/-- The tokens of a source stand where their places are counted afresh. -/
theorem tokens_afresh (source : String) : (tokens source).map (afresh source.toList).token = tokens source := by
  refine (List.map_congr_left fun t ht => ?_).trans (List.map_id _)
  obtain ⟨before, gap, text, after, htile, -⟩ := (tiles_tokens source).exists_tile ht
  have hkind : (afresh source.toList).kind t.kind = t.kind := kind_eq_self _ (fun _ => rfl) _
  have hparts : source.toList = before ++ gap ++ (text ++ after) := by rw [htile.source_eq, List.append_assoc]
  have hfirst := place_afresh hparts
  have hstop := place_afresh htile.source_eq
  rw [← htile.first] at hfirst
  rw [← htile.stop] at hstop
  rw [token, hkind, Relocation.span, hfirst, hstop]
  rfl

/-- The first token of a changed text. -/
theorem tokensFrom_cons_withFeeds {m : Relocation} (hm : m.block = Block.literalWithFeeds) {gap cs rest : List Char}
    {ch : Char} {kind : Token.Kind} (hgap : Gap gap) (hread : Lexeme.read ch (cs ++ rest) = ⟨kind, ch :: cs, rest⟩)
    (hkind : ¬ kind.IsLast) : ch ≠ '\n' ∧ (ch :: cs).getLast? ≠ some '\r' ∧ ∀ c,
      tokensFrom c (withFeeds gap ++ (withFeeds (ch :: cs) ++ withFeeds rest)) =
        ⟨m.kind kind, ⟨(c.after (withFeeds gap)).position,
          ((c.after (withFeeds gap)).after (withFeeds (ch :: cs))).position⟩⟩ ::
          tokensFrom ((c.after (withFeeds gap)).after (withFeeds (ch :: cs))) (withFeeds rest) := by
  have herror : kind.isError = false := by
    rw [← Bool.not_eq_true]
    exact fun herror => hkind (.inr herror)
  have hsound : (m.kind kind).isError = false := by rw [m.isError_kind, herror]
  have hstarts (z : List Char) : StartsToken (ch :: z) := startsToken_of_read (by rw [hread]; exact herror) z
  obtain ⟨hblank, hhash⟩ := hstarts [] ch rfl
  obtain ⟨hlast, cs', hchanged, hagain⟩ := Lexeme.read_withFeeds hm hread hkind
  refine ⟨fun hfeed => absurd (hfeed ▸ hblank) (by decide), hlast, fun c => ?_⟩
  rw [hchanged, List.cons_append, tokensFrom_gap hgap.withFeeds (hstarts _),
    tokensFrom_read hblank hhash _ _ hagain hsound]

/-- What is left where the end of the input comes next is a last gap. -/
theorem lastGap_of_tokensFrom {c : Cursor} {text : List Char} {e : Token} (h : tokensFrom c text = [e])
    (he : e.kind = .endOfInput) : LastGap text ∧ e.span = .emptyAt (c.after text).position := by
  have hparts := ignored_append text
  rw [tokensFrom_eq] at h
  cases hrest : (ignored text).2 with
  | nil =>
    rw [hrest, List.append_nil] at hparts
    rw [hrest, hparts] at h
    obtain rfl := (List.cons.inj h).1
    rcases gap_of_ignored text with ⟨-, hlast⟩ | hgap
    · exact ⟨hparts ▸ hlast, rfl⟩
    · exact ⟨hparts ▸ .closed hgap, rfl⟩
  | cons ch rest =>
    rw [hrest] at h
    simp only [tokensAt] at h
    have hkind := Lexeme.read_kind_ne_endOfInput ch rest
    split at h <;> exact absurd ((congrArg Token.kind (List.cons.inj h).1).trans he) hkind

/-- From any place on that parts no line terminator, the tokens of the changed text are those of the text, up to the
end of the input. -/
theorem tokensFrom_withFeeds {source before text : List Char} {ts : List Token} {e : Token}
    (hsource : source = before ++ text) (hsplit : before.getLast? = some '\r' → text.head? ≠ some '\n')
    (h : tokensFrom (.behind before) text = ts ++ [e]) (he : e.kind = .endOfInput)
    (hts : ∀ t ∈ ts, ¬ t.kind.IsLast) :
    tokensFrom (.behind (withFeeds before)) (withFeeds text) = (ts ++ [e]).map (feeding source).token := by
  induction ts generalizing before text with
  | nil =>
    obtain ⟨hgap, hspan⟩ := lastGap_of_tokensFrom h he
    have hplace := place_feeding (List.append_nil source).symm
    rw [Cursor.after_behind, ← hsource] at hspan
    rw [tokensFrom_eq, ignored_lastGap hgap.withFeeds, Cursor.after_behind, ← withFeeds_append hsplit, ← hsource]
    simp only [tokensAt, List.nil_append, List.map_cons, List.map_nil, token, he, hspan, Relocation.kind,
      Relocation.span, Span.emptyAt, Cursor.behind, hplace]
  | cons t ts ih =>
    obtain ⟨gap, ch, cs, rest, rfl, hgap, hread, hspan, htail⟩ := exists_read h (hts t (by simp))
    obtain ⟨hfeed, hlast, htokens⟩ := tokensFrom_cons_withFeeds (m := feeding source) rfl hgap hread (hts t (by simp))
    have hparts : source = before ++ gap ++ (ch :: cs ++ rest) := by rw [hsource, List.append_assoc]
    have hparts' : source = before ++ gap ++ ch :: cs ++ rest := by rw [hparts, List.append_assoc _ (ch :: cs)]
    -- the changed text falls into the same parts
    have hgapText : withFeeds (gap ++ (ch :: cs ++ rest)) =
        withFeeds gap ++ (withFeeds (ch :: cs) ++ withFeeds rest) := by
      rw [withFeeds_append fun _ => by simpa using hfeed, withFeeds_append fun hreturn => absurd hreturn hlast]
    have hfront : withFeeds (before ++ gap) = withFeeds before ++ withFeeds gap :=
      withFeeds_append fun hreturn hhead => hsplit hreturn (by
        obtain ⟨tail, rfl⟩ := List.head?_eq_some_iff.1 hhead
        rfl)
    have hbefore : withFeeds (before ++ gap ++ ch :: cs) =
        withFeeds before ++ withFeeds gap ++ withFeeds (ch :: cs) := by
      rw [withFeeds_append fun _ => by simpa using hfeed, hfront]
    have hsplit' : (before ++ gap ++ ch :: cs).getLast? = some '\r' → rest.head? ≠ some '\n' := by
      have hend : (before ++ gap ++ ch :: cs).getLast? = (ch :: cs).getLast? := by
        simp [List.getLast?_append, List.getLast?_cons]
      rw [hend]
      exact fun hreturn => absurd hreturn hlast
    rw [Cursor.after_behind, Cursor.after_behind] at hspan htail
    have hrest := ih hparts' hsplit' htail.symm fun u hu => hts u (by simp [hu])
    have htoken : (feeding source).token t = ⟨(feeding source).kind t.kind,
        ⟨.after (withFeeds (before ++ gap)), .after (withFeeds (before ++ gap ++ ch :: cs))⟩⟩ := by
      rw [token, hspan, Relocation.span]
      simp only [Cursor.behind, place_feeding hparts, place_feeding hparts']
    rw [hgapText, htokens, Cursor.after_behind, Cursor.after_behind, ← hbefore, ← hfront, hrest, List.cons_append,
      List.map_cons, htoken]
    rfl

/-- The source with a line feed for every line terminator. -/
def sourceWithFeeds (source : String) : String := String.ofList (withFeeds source.toList)

/-- Where its tokens are no errors, the changed source has the same tokens, relocated. -/
theorem tokens_withFeeds {source : String} {ts : List Token} {e : Token} (h : tokens source = ts ++ [e])
    (he : e.kind = .endOfInput) :
    tokens (sourceWithFeeds source) = (tokens source).map (feeding source.toList).token := by
  obtain ⟨us, e', htokens, -, hus⟩ := (tiles_tokens source).exists_last
  obtain ⟨rfl, -⟩ := List.append_inj' (h.symm.trans htokens) rfl
  have hstart : tokensFrom (.behind []) source.toList = ts ++ [e] := h
  rw [tokens, sourceWithFeeds, String.toList_ofList, h]
  exact tokensFrom_withFeeds (List.nil_append _).symm (by simp) hstart he hus

/-- Forgets the bytes in front of each place, and keeps its line and columns. -/
def Restyle.withoutOffsets : Restyle :=
  ⟨fun s => ⟨{ s.first with offset := 0 }, { s.stop with offset := 0 }⟩, fun _ block => block, (·.shorthand)⟩

private theorem feeding_withoutOffsets (text : List Char) :
    (feeding text).restyle.andThen .withoutOffsets = (afresh text).restyle.andThen .withoutOffsets := by
  have hplace (p : Position) : ({ (feeding text).place p with offset := 0 } : Position) =
      { (afresh text).place p with offset := 0 } := by
    change ({ Position.after (withFeeds _) with offset := 0 } : Position) = _
    rw [Position.after_withFeeds]
    rfl
  have hspan (s : Span) : Restyle.withoutOffsets.span ((feeding text).span s) =
      Restyle.withoutOffsets.span ((afresh text).span s) := by
    change Span.mk _ _ = Span.mk _ _
    exact congr (congrArg Span.mk (hplace s.first)) (hplace s.stop)
  exact congrArg (Restyle.mk · _ _) (funext hspan)

/-- What a parse step that moves to itself makes of a source, it makes of the changed source up to the bytes. -/
theorem Parse.run_withFeeds {α : Type} {p : Parse α} {k : Restyle → α → α} {source : String} {a : α}
    {ts : List Token} {e : Token} (hmoves : ∀ m : Relocation, Moves m (k m.restyle) p p)
    (hk : ∀ r r' a, k r' (k r a) = k (r.andThen r') a) (h : tokens source = ts ++ [e]) (he : e.kind = .endOfInput)
    (hrun : p.run (tokens source) = .ok a) :
    ∃ a', p.run (tokens (sourceWithFeeds source)) = .ok a' ∧ k .withoutOffsets a' = k .withoutOffsets a := by
  have hfed := (hmoves (feeding source.toList)).run (tokens source)
  have hafresh := (hmoves (afresh source.toList)).run (tokens source)
  rw [← tokens_withFeeds h he, hrun] at hfed
  rw [tokens_afresh, hrun] at hafresh
  have ha : a = k (afresh source.toList).restyle a := Except.ok.inj hafresh
  refine ⟨_, hfed, ?_⟩
  calc k .withoutOffsets (k (feeding source.toList).restyle a)
      = k ((afresh source.toList).restyle.andThen .withoutOffsets) a := by rw [hk, feeding_withoutOffsets]
    _ = k .withoutOffsets (k (afresh source.toList).restyle a) := (hk _ _ a).symm
    _ = k .withoutOffsets a := by rw [← ha]

/-- A source that is parsed is parsed in the same way when each of its line terminators is a line feed: the documents
are equal but for the byte offsets in their spans. -/
theorem parse_withFeeds (source : String) :
    (∀ d, Document.parse source = .ok d → ∃ d', Document.parse (sourceWithFeeds source) = .ok d' ∧
      d'.restyle .withoutOffsets = d.restyle .withoutOffsets) ∧
    ∀ d, SchemaDocument.parse source = .ok d → ∃ d', SchemaDocument.parse (sourceWithFeeds source) = .ok d' ∧
      d'.restyle .withoutOffsets = d.restyle .withoutOffsets := by
  constructor
  · intro d hd
    obtain ⟨⟨ts, e, htokens, he, -⟩, -⟩ := Document.exactIn_of_parse hd
    exact Parse.run_withFeeds (k := fun r d => d.restyle r) (fun _ => Parse.document_moves)
      (fun r r' d => d.restyle_restyle r r') htokens he hd
  · intro d hd
    obtain ⟨⟨ts, e, htokens, he, -⟩, -⟩ := SchemaDocument.exactIn_of_parse hd
    exact Parse.run_withFeeds (k := fun r d => d.restyle r) (fun _ => Parse.schemaDocument_moves)
      (fun r r' d => d.restyle_restyle r r') htokens he hd

set_option maxRecDepth 20000 in
/-- A comment that a carriage return ends, a block string with all three line terminators, and a type with a described
field. -/
theorem parse_withFeeds_of_returns :
    (∃ d d', Document.parse "# c\r\x7b a(b: \"\"\"\r\n  x\r   y\n\"\"\")\r\n\x7d" = .ok d ∧
      Document.parse (sourceWithFeeds "# c\r\x7b a(b: \"\"\"\r\n  x\r   y\n\"\"\")\r\n\x7d") = .ok d' ∧
      d'.restyle .withoutOffsets = d.restyle .withoutOffsets) ∧
    ∃ d d', SchemaDocument.parse "type A \x7b\r\n \"\"\"\r\"\"\" b: C,\r\x7d" = .ok d ∧
      SchemaDocument.parse (sourceWithFeeds "type A \x7b\r\n \"\"\"\r\"\"\" b: C,\r\x7d") = .ok d' ∧
      d'.restyle .withoutOffsets = d.restyle .withoutOffsets := by
  constructor
  · obtain ⟨text, htext, hparse⟩ : ∃ text,
        "# c\r\x7b a(b: \"\"\"\r\n  x\r   y\n\"\"\")\r\n\x7d".toList = text ∧
        (Parse.document.run (lexChars text)).isOk :=
      ⟨_, String.toList_ofList, by decide +kernel⟩
    rw [← Document.parse_eq htext] at hparse
    cases hd : Document.parse _ with
    | error cause => simp [hd, Except.isOk, Except.toBool] at hparse
    | ok d =>
      obtain ⟨d', hd', heq⟩ := (parse_withFeeds _).1 d hd
      exact ⟨d, d', rfl, hd', heq⟩
  · obtain ⟨text, htext, hparse⟩ : ∃ text,
        "type A \x7b\r\n \"\"\"\r\"\"\" b: C,\r\x7d".toList = text ∧
        (Parse.schemaDocument.run (lexChars text)).isOk :=
      ⟨_, String.toList_ofList, by decide +kernel⟩
    rw [← SchemaDocument.parse_eq htext] at hparse
    cases hd : SchemaDocument.parse _ with
    | error cause => simp [hd, Except.isOk, Except.toBool] at hparse
    | ok d =>
      obtain ⟨d', hd', heq⟩ := (parse_withFeeds _).2 d hd
      exact ⟨d, d', rfl, hd', heq⟩

end GraphQL
