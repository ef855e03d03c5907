import GraphQL.Proofs.SchemaGrammar
import GraphQL.Proofs.SchemaSpans
import GraphQL.Proofs.TokenCut

/-!
# Spans of parsed documents

A document that is parsed is located in all tokens of its source, so that each of its nodes has the span from the
start of its first token to the end of its last, and nodes are nested as their tokens stand. The text of the span of
a definition is parsed as a document with this definition alone (`parse_exact`).
-/

namespace GraphQL

/-- The tokens of a source stand in order. -/
theorem inOrder_tokens (source : String) : InOrder (tokens source) := by
  have htiles := tiles_tokens source
  refine ⟨fun t ht hkind => ?_, htiles.pairwise_le⟩
  obtain ⟨before, gap, text, after, htile, -⟩ := htiles.exists_tile ht
  have hpos := utf8Length_pos (htile.inside hkind).2
  rw [htile.first, htile.stop]
  simp only [Position.after, utf8Length_append]
  omega

namespace Parse

variable {α β : Type}

/-- What is left at the end of the input is just its end. -/
theorem eq_end_of_passes {source : String} {i : Input} {ts : List Token}
    (h : Input.Passes ⟨tokens source, none⟩ ts i) (hend : Input.AtEnd i) :
    ∃ e, tokens source = ts ++ [e] ∧ e.kind = .endOfInput := by
  obtain ⟨us, e, htokens, he, hus⟩ := (tiles_tokens source).exists_last
  have hall : tokens source = ts ++ i.tokens := h.tokens
  rw [htokens] at hall
  cases hleft : i.tokens with
  | nil =>
    -- all tokens would have been passed, also the last
    rw [hleft, List.append_nil] at hall
    exact absurd he (h.inside e (by simp [← hall]))
  | cons t rest =>
    have ht : t.kind = .endOfInput := hend t (by rw [hleft]; rfl)
    rw [hleft] at hall
    rcases List.eq_nil_or_concat rest with rfl | ⟨rest, last, rfl⟩
    · exact ⟨t, by rw [htokens, hall], ht⟩
    · have hconcat : us ++ [e] = (ts ++ t :: rest) ++ [last] := by simpa using hall
      have hmem : t ∈ us := by simp [(List.append_inj' hconcat rfl).1]
      exact absurd (.inl ht) (hus t hmem)

variable {kind : DocumentKind} {p : Parse α} {tree : α → SyntaxTree} {spanOf : α → Span}
  {P : List Token → α → Prop} {source : String}

/-- What a document is located in: all tokens but the end of the input, with a stretch for each of its definitions. -/
structure LocatedItems (tree : α → SyntaxTree) (P : List Token → α → Prop) (source : String) (items : List α)
    (span : Span) (ts : List Token) : Prop where
  exists_end : ∃ e, tokens source = ts ++ [e] ∧ e.kind = .endOfInput
  inside : ∀ t ∈ ts, ¬ t.kind.IsLast
  located : Located [.node span (items.map tree)] ts
  stretches : ∀ a ∈ items, ∃ before us after, ts = before ++ us ++ after ∧ Located [tree a] us ∧ P us a

private theorem exists_locatedItems {f : List α × Span → β} (htakes : Takes p fun a => [tree a])
    (hconsumes : Consumes p fun us a => us ≠ [] ∧ P us a) (htree : ∀ a, ∃ parts, tree a = .node (spanOf a) parts)
    {b : β} (hb : Parse.run (definitions kind p >>= fun r => pure (f r)) (tokens source) = .ok b) :
    ∃ r ts, b = f r ∧ LocatedItems tree P source r.1 r.2 ts := by
  unfold Parse.run at hb
  cases hrun : StateT.run (definitions kind p >>= fun r => pure (f r)) ⟨tokens source, none⟩ with
  | error cause =>
    rw [hrun] at hb
    cases hb
  | ok result =>
    obtain ⟨b', i'⟩ := result
    rw [hrun] at hb
    obtain rfl : b' = b := Except.ok.inj hb
    have hgenuine : Input.Genuine ⟨tokens source, none⟩ := tokensFrom_genuine _ _
    have hbehind : Input.Behind [] ⟨tokens source, none⟩ := ⟨hgenuine, inOrder_tokens source, fun h => absurd rfl h⟩
    obtain ⟨r, j, hdefinitions, hpure⟩ := run_bind_ok hrun
    obtain ⟨rfl, rfl⟩ := Prod.mk.inj (Except.ok.inj hpure)
    have htakesToken (a : α) : (tree a).TakesToken := by
      obtain ⟨parts, hparts⟩ := htree a
      rw [hparts]
      trivial
    have hafter : After [] (definitions kind p) _ :=
      definitions_after (htakes.and (hconsumes.mono fun _ _ h => h.2)) htakesToken
    obtain ⟨ts, hpasses, hlocated, hstretches⟩ := hafter _ r j hbehind hdefinitions
    exact ⟨r, ts, rfl, eq_end_of_passes hpasses (atEnd_of_definitions hconsumes hgenuine hdefinitions),
      hpasses.inside, hlocated, hstretches⟩

namespace LocatedItems

variable {items : List α} {span : Span} {ts : List Token}

private theorem nested (h : LocatedItems tree P source items span ts) :
    (SyntaxTree.node span (items.map tree)).Nested := by
  obtain ⟨e, htokens, -⟩ := h.exists_end
  have hordered : InOrder ts := by
    have := inOrder_tokens source
    rw [htokens] at this
    exact this.sublist (List.sublist_append_left _ _)
  exact h.located.nested hordered (fun t ht hkind => h.inside t ht (.inl hkind)) _ (by simp)

/-- The text of a definition's span has the tokens of the definition. -/
theorem exists_tokens (h : LocatedItems tree P source items span ts)
    (htree : ∀ a, ∃ parts, tree a = .node (spanOf a) parts) {a : α} (ha : a ∈ items) :
    ∃ us ts' e, tokens ((spanOf a).text source) = ts' ++ [e] ∧ e.kind = .endOfInput ∧
      ts'.map Token.terminal = us.map Token.terminal ∧ P us a := by
  obtain ⟨e, htokens, -⟩ := h.exists_end
  obtain ⟨before, us, after, rfl, hlocated, hP⟩ := h.stretches a ha
  obtain ⟨parts, hparts⟩ := htree a
  rw [hparts] at hlocated
  have hall : tokens source = before ++ us ++ (after ++ [e]) := by rw [htokens, List.append_assoc]
  have hkinds := tokens_of_text hall (fun t ht => h.inside t (List.mem_append_left _ ht)) (located_node.1 hlocated).2
  obtain ⟨ts', rest, hrest, hts', hend⟩ := List.map_eq_append_iff.1 hkinds
  obtain ⟨e', rfl, he'⟩ := List.map_eq_singleton_iff.1 hend
  refine ⟨us, ts', e', hrest, he', ?_, hP⟩
  have hterminals := congrArg (List.map Token.Kind.terminal) hts'
  rwa [List.map_map, List.map_map] at hterminals

end LocatedItems

end Parse

/-- The nodes of the tree have the spans of their tokens, which are all of the source but the end of the input, and they
are nested. -/
def SyntaxTree.ExactIn (tree : SyntaxTree) (source : String) : Prop :=
  ∃ ts e, tokens source = ts ++ [e] ∧ e.kind = .endOfInput ∧ Located [tree] ts ∧ tree.Nested

theorem Definition.tree_eq (x : Definition) : ∃ parts, x.tree = .node x.span parts := by
  cases x with
  | operation o =>
    simp only [tree, Operation.tree, span]
    split <;> exact ⟨_, rfl⟩
  | fragment f => exact ⟨_, rfl⟩

/-- A document that is parsed is exact in its source, and the text of each definition's span is parsed as a document
with just this definition, up to spans. -/
theorem Document.exactIn_of_parse {source : String} {d : Document} (h : Document.parse source = .ok d) :
    d.tree.ExactIn source ∧ ∀ x ∈ d.definitions, ∃ d', Document.parse (x.span.text source) = .ok d' ∧
      d'.definitions.map (·.restyle .erase) = [x.restyle .erase] := by
  have hdefinition : Parse.Consumes Parse.definition fun us x =>
      us ≠ [] ∧ Parse.Writes Definition.terminals Definition.Fits us x :=
    Parse.definition_consumes.mono fun us x hx => ⟨hx.ne_nil x.terminals_ne_nil, hx.toWrites⟩
  obtain ⟨r, ts, rfl, hlocated⟩ := Parse.exists_locatedItems Parse.definition_takes hdefinition Definition.tree_eq
    (f := fun r => (⟨r.1, r.2⟩ : Document)) h
  obtain ⟨e, htokens, he⟩ := hlocated.exists_end
  refine ⟨⟨ts, e, htokens, he, hlocated.located, hlocated.nested⟩, fun x hx => ?_⟩
  obtain ⟨us, ts', e', htext, he', hterminals, hwrites⟩ := hlocated.exists_tokens Definition.tree_eq hx
  -- the definition alone is a document, which is written with the tokens of the text
  have hfits : Document.Fits ⟨[x], x.span⟩ := ⟨by simp, by simpa using hwrites.fits⟩
  have hdocument : ts'.map Token.terminal = Document.terminals ⟨[x], x.span⟩ := by
    rw [hterminals, hwrites.terminals]
    simp [Document.terminals]
  obtain ⟨d', hparse, herase⟩ := exists_parse_of_writes htext he' hfits hdocument
  exact ⟨d', hparse, congrArg Document.definitions herase⟩

private theorem TypeSystemDefinition.tree_eq (x : TypeSystemDefinition) : ∃ parts, x.tree = .node x.span parts := by
  cases x <;> exact ⟨_, rfl⟩

/-- A schema document that is parsed is exact in its source, and the text of each definition's span is parsed as a
schema document with just this definition, up to spans. -/
theorem SchemaDocument.exactIn_of_parse {source : String} {d : SchemaDocument}
    (h : SchemaDocument.parse source = .ok d) :
    d.tree.ExactIn source ∧ ∀ x ∈ d.definitions, ∃ d', SchemaDocument.parse (x.span.text source) = .ok d' ∧
      d'.definitions.map (·.restyle .erase) = [x.restyle .erase] := by
  obtain ⟨r, ts, rfl, hlocated⟩ := Parse.exists_locatedItems Parse.typeSystemDefinition_takes
    (Parse.typeSystemDefinition_consumes.mono fun us x hx => ⟨hx.ne_nil, hx⟩) TypeSystemDefinition.tree_eq
    (f := fun r => (⟨r.1, r.2⟩ : SchemaDocument)) h
  obtain ⟨e, htokens, he⟩ := hlocated.exists_end
  refine ⟨⟨ts, e, htokens, he, hlocated.located, hlocated.nested⟩, fun x hx => ?_⟩
  obtain ⟨us, ts', e', htext, he', hterminals, ⟨leading, hwritten⟩, hfits⟩ :=
    hlocated.exists_tokens TypeSystemDefinition.tree_eq hx
  have hfits' : SchemaDocument.Fits ⟨[x], x.span⟩ := ⟨by simp, by simpa using hfits⟩
  have hspelled : Spelled [x] (ts'.map Token.terminal) := by
    rw [hterminals, hwritten, ← List.append_nil (x.terminals leading)]
    exact .cons leading .nil
  obtain ⟨d', hparse, herase⟩ := exists_parse_of_spelled htext he' hfits' hspelled
  exact ⟨d', hparse, congrArg SchemaDocument.definitions herase⟩

/-- In a document of either kind that is parsed, every node has the span from the start of its first token to the end
of its last, the nodes are nested, and the text of a definition's span is parsed as this definition alone. -/
theorem parse_exact (source : String) :
    (∀ d, Document.parse source = .ok d → d.tree.ExactIn source ∧
      ∀ x ∈ d.definitions, ∃ d', Document.parse (x.span.text source) = .ok d' ∧
        d'.definitions.map (·.restyle .erase) = [x.restyle .erase]) ∧
    ∀ d, SchemaDocument.parse source = .ok d → d.tree.ExactIn source ∧
      ∀ x ∈ d.definitions, ∃ d', SchemaDocument.parse (x.span.text source) = .ok d' ∧
        d'.definitions.map (·.restyle .erase) = [x.restyle .erase] :=
  ⟨fun _ h => Document.exactIn_of_parse h, fun _ h => SchemaDocument.exactIn_of_parse h⟩

set_option maxRecDepth 20000 in
/-- A document whose first definition is followed by a comma at once, and a schema document whose definitions begin with
a description and with the word of an extension. -/
theorem parse_exact_of_description :
    (∃ d, Document.parse "\x7b a(x: $b) ...F @c \x7d,fragment F on T \x7b d: e \x7d # end" = .ok d ∧
      d.definitions.length = 2 ∧
      d.tree.ExactIn "\x7b a(x: $b) ...F @c \x7d,fragment F on T \x7b d: e \x7d # end" ∧
      ∀ x ∈ d.definitions, ∃ d',
        Document.parse (x.span.text "\x7b a(x: $b) ...F @c \x7d,fragment F on T \x7b d: e \x7d # end") = .ok d' ∧
        d'.definitions.map (·.restyle .erase) = [x.restyle .erase]) ∧
    ∃ d, SchemaDocument.parse "\"d\" type A implements & B \x7b f: S! \x7d extend union U = | A" = .ok d ∧
      d.definitions.length = 2 ∧
      d.tree.ExactIn "\"d\" type A implements & B \x7b f: S! \x7d extend union U = | A" ∧
      ∀ x ∈ d.definitions, ∃ d',
        SchemaDocument.parse
          (x.span.text "\"d\" type A implements & B \x7b f: S! \x7d extend union U = | A") = .ok d' ∧
        d'.definitions.map (·.restyle .erase) = [x.restyle .erase] := by
  constructor
  · obtain ⟨text, htext, hlength⟩ : ∃ text,
        "\x7b a(x: $b) ...F @c \x7d,fragment F on T \x7b d: e \x7d # end".toList = text ∧
        (Parse.document.run (lexChars text)).toOption.map (·.definitions.length) = some 2 :=
      ⟨_, String.toList_ofList, by decide +kernel⟩
    rw [← Document.parse_eq htext] at hlength
    cases hd : Document.parse _ with
    | error cause => simp [hd, Except.toOption] at hlength
    | ok d =>
      obtain ⟨hexact, hagain⟩ := (parse_exact _).1 d hd
      exact ⟨d, rfl, by simpa [hd, Except.toOption] using hlength, hexact, hagain⟩
  · obtain ⟨text, htext, hlength⟩ : ∃ text,
        "\"d\" type A implements & B \x7b f: S! \x7d extend union U = | A".toList = text ∧
        (Parse.schemaDocument.run (lexChars text)).toOption.map (·.definitions.length) = some 2 :=
      ⟨_, String.toList_ofList, by decide +kernel⟩
    rw [← SchemaDocument.parse_eq htext] at hlength
    cases hd : SchemaDocument.parse _ with
    | error cause => simp [hd, Except.toOption] at hlength
    | ok d =>
      obtain ⟨hexact, hagain⟩ := (parse_exact _).2 d hd
      exact ⟨d, rfl, by simpa [hd, Except.toOption] using hlength, hexact, hagain⟩

end GraphQL
