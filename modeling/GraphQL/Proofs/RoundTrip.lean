import GraphQL.Proofs.Evaluation
import GraphQL.Proofs.GrammarComplete
import GraphQL.Proofs.GrammarSound
import GraphQL.Proofs.PrintReads
import GraphQL.Proofs.StyleInvariance

/-!
# Printing and parsing

A parsed document is printed as a text that is parsed as the same document, but for the form of its strings and of
its bare queries, and that document is printed as the same text (`Document.parse_print`). The tokens of a parsed
document are ones that the lexer reads, so that its canonical layout prints its terminals, from which the grammar
gives the document back.
-/

namespace GraphQL

section
variable (r : Restyle)

/-- A value fits in any style if it does in one. -/
private theorem Value.Fits.restyle {vars : Bool} {n : Nat} {v : Value} (h : v.Fits vars n) :
    (v.restyle r).Fits vars n := by
  induction n generalizing v with
  | zero => exact h.elim
  | succ n ih =>
    cases v with
    | list items span =>
      rw [Value.restyle_list]
      exact List.forall_mem_map.2 fun v hv => ih (h v hv)
    | object fields span =>
      rw [Value.restyle_object]
      exact List.forall_mem_map.2 fun f hf => ih (h f hf)
    | _ => exact h

private theorem TypeRef.Fits.restyle {n : Nat} {t : TypeRef} (h : t.Fits n) : (t.restyle r).Fits n := by
  induction t generalizing n with
  | named name nullable span =>
    cases n with
    | zero => exact h.elim
    | succ n => trivial
  | list element nullable span ih =>
    cases n with
    | zero => exact h.elim
    | succ n => exact ih h

private theorem fits_arguments_restyle {vars : Bool} {n : Nat} {arguments : List Argument}
    (h : ∀ a ∈ arguments, a.Fits vars n) : ∀ a ∈ arguments.map (·.restyle r), a.Fits vars n :=
  List.forall_mem_map.2 fun a ha => Value.Fits.restyle r (h a ha)

private theorem fits_directives_restyle {vars : Bool} {n : Nat} {directives : List Directive}
    (h : ∀ d ∈ directives, d.Fits vars n) : ∀ d ∈ directives.map (·.restyle r), d.Fits vars n :=
  List.forall_mem_map.2 fun d hd => fits_arguments_restyle r (h d hd)

/-- A selection set fits in any style if it does in one. -/
private theorem SelectionSet.Fits.restyle {n : Nat} {set : SelectionSet} (h : set.Fits n) : (set.restyle r).Fits n := by
  induction n generalizing set with
  | zero => exact h.elim
  | succ n ih =>
    rw [SelectionSet.restyle_eq]
    refine ⟨mt List.map_eq_nil_iff.1 h.1, List.forall_mem_map.2 ?_⟩
    intro s hs
    have hfits := h.2 s hs
    cases s with
    | field f =>
      obtain ⟨harguments, hdirectives, hset⟩ := hfits
      rw [Selection.restyle_field]
      refine ⟨fits_arguments_restyle r harguments, fits_directives_restyle r hdirectives, ?_⟩
      intro set' hset'
      obtain ⟨set, hset'', rfl⟩ := Option.map_eq_some_iff.1 hset'
      exact ih (hset set hset'')
    | spread s => exact ⟨hfits.1, fits_directives_restyle r hfits.2⟩
    | inline i =>
      rw [Selection.restyle_inline]
      exact ⟨fits_directives_restyle r hfits.1, ih hfits.2⟩

private theorem VariableDefinition.Fits.restyle {v : VariableDefinition} (h : v.Fits) : (v.restyle r).Fits where
  type := h.type.restyle r
  defaultValue := fun value hvalue => by
    obtain ⟨value, hv, rfl⟩ := Option.map_eq_some_iff.1 hvalue
    exact (h.defaultValue value hv).restyle r
  directives := fits_directives_restyle r h.directives

end

/-- A definition fits in the style in which it is read back. -/
private theorem Definition.Fits.printed {definition : Definition} (h : definition.Fits) :
    (definition.restyle .printed).Fits := by
  cases definition with
  | operation o =>
    refine ⟨List.forall_mem_map.2 fun v hv => (h.variableDefinitions v hv).restyle _,
      fits_directives_restyle _ h.directives, h.selectionSet.restyle _, fun hshorthand => ?_⟩
    obtain ⟨hkind, hname, hvariables, hdirectives⟩ : o.IsBare := of_decide_eq_true hshorthand
    simp [Operation.IsBare, Operation.restyle, hkind, hname, hvariables, hdirectives]
  | fragment f => exact ⟨h.name, fits_directives_restyle _ h.directives, h.selectionSet.restyle _⟩

private theorem Document.Fits.printed {d : Document} (h : d.Fits) : (d.restyle .printed).Fits :=
  ⟨mt List.map_eq_nil_iff.1 h.nonempty, List.forall_mem_map.2 fun definition hd =>
    (h.definitions definition hd).printed⟩

private theorem Restyle.keepsText_erase : Restyle.erase.KeepsText := fun _ => rfl

private theorem Restyle.keepsText_printed : Restyle.printed.KeepsText := fun l => by
  simp only [literalText, StringLiteral.restyle, printed, Block.print?]
  by_cases hblock : l.block = true
  · by_cases hprintable : Block.isPrintable l.value.toList = true <;> simp [hblock, hprintable]
  · simp [hblock]

/-- The canonical layout of a parsed document is parsed as the document in the style of the layout. -/
theorem Document.parse_print_erase {source : String} {d : Document} (h : Document.parse source = .ok d) :
    ∃ d', Document.parse d.print = .ok d' ∧ d'.restyle .erase = (d.restyle .printed).restyle .erase := by
  obtain ⟨ts, rest, htokens, hd⟩ := Document.parse_sound h
  have hgenuine : AllGenuine d.terminals := by
    intro u hu
    rw [← hd.terminals] at hu
    obtain ⟨t, ht, rfl⟩ := List.mem_map.1 hu
    exact ⟨t.kind, tokensFrom_genuine _ _ t (by rw [← tokens, htokens]; exact List.mem_append_left _ ht), rfl⟩
  obtain ⟨us, e, hus, hprinted, he⟩ := (Document.prints hd.fits hgenuine).tokens
  obtain ⟨d', hrun, hd'⟩ := Parse.document_accepts hd.fits.printed hprinted he
  exact ⟨d', by rw [Document.parse, Document.print, hus, hrun], hd'⟩

/-- A printed document is parsed again as the same document but for the form of its strings and of its bare
queries, it has the same compact form, and it is printed as the same text. -/
theorem Document.parse_print {source : String} {d : Document} (h : Document.parse source = .ok d) :
    ∃ d', Document.parse d.print = .ok d' ∧ d'.restyle .plain = d.restyle .plain ∧
      (Compact.Document.ofDocument d').eraseSpans = (Compact.Document.ofDocument d).eraseSpans ∧
      d'.print = d.print := by
  obtain ⟨d', hparse, herase⟩ := Document.parse_print_erase h
  have hplain : d'.restyle .plain = d.restyle .plain := by
    have hr := congrArg (·.restyle .plain) herase
    simpa only [Document.restyle_restyle, Restyle.andThen_plain] using hr
  refine ⟨d', hparse, hplain, ?_, ?_⟩
  · rw [← Compact.eraseSpans_restyle .plain d', hplain, Compact.eraseSpans_restyle]
  · have htext := congrArg Document.text herase
    rw [Document.text_restyle Restyle.keepsText_erase, Document.text_restyle Restyle.keepsText_erase,
      Document.text_restyle Restyle.keepsText_printed] at htext
    rw [Document.print, Document.print, htext]

set_option maxRecDepth 20000 in
theorem Document.parse_print_of_variable :
    ∃ d, Document.parse
      "query Q($a: [Int!] = [1]) \x7b b: c(x: $a, y: \"\"\"d\"\"\") @e ... on F \x7b g \x7d \x7d" = .ok d ∧
      ∃ d', Document.parse d.print = .ok d' ∧ d'.restyle .plain = d.restyle .plain ∧
        (Compact.Document.ofDocument d').eraseSpans = (Compact.Document.ofDocument d).eraseSpans ∧
        d'.print = d.print := by
  obtain ⟨text, htext, hparse⟩ : ∃ text,
      "query Q($a: [Int!] = [1]) \x7b b: c(x: $a, y: \"\"\"d\"\"\") @e ... on F \x7b g \x7d \x7d".toList = text ∧
      (Parse.document.run (lexChars text)).isOk :=
    ⟨_, String.toList_ofList, by decide +kernel⟩
  rw [← Document.parse_eq htext] at hparse
  cases hd : Document.parse _ with
  | error cause => simp [hd, Except.isOk, Except.toBool] at hparse
  | ok d => exact ⟨d, rfl, Document.parse_print hd⟩

end GraphQL
