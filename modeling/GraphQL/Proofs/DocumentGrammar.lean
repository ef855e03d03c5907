import GraphQL.Proofs.Evaluation
import GraphQL.Proofs.GrammarComplete
import GraphQL.Proofs.GrammarSound

/-!
# The language of documents

A source text is parsed as a document exactly when its tokens are those that a fitting document is written with,
and the document is the one that was parsed but for its spans (`Document.parse_iff_writes`). That a parse goes
through the text to its end takes two facts: the loop over definitions stops only where the input ends
(`Parse.atEnd_of_definitions`), and the lexer gives the end of the input after all other tokens
(`ne_endOfInput_of_tokens`).
-/

namespace GraphQL

private theorem tokensFrom_dropLast (c : Cursor) (text : List Char) :
    ∀ t ∈ (tokensFrom c text).dropLast, t.kind ≠ .endOfInput := by
  fun_induction tokensFrom c text with
  | case1 => simp
  | case2 => simp
  | case3 c text _ ch rest _ lexeme next token herror ih =>
    have hne : tokensFrom next lexeme.rest ≠ [] := by
      rw [tokensFrom]
      split
      · simp
      · dsimp only
        split <;> simp
    rw [List.dropLast_cons_of_ne_nil hne]
    exact List.forall_mem_cons.2 ⟨Lexeme.read_kind_ne_endOfInput ch rest, ih⟩

/-- The end of the input comes last. -/
theorem ne_endOfInput_of_tokens {source : String} {ts : List Token} {e : Token} (h : tokens source = ts ++ [e]) :
    ∀ t ∈ ts, t.kind ≠ .endOfInput := by
  have hlast := tokensFrom_dropLast .start source.toList
  rwa [← tokens, h, List.dropLast_concat] at hlast

namespace Parse

variable {α β : Type}

/-- Nothing is left of the input but its end. -/
def Input.AtEnd (i : Input) : Prop := ∀ t ∈ i.tokens.head?, t.kind = .endOfInput

private theorem Input.Shows.atEnd {i : Input} {t : Token} (h : Shows i t) (ht : t.kind = .endOfInput) : AtEnd i := by
  obtain ⟨tokens, last⟩ := i
  cases tokens with
  | nil => simp [AtEnd]
  | cons u rest =>
    simp only [Shows, peek, StateT.run_bind, StateT.run_get, pure_bind] at h
    split at h
    · cases h
    · simp only [StateT.run_pure] at h
      obtain ⟨rfl, -⟩ := Prod.mk.inj (Except.ok.inj h)
      simpa [AtEnd] using ht

/-- A repetition stops where a step gives nothing, so that what holds of all inputs left by such a step holds in the
end. -/
theorem repeatUpTo_stops {step : Parse (Option α)} {Q : List Token → α → Prop} {N : List Token → Prop}
    (h : Consumes step (Consumes.StepOf Q N)) {E : Input → Prop}
    (hstop : ∀ i i', StateT.run step i = .ok (none, i') → E i') {n : Nat} {i i' : Input} {as : List α}
    (hi : Input.Genuine i) (hn : i.tokens.length < n)
    (hp : StateT.run (repeatUpTo step n) i = .ok (as, i')) : E i' := by
  induction n generalizing i as with
  | zero => omega
  | succ n ih =>
    obtain ⟨o, j, hstep, hrest⟩ := run_bind_ok hp
    cases o with
    | none =>
      obtain ⟨-, rfl⟩ := Prod.mk.inj (Except.ok.inj hrest)
      exact hstop i j hstep
    | some a =>
      obtain ⟨as', j', hmore, hpure⟩ := run_bind_ok hrest
      obtain ⟨-, rfl⟩ := Prod.mk.inj (Except.ok.inj hpure)
      obtain ⟨ts, hts, hne, -⟩ := h i (some a) j hi hstep
      -- the item took a token, so that the bound is not reached
      have hpos : 0 < ts.length := List.length_pos_iff.2 hne
      have hlen := congrArg List.length hts
      rw [List.length_append] at hlen
      exact ih (hi.of_append hts) (by omega) hmore

/-- The loop over definitions goes to the end of the input. -/
theorem atEnd_of_definitions {kind : DocumentKind} {p : Parse α} {Q : List Token → α → Prop}
    (hp : Consumes p fun ts a => ts ≠ [] ∧ Q ts a) {i i' : Input} {r : List α × Span} (hi : Input.Genuine i)
    (h : StateT.run (definitions kind p) i = .ok (r, i')) : Input.AtEnd i' := by
  obtain ⟨start, j, hpeek, hloop⟩ := run_bind_ok h
  obtain ⟨rfl, -⟩ := peek_run hpeek
  obtain ⟨as, k, hrepeated, hrest⟩ := run_bind_ok hloop
  have hstep : Consumes (do if (← peek).kind = .endOfInput then return none else some <$> p)
      (Consumes.StepOf Q (· = [])) := by
    refine .peek fun t => ?_
    split
    · exact .of (.pure rfl)
    · exact .of (hp.map fun ts a ha => ha)
  have hk : Input.AtEnd k := by
    refine repeatUpTo_stops hstep (fun i i' hstop => ?_) hi (Nat.lt_succ_self _) hrepeated
    obtain ⟨t, j, hpeek, hresult⟩ := run_bind_ok hstop
    obtain ⟨rfl, -⟩ := peek_run hpeek
    split at hresult
    · rename_i ht
      obtain ⟨-, rfl⟩ := Prod.mk.inj (Except.ok.inj hresult)
      exact Input.Shows.atEnd hpeek ht
    · rw [map_eq_pure_bind] at hresult
      obtain ⟨a, j, -, hpure⟩ := run_bind_ok hresult
      cases hpure
  split at hrest
  · obtain ⟨_, _, hfail, -⟩ := run_bind_ok hrest
    cases hfail
  · obtain ⟨span, j, hspan, hpure⟩ := run_bind_ok hrest
    obtain ⟨-, rfl⟩ := Prod.mk.inj (Except.ok.inj hpure)
    obtain ⟨-, rfl⟩ := Prod.mk.inj (Except.ok.inj hspan)
    exact hk

/-- A parse that stops at the end of the input, and did not take it, has taken all tokens before. -/
theorem eq_of_atEnd {source : String} {ts us : List Token} {e : Token} {i : Input} (h : tokens source = ts ++ [e])
    (he : e.kind = .endOfInput) (hus : tokens source = us ++ i.tokens) (hend : Input.AtEnd i)
    (hlast : ∀ u ∈ us.getLast?, u.kind ≠ .endOfInput) : us = ts := by
  have htokens : ts ++ [e] = us ++ i.tokens := h.symm.trans hus
  cases hleft : i.tokens with
  | nil =>
    rw [hleft, List.append_nil] at htokens
    exact absurd he (hlast e (by simp [← htokens]))
  | cons t rest =>
    have ht : t.kind = .endOfInput := hend t (by rw [hleft]; rfl)
    rw [hleft] at htokens
    rcases List.eq_nil_or_concat rest with rfl | ⟨rest, last, rfl⟩
    · exact (List.append_inj' htokens rfl).1.symm
    · have hconcat : ts ++ [e] = (us ++ t :: rest) ++ [last] := by simpa using htokens
      have hts : ts = us ++ t :: rest := (List.append_inj' hconcat rfl).1
      exact absurd ht (ne_endOfInput_of_tokens h t (by simp [hts]))

/-- What is made of the definitions of a text is made of all its tokens, where no definition ends with the end of the
input. -/
theorem all_of_definitions {kind : DocumentKind} {p : Parse α} {Q : List Token → α → Prop} {f : List α × Span → β}
    {R : List Token → β → Prop} (hp : Consumes p fun us a => us ≠ [] ∧ Q us a)
    (hR : Consumes (definitions kind p >>= fun r => pure (f r)) R)
    (hlast : ∀ us b, R us b → ∀ u ∈ us.getLast?, u.kind ≠ .endOfInput) {source : String} {ts : List Token}
    {e : Token} (h : tokens source = ts ++ [e]) (he : e.kind = .endOfInput) {b : β}
    (hb : Parse.run (definitions kind p >>= fun r => pure (f r)) (tokens source) = .ok b) : R ts b := by
  unfold Parse.run at hb
  cases hrun : StateT.run (definitions kind p >>= fun r => pure (f r)) ⟨tokens source, none⟩ with
  | error cause =>
    rw [hrun] at hb
    cases hb
  | ok r =>
    obtain ⟨b', i'⟩ := r
    rw [hrun] at hb
    obtain rfl : b' = b := Except.ok.inj hb
    have hgenuine : Input.Genuine ⟨tokens source, none⟩ := tokensFrom_genuine _ _
    obtain ⟨us, hus, hresult⟩ := hR _ b' i' hgenuine hrun
    obtain ⟨r, j, hdefinitions, hpure⟩ := run_bind_ok hrun
    obtain ⟨-, rfl⟩ := Prod.mk.inj (Except.ok.inj hpure)
    have hend : Input.AtEnd j := atEnd_of_definitions hp hgenuine hdefinitions
    obtain rfl : us = ts := eq_of_atEnd h he hus hend (hlast us b' hresult)
    exact hresult

end Parse

open Terminal

private theorem SelectionSet.exists_terminals_eq (set : SelectionSet) :
    ∃ ts, set.terminals = ts ++ [sign .closeBrace] :=
  ⟨_, by rw [set.terminals_eq, between, ← List.cons_append]⟩

/-- A definition ends with the brace that closes its selection set. -/
theorem Definition.exists_terminals_eq (x : Definition) : ∃ ts, x.terminals = ts ++ [sign .closeBrace] := by
  cases x with
  | operation o =>
    obtain ⟨ts, hts⟩ := o.selectionSet.exists_terminals_eq
    simp only [terminals, Operation.terminals, hts]
    split
    · exact ⟨ts, rfl⟩
    · exact ⟨o.headTerminals ++ ts, (List.append_assoc ..).symm⟩
  | fragment f =>
    obtain ⟨ts, hts⟩ := f.selectionSet.exists_terminals_eq
    simp only [terminals, Fragment.terminals, hts]
    exact ⟨_, by rw [← List.append_assoc, ← List.cons_append]⟩

namespace Document

variable {source : String} {ts : List Token} {e : Token}

private theorem exists_terminals_eq {d : Document} (h : d.definitions ≠ []) :
    ∃ ts, d.terminals = ts ++ [sign .closeBrace] := by
  obtain ⟨xs, x, hxs⟩ := (List.eq_nil_or_concat d.definitions).resolve_left h
  obtain ⟨ts, hts⟩ := x.exists_terminals_eq
  refine ⟨xs.flatMap (·.terminals) ++ ts, ?_⟩
  simp [terminals, hxs, hts]

/-- A document that is parsed is written with all tokens of the text. -/
theorem terminals_of_parse (h : tokens source = ts ++ [e]) (he : e.kind = .endOfInput) {d : Document}
    (hd : Document.parse source = .ok d) : ts.map Token.terminal = d.terminals ∧ d.Fits := by
  have hdocument : Parse.Consumes (Parse.definitions .executable Parse.definition >>= fun r => pure ⟨r.1, r.2⟩)
      (Parse.Writes Document.terminals Document.Fits) :=
    Parse.document_consumes.mono fun _ _ hd => hd.toWrites
  have hdefinition : Parse.Consumes Parse.definition fun us x => us ≠ [] ∧ Parse.Writes Definition.terminals _ us x :=
    Parse.definition_consumes.mono fun us x hx => ⟨hx.ne_nil x.terminals_ne_nil, hx.toWrites⟩
  have hwrites := Parse.all_of_definitions hdefinition hdocument (fun us d hwrites u hu => ?_) h he hd
  · exact ⟨hwrites.terminals, hwrites.fits⟩
  · obtain ⟨us, rfl⟩ := List.getLast?_eq_some_iff.1 hu
    obtain ⟨vs, hvs⟩ := exists_terminals_eq hwrites.fits.nonempty
    rw [← hwrites.terminals, List.map_append] at hvs
    have hbrace : u.terminal = sign .closeBrace := by simpa using (List.append_inj' hvs rfl).2
    simp [show u.kind = _ from kind_of_terminal hbrace]

/-- The text that a fitting document is written as is parsed. -/
theorem exists_parse_of_writes (h : tokens source = ts ++ [e]) (he : e.kind = .endOfInput) {d : Document}
    (hfits : d.Fits) (hts : ts.map Token.terminal = d.terminals) :
    ∃ d', Document.parse source = .ok d' ∧ d'.restyle .erase = d.restyle .erase := by
  rw [Document.parse, h]
  exact Parse.document_accepts hfits hts he

/-- The texts that are parsed as documents are those that fitting documents are written as, and what is parsed is
the document that is written. -/
theorem parse_iff_writes (h : tokens source = ts ++ [e]) (he : e.kind = .endOfInput) :
    (∀ d, Document.parse source = .ok d → ts.map Token.terminal = d.terminals ∧ d.Fits) ∧
    ∀ d : Document, d.Fits → ts.map Token.terminal = d.terminals →
      ∃ d', Document.parse source = .ok d' ∧ d'.restyle .erase = d.restyle .erase := by
  constructor
  · exact fun d hd => terminals_of_parse h he hd
  · exact fun d hfits hts => exists_parse_of_writes h he hfits hts

set_option maxRecDepth 20000 in
/-- An operation with a variable and a fragment, of which both halves hold. -/
theorem parse_iff_writes_of_spread :
    ∃ (ts : List Token) (e : Token) (d d' : Document),
      tokens "query Q($a: [I!] = 1) \x7b b: c(x: $a) ...F \x7d fragment F on T \x7b d @e \x7d" = ts ++ [e] ∧
      e.kind = .endOfInput ∧ ts.map Token.terminal = d.terminals ∧ d.Fits ∧
      Document.parse "query Q($a: [I!] = 1) \x7b b: c(x: $a) ...F \x7d fragment F on T \x7b d @e \x7d" = .ok d' ∧
      d'.restyle .erase = d.restyle .erase := by
  obtain ⟨text, htext, hparse, hlast⟩ : ∃ text,
      "query Q($a: [I!] = 1) \x7b b: c(x: $a) ...F \x7d fragment F on T \x7b d @e \x7d".toList = text ∧
      (Parse.document.run (lexChars text)).isOk ∧
      ∃ e ∈ (lexChars text).getLast?, e.kind = .endOfInput :=
    ⟨_, String.toList_ofList, by decide +kernel⟩
  rw [← Document.parse_eq htext] at hparse
  rw [← tokens_eq_lexChars htext] at hlast
  obtain ⟨e, hlast, he⟩ := hlast
  obtain ⟨ts, htokens⟩ := List.getLast?_eq_some_iff.1 hlast
  cases hd : Document.parse _ with
  | error cause => simp [hd, Except.isOk, Except.toBool] at hparse
  | ok d =>
    obtain ⟨hsound, hcomplete⟩ := parse_iff_writes htokens he
    obtain ⟨hts, hfits⟩ := hsound d hd
    obtain ⟨d', hd', herase⟩ := hcomplete d hfits hts
    exact ⟨ts, e, d, d', htokens, he, hts, hfits, hd.symm.trans hd', herase⟩

end Document

end GraphQL
