import GraphQL.Proofs.DocumentGrammar
import GraphQL.Proofs.SchemaComplete
import GraphQL.Proofs.SchemaSound

/-!
# The language of schema documents

A source text is parsed as a schema document exactly when its tokens are one of the spellings of a fitting document,
and the document is the one that was parsed but for its spans (`SchemaDocument.parse_iff_spelled`). That a parse
goes through the text to its end is shown as for executable documents, only that a definition may end with many
terminals: none of them is the end of the input (`endsInside_of_spelled`).
-/

namespace GraphQL

open Terminal

/-- The last terminal, if there is one, is not the end of the input. -/
def EndsInside (ts : List Terminal) : Prop := ∀ u ∈ ts.getLast?, u ≠ .plain .endOfInput

namespace EndsInside

private theorem nil : EndsInside [] := by simp [EndsInside]

/-- Terminals in two parts end inside if both parts do, also when the second is empty. -/
private theorem append {ts us : List Terminal} (ht : EndsInside ts) (hu : EndsInside us) : EndsInside (ts ++ us) := by
  rcases List.eq_nil_or_concat us with rfl | ⟨us, u, rfl⟩
  · rwa [List.append_nil]
  · intro v hv
    have hlast : (ts ++ (us ++ [u])).getLast? = (us ++ [u]).getLast? := by
      rw [← List.append_assoc, List.getLast?_concat, List.getLast?_concat]
    rw [List.concat_eq_append] at hu hv
    rw [hlast] at hv
    exact hu v hv

private theorem flatMap {α : Type} {g : α → List Terminal} {items : List α} (h : ∀ a ∈ items, EndsInside (g a)) :
    EndsInside (items.flatMap g) := by
  induction items with
  | nil => exact nil
  | cons a items ih =>
    rw [List.flatMap_cons]
    exact (h a (by simp)).append (ih fun b hb => h b (by simp [hb]))

private theorem sign (p : Punctuator) : EndsInside [Terminal.sign p] := by simp [EndsInside, Terminal.sign]

private theorem word (w : String) : EndsInside [Terminal.word w] := by
  have h := (avoids_word [] w).2.1
  simpa [EndsInside] using h

private theorem cons_sign (p : Punctuator) {ts : List Terminal} (h : EndsInside ts) :
    EndsInside (Terminal.sign p :: ts) :=
  (sign p).append h

private theorem cons_word (w : String) {ts : List Terminal} (h : EndsInside ts) : EndsInside (Terminal.word w :: ts) :=
  (word w).append h

/-- A group ends with its closing sign, or is empty. -/
private theorem group {α : Type} (opening close : Punctuator) (g : α → List Terminal) (items : List α) :
    EndsInside (Terminal.group opening close g items) := by
  unfold Terminal.group
  split
  · exact nil
  · intro u hu
    rw [between, ← List.cons_append, List.getLast?_concat] at hu
    simp [← Option.some.inj hu, Terminal.sign]

end EndsInside

private theorem endsInside_directives (ds : List Directive) : EndsInside (directiveTerminals ds) :=
  .flatMap fun _ _ => .cons_sign _ (.cons_word _ (.group _ _ _ _))

private theorem endsInside_listed {α : Type} (leading : Bool) (separator : Punctuator) {g : α → List Terminal}
    {items : List α} (h : ∀ a ∈ items, EndsInside (g a)) :
    EndsInside (listedTerminals leading separator g items) := by
  have hseparated : EndsInside (separatedTerminals separator g items) := by
    cases items with
    | nil => exact .nil
    | cons a as => exact (h a (by simp)).append (.flatMap fun b hb => .cons_sign _ (h b (by simp [hb])))
  unfold listedTerminals
  cases leading with
  | true => exact .cons_sign _ hseparated
  | false => exact hseparated

private theorem endsInside_interfaces (leading : Bool) (is : List Name) :
    EndsInside (interfaceTerminals leading is) := by
  unfold interfaceTerminals
  split
  · exact .nil
  · exact .cons_word _ (endsInside_listed _ _ fun n _ => .word n.value)

private theorem endsInside_members (leading : Bool) (members : List Name) :
    EndsInside (memberTerminals leading members) := by
  unfold memberTerminals
  split
  · exact .nil
  · exact .cons_sign _ (endsInside_listed _ _ fun n _ => .word n.value)

/-- The definition of a type does not reach the end of the input. -/
private theorem TypeDefinition.endsInside (leading : Bool) (t : TypeDefinition) : EndsInside (t.terminals leading) := by
  have hdirectives := endsInside_directives t.directives
  refine .cons_word _ (.cons_word _ ?_)
  cases t.body with
  | scalar => exact hdirectives
  | object is fields | interface is fields =>
    exact (endsInside_interfaces leading is).append (hdirectives.append (.group _ _ _ _))
  | union members => exact hdirectives.append (endsInside_members leading members)
  | enum values => exact hdirectives.append (.group _ _ _ _)
  | inputObject fields => exact hdirectives.append (.group _ _ _ _)

private theorem SchemaDefinition.endsInside (s : SchemaDefinition) : EndsInside s.terminals :=
  .cons_word _ ((endsInside_directives s.directives).append (.group _ _ _ _))

private theorem DirectiveDefinition.endsInside (leading : Bool) (d : DirectiveDefinition) :
    EndsInside (d.terminals leading) := by
  have hplaces : EndsInside (listedTerminals leading .pipe LocatedPlace.terminals d.locations) :=
    endsInside_listed _ _ fun p _ => .word p.place.text
  have hrepeatable : EndsInside (repeatableTerminals d.repeatable) := by
    cases d.repeatable with
    | true => exact .word _
    | false => exact .nil
  exact .cons_word _ (.cons_sign _ (.cons_word _ (.append (.group _ _ _ _)
    (hrepeatable.append (.cons_word _ hplaces)))))

private theorem endsInside_description (description : Option StringLiteral) :
    EndsInside (descriptionTerminals description) := by
  cases description <;> simp [EndsInside, descriptionTerminals]

/-- No definition reaches the end of the input. -/
private theorem TypeSystemDefinition.endsInside (leading : Bool) (d : TypeSystemDefinition) :
    EndsInside (d.terminals leading) := by
  cases d with
  | schema s => exact (endsInside_description _).append s.endsInside
  | schemaExtension s => exact .cons_word _ s.endsInside
  | type t => exact (endsInside_description _).append (t.endsInside leading)
  | typeExtension t => exact .cons_word _ (t.endsInside leading)
  | directive d => exact (endsInside_description _).append (d.endsInside leading)

/-- Definitions one after the other do not reach the end of the input. -/
theorem endsInside_of_spelled {ds : List TypeSystemDefinition} {ts : List Terminal} (h : Spelled ds ts) :
    EndsInside ts := by
  induction h with
  | nil => exact .nil
  | cons leading _ ih => exact (TypeSystemDefinition.endsInside leading _).append ih

namespace SchemaDocument

variable {source : String} {ts : List Token} {e : Token}

/-- A schema document that is parsed is spelled with all tokens of the text. -/
theorem spelled_of_parse (h : tokens source = ts ++ [e]) (he : e.kind = .endOfInput) {d : SchemaDocument}
    (hd : SchemaDocument.parse source = .ok d) : Spelled d.definitions (ts.map Token.terminal) ∧ d.Fits := by
  have hdocument : Parse.Consumes
      (Parse.definitions .schema Parse.typeSystemDefinition >>= fun r => pure (⟨r.1, r.2⟩ : SchemaDocument))
      fun us d => Spelled d.definitions (us.map Token.terminal) ∧ d.Fits := Parse.schemaDocument_consumes
  refine Parse.all_of_definitions (Parse.typeSystemDefinition_consumes.mono fun us a ha => ⟨ha.ne_nil, ha⟩)
    hdocument (fun us d hspelled u hu hkind => ?_) h he hd
  have hterminal : u.terminal ∈ (us.map Token.terminal).getLast? := by
    rw [List.getLast?_map]
    exact Option.mem_map_of_mem _ hu
  exact endsInside_of_spelled hspelled.1 u.terminal hterminal (by rw [Token.terminal, hkind]; rfl)

/-- A text that spells a fitting document is parsed. -/
theorem exists_parse_of_spelled (h : tokens source = ts ++ [e]) (he : e.kind = .endOfInput) {d : SchemaDocument}
    (hfits : d.Fits) (hts : Spelled d.definitions (ts.map Token.terminal)) :
    ∃ d', SchemaDocument.parse source = .ok d' ∧ d'.restyle .erase = d.restyle .erase := by
  rw [SchemaDocument.parse, h]
  exact Parse.schemaDocument_accepts hfits hts he

/-- The texts that are parsed as schema documents are those that spell fitting documents, and what is parsed is the
document that is spelled. -/
theorem parse_iff_spelled (h : tokens source = ts ++ [e]) (he : e.kind = .endOfInput) :
    (∀ d, SchemaDocument.parse source = .ok d → Spelled d.definitions (ts.map Token.terminal) ∧ d.Fits) ∧
    ∀ d : SchemaDocument, d.Fits → Spelled d.definitions (ts.map Token.terminal) →
      ∃ d', SchemaDocument.parse source = .ok d' ∧ d'.restyle .erase = d.restyle .erase := by
  constructor
  · exact fun d hd => spelled_of_parse h he hd
  · exact fun d hfits hts => exists_parse_of_spelled h he hfits hts

set_option maxRecDepth 20000 in
/-- A type and an extension of a union, the lists of which begin with their separators, of which both halves
hold. -/
theorem parse_iff_spelled_of_leading :
    ∃ (ts : List Token) (e : Token) (d d' : SchemaDocument),
      tokens "\"d\" type A implements & B & C @x \x7b f(a: [I!] = 1): S \x7d extend union U = | A" = ts ++ [e] ∧
      e.kind = .endOfInput ∧ Spelled d.definitions (ts.map Token.terminal) ∧ d.Fits ∧
      SchemaDocument.parse "\"d\" type A implements & B & C @x \x7b f(a: [I!] = 1): S \x7d extend union U = | A" =
        .ok d' ∧ d'.restyle .erase = d.restyle .erase := by
  obtain ⟨text, htext, hparse, hlast⟩ : ∃ text,
      "\"d\" type A implements & B & C @x \x7b f(a: [I!] = 1): S \x7d extend union U = | A".toList = text ∧
      (Parse.schemaDocument.run (lexChars text)).isOk ∧
      ∃ e ∈ (lexChars text).getLast?, e.kind = .endOfInput :=
    ⟨_, String.toList_ofList, by decide +kernel⟩
  rw [← SchemaDocument.parse_eq htext] at hparse
  rw [← tokens_eq_lexChars htext] at hlast
  obtain ⟨e, hlast, he⟩ := hlast
  obtain ⟨ts, htokens⟩ := List.getLast?_eq_some_iff.1 hlast
  cases hd : SchemaDocument.parse _ with
  | error cause => simp [hd, Except.isOk, Except.toBool] at hparse
  | ok d =>
    obtain ⟨hsound, hcomplete⟩ := parse_iff_spelled htokens he
    obtain ⟨hts, hfits⟩ := hsound d hd
    obtain ⟨d', hd', herase⟩ := hcomplete d hfits hts
    exact ⟨ts, e, d, d', htokens, he, hts, hfits, hd.symm.trans hd', herase⟩

end SchemaDocument

end GraphQL
