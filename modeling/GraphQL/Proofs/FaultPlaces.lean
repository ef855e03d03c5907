import GraphQL.Proofs.FaultSteps
import GraphQL.Proofs.SpanExact

/-!
# The places of parse errors

Each routine of the grammar stops at a place among the tokens of its source. So an error token at the end of a source
is reported as it is, or something before it is (`parse_error_placed`).
-/

namespace GraphQL

namespace Parse

variable {α β : Type} {ts us : List Token}

private theorem stringLiteral_stays :
    Yields ts us stringLiteral fun l => ∃ t ∈ ts, t.kind.isError = false ∧ t.span = l.span := by
  refine .peek fun t ht hsound => ?_
  cases hkind : t.kind with
  | string raw =>
    simp only [pure_bind]
    split
    · exact .advance (by simp [hkind]) hsound (.pure ⟨t, ht, hsound, rfl⟩)
    · exact .of (.fail_at ht hsound trivial)
  | blockString raw =>
    simp only [pure_bind]
    split
    · exact .advance (by simp [hkind]) hsound (.pure ⟨t, ht, hsound, rfl⟩)
    · exact .of (.fail_at ht hsound trivial)
  | _ => exact .of (.stop_bind (.unexpected ht hsound _))

private theorem objectField_stays {value : Parse Value} (h : ∀ us, Stays ts us value) :
    Stays ts us (objectField value) :=
  name_stays.next fun _ _ => expect_bind fun _ _ _ => (h _).next fun _ _ => .node

/-- Reading a value stays within the tokens: it goes on behind where it was, or stops at one of them. -/
private theorem value_stays (place : ValuePlace) (n : Nat) : Stays ts us (value place n) := by
  induction n generalizing us with
  | zero => exact .tooDeep
  | succ n ih =>
    refine .peek fun t ht hsound => ?_
    split
    · rename_i hkind
      split
      · exact .of (.fail_at ht hsound trivial)
      · exact .advance (by simp [hkind]) hsound (name_stays.next fun _ _ => .pure trivial)
    · rename_i hkind
      exact .advance (by simp [hkind]) hsound (.pure trivial)
    · rename_i hkind
      exact .advance (by simp [hkind]) hsound (.pure trivial)
    · exact .of ((stringLiteral_stays.mono fun _ _ => trivial).next fun _ _ => .pure trivial)
    · exact .of ((stringLiteral_stays.mono fun _ _ => trivial).next fun _ _ => .pure trivial)
    · rename_i hkind
      exact .advance (by simp [hkind]) hsound (.pure trivial)
    · rename_i hkind
      exact .advance (by simp [hkind]) hsound (.pure trivial)
    · rename_i hkind
      exact .advance (by simp [hkind]) hsound (.pure trivial)
    · rename_i hkind
      exact .advance (by simp [hkind]) hsound (.pure trivial)
    · exact .of ((delimited_stays fun _ => ih).next fun _ _ => .pure trivial)
    · exact .of ((delimited_stays fun _ => objectField_stays fun _ => ih).next fun _ _ => .pure trivial)
    · exact .of (.unexpected ht hsound _)

/-- A description is one of the tokens. -/
theorem description_stays : Yields ts us description fun d =>
    ∀ l ∈ d, ∃ t ∈ ts, t.kind.isError = false ∧ t.span = l.span := by
  have hstring : Yields ts us (some <$> stringLiteral) fun d =>
      ∀ l ∈ d, ∃ t ∈ ts, t.kind.isError = false ∧ t.span = l.span :=
    stringLiteral_stays.map fun l hl _ h => Option.some.inj h ▸ hl
  refine .peek fun t _ _ => ?_
  split
  · exact .of hstring
  · exact .of hstring
  · exact .of (.pure (by simp))

private theorem argument_stays (place : ValuePlace) (n : Nat) : Stays ts us (argument place n) :=
  name_stays.next fun _ _ => expect_bind fun _ _ _ => (value_stays place n).next fun _ _ => .node

private theorem arguments_stays (place : ValuePlace) (n : Nat) : Stays ts us (arguments place n) :=
  delimitedIf_stays fun _ => argument_stays place n

private theorem directives_stays (place : ValuePlace) (n : Nat) : Stays ts us (directives place n) := by
  refine repeated_stays fun us => (accept_stays .atSign).next fun o _ => ?_
  cases o with
  | none => exact .pure trivial
  | some sign => exact name_stays.next fun _ _ => (arguments_stays place n).next fun _ _ => .node

private theorem nullable_stays : Stays ts us nullable := (accept_stays .bang).next fun _ _ => .pure trivial

private theorem typeRef_stays (n : Nat) : Stays ts us (typeRef n) := by
  induction n generalizing us with
  | zero => exact .tooDeep
  | succ n ih =>
    refine .peek fun t ht hsound => ?_
    split
    · rename_i hkind
      refine .advance (by simp [hkind]) hsound (ih.next fun _ _ => .peek fun close hclose hclosed => ?_)
      split
      · rename_i hbracket
        exact .advance (by simp [hbracket]) hclosed (nullable_stays.next fun _ _ => .node)
      · split
        · exact .of (.stop_bind (.fail_at hclose hclosed ⟨t, ht, rfl⟩))
        · exact .of (.stop_bind (.unexpected hclose hclosed _))
    · split
      · exact .of (name_stays.next fun _ _ => nullable_stays.next fun _ _ => .node)
      · exact .of (.unexpected ht hsound _)

private theorem typeCondition_stays : Stays ts us typeCondition :=
  keyword_bind fun _ _ _ => name_stays.next fun _ _ => .node

section
variable {n : Nat} {set : Parse SelectionSet}

private theorem inlineRest_stays (h : ∀ us, Stays ts us set) (start : Span) (condition : Option TypeCondition) :
    Stays ts us (inlineRest n set start condition) :=
  (directives_stays .anywhere n).next fun _ _ => (h _).next fun _ _ => .node

private theorem fragmentSelection_stays (h : ∀ us, Stays ts us set) : Stays ts us (fragmentSelection n set) := by
  refine expect_bind fun dots _ _ => .peek fun t ht hsound => .of ?_
  split
  · exact typeCondition_stays.next fun _ _ => inlineRest_stays h _ _
  · split
    · exact inlineRest_stays h _ _
    · split
      · exact name_stays.next fun _ _ => (directives_stays .anywhere n).next fun _ _ => .node
      · exact .unexpected ht hsound _

private theorem field_stays (h : ∀ us, Stays ts us set) : Stays ts us (field n set) := by
  have hnames (first : Name) (us : List Token) : Stays ts us (fieldNames first) := by
    refine (accept_stays .colon).next fun o _ => ?_
    cases o with
    | none => exact .pure trivial
    | some _ => exact name_stays.next fun _ _ => .pure trivial
  have hset (us : List Token) : Stays ts us (selectionSet? set) := by
    refine nextIs_bind_stays fun b => ?_
    split
    · exact (h us).map fun _ _ => trivial
    · exact .pure trivial
  rw [field_eq]
  exact name_stays.next fun first _ => (hnames first _).next fun _ _ => (arguments_stays .anywhere n).next
    fun _ _ => (directives_stays .anywhere n).next fun _ _ => (hset _).next fun _ _ => .node

/-- Reading a selection stays within the tokens if reading selection sets does. -/
private theorem selection_stays (h : ∀ us, Stays ts us set) : Stays ts us (selection n set) := by
  refine .peek fun t ht hsound => .of ?_
  split
  · exact fragmentSelection_stays h
  · split
    · exact (field_stays h).next fun _ _ => .pure trivial
    · exact .unexpected ht hsound _

end

/-- Reading a selection set stays within the tokens, by induction on the depth that is left. -/
private theorem selectionSet_stays (n : Nat) : Stays ts us (selectionSet n) := by
  induction n generalizing us with
  | zero => exact .tooDeep
  | succ n ih => exact (delimited_stays fun _ => selection_stays fun _ => ih).next fun _ _ => .pure trivial

private theorem default_stays (place : ValuePlace) : Stays ts us (behind? .equals (value place maxDepth)) :=
  behind?_stays (fun _ => value_stays place maxDepth) .equals

private theorem variableDefinition_stays : Stays ts us variableDefinition := by
  have hdefault (us : List Token) : Stays ts us defaultValue? := default_stays .variableDefault
  rw [variableDefinition_eq]
  exact expect_bind fun _ _ _ => name_stays.next fun _ _ => expect_bind fun _ _ _ =>
    (typeRef_stays maxDepth).next fun _ _ => (hdefault _).next fun _ _ =>
      (directives_stays .constDirective maxDepth).next fun _ _ => .node

private theorem keywordOperation_staysAt {t : Token} (ht : t.kind ≠ .endOfInput) (hsound : t.kind.isError = false)
    (kind : OperationKind) : StaysAt ts us t (keywordOperation kind) fun _ => True := by
  have hname (us : List Token) : Stays ts us operationName? := by
    refine .peek fun t _ _ => .of ?_
    split
    · exact name_stays.map fun _ _ => trivial
    · exact .pure trivial
  rw [keywordOperation_eq]
  exact .peek hsound (.advance ht hsound ((hname _).next fun _ _ =>
    (delimitedIf_stays fun _ => variableDefinition_stays).next fun _ _ =>
      (directives_stays .anywhere maxDepth).next fun _ _ => (selectionSet_stays maxDepth).next fun _ _ => .node))

private theorem fragmentDefinition_stays : Stays ts us fragmentDefinition := by
  refine keyword_bind fun _ _ _ => .peek fun t ht hsound => .of ?_
  split
  · exact .stop_bind (.fail_at ht hsound trivial)
  · exact name_stays.next fun _ _ => typeCondition_stays.next fun _ _ =>
      (directives_stays .anywhere maxDepth).next fun _ _ => (selectionSet_stays maxDepth).next fun _ _ => .node

private theorem definition_stays : Stays ts us definition := by
  refine .peek fun t ht hsound => ?_
  split
  · exact .of (((selectionSet_stays maxDepth).next fun _ _ => .pure trivial).next fun _ _ => .pure trivial)
  · exact .of (.fail_at ht hsound trivial)
  · exact .of (.fail_at ht hsound trivial)
  · rename_i hkind
    split
    · exact (keywordOperation_staysAt (by simp [hkind]) hsound _).bind fun _ _ _ _ => .pure trivial
    · split
      · exact .of (fragmentDefinition_stays.next fun _ _ => .pure trivial)
      · split
        · exact .of (.fail_at ht hsound trivial)
        · exact .of (.unexpected ht hsound _)
  · exact .of (.unexpected ht hsound _)

private theorem definitions_stays {kind : DocumentKind} {p : Parse α} (h : ∀ us, Stays ts us p) :
    Stays ts us (definitions kind p) := by
  refine .peek fun start hstart hsound => .of ((repeated_stays fun us => .peek fun t _ _ => .of ?_).next fun _ _ => ?_)
  · split
    · exact .pure trivial
    · exact (h us).map fun _ _ => trivial
  · split
    · exact .stop_bind (.fail_at hstart hsound trivial)
    · exact .node

/-- A parse of an executable document stays within the tokens. -/
private theorem document_stays : Stays ts us document :=
  (definitions_stays fun _ => definition_stays).next fun _ _ => .pure trivial

/-! ### Schema documents -/

/-- An extension that adds nothing is reported at its first token, which is among them. -/
private theorem requireAddition_stays {t : Token} (ht : t ∈ ts) (hsound : t.kind.isError = false)
    (isExtension nothing : Bool) (additions : String) :
    Stays ts us (requireAddition isExtension t nothing additions) := by
  unfold requireAddition
  split
  · exact .fail_at ht hsound trivial
  · exact .pure trivial

private theorem described_stays {f : Option StringLiteral → Parse β} (h : ∀ d vs, Stays ts vs (f d)) :
    Stays ts us (description >>= f) :=
  (description_stays.mono fun _ _ => trivial).next h

private theorem constDirectives_stays : Stays ts us constDirectives := directives_stays .constDirective maxDepth

private theorem inputValueDefinition_stays : Stays ts us inputValueDefinition := by
  rw [inputValueDefinition_eq]
  exact described_stays fun _ _ => name_stays.next fun _ _ => expect_bind fun _ _ _ =>
    (typeRef_stays maxDepth).next fun _ _ => (default_stays .inputDefault).next fun _ _ =>
      constDirectives_stays.next fun _ _ => .node

private theorem argumentDefinitions_stays : Stays ts us argumentDefinitions :=
  delimitedIf_stays fun _ => inputValueDefinition_stays

private theorem fieldDefinition_stays : Stays ts us fieldDefinition :=
  described_stays fun _ _ => name_stays.next fun _ _ => argumentDefinitions_stays.next fun _ _ =>
    expect_bind fun _ _ _ => (typeRef_stays maxDepth).next fun _ _ => constDirectives_stays.next fun _ _ => .node

private theorem enumValueDefinition_stays : Stays ts us enumValueDefinition := by
  have hname (us : List Token) : Stays ts us enumValueName := by
    refine .peek fun t ht hsound => .of ?_
    split
    · exact .fail_at ht hsound trivial
    · exact name_stays
  rw [enumValueDefinition_eq]
  exact described_stays fun _ _ => (hname _).next fun _ _ => constDirectives_stays.next fun _ _ => .node

private theorem interfaces_stays : Stays ts us interfaces := by
  rw [interfaces_eq]
  exact nextIsKeyword_bind_stays
    (fun t ht hsound => .advance (by simp [ht]) hsound (listed_stays (fun _ => name_stays) .ampersand))
    (.pure trivial)

private theorem unionMembers_stays : Stays ts us unionMembers := by
  rw [unionMembers_eq]
  refine (accept_stays .equals).next fun o _ => ?_
  cases o with
  | none => exact .pure trivial
  | some _ => exact listed_stays (fun _ => name_stays) .pipe

section
variable {t : Token}

private theorem fieldsBody_stays (ht : t ∈ ts) (hsound : t.kind.isError = false)
    (make : List Name → List FieldDefinition → TypeBody) (isExtension : Bool) :
    Stays ts us (fieldsBody make isExtension t) :=
  interfaces_stays.next fun _ _ => constDirectives_stays.next fun _ _ =>
    (delimitedIf_stays fun _ => fieldDefinition_stays).next fun _ _ =>
      (requireAddition_stays ht hsound _ _ _).next fun _ _ => .pure trivial

private theorem partsBody_stays (ht : t ∈ ts) (hsound : t.kind.isError = false) (make : List α → TypeBody)
    {parts : Parse (List α)} (h : ∀ us, Stays ts us parts) (additions : String) (isExtension : Bool) :
    Stays ts us (partsBody make parts additions isExtension t) :=
  constDirectives_stays.next fun _ _ => (h _).next fun _ _ =>
    (requireAddition_stays ht hsound _ _ _).next fun _ _ => .pure trivial

private theorem typeBody_stays (ht : t ∈ ts) (hsound : t.kind.isError = false) (kind : TypeKind) (isExtension : Bool) :
    Stays ts us (typeBody kind isExtension t) := by
  rw [typeBody_eq]
  cases kind with
  | scalar =>
    exact constDirectives_stays.next fun _ _ => (requireAddition_stays ht hsound _ _ _).next fun _ _ => .pure trivial
  | object => exact fieldsBody_stays ht hsound _ _
  | interface => exact fieldsBody_stays ht hsound _ _
  | union => exact partsBody_stays ht hsound _ (fun _ => unionMembers_stays) _ _
  | enum => exact partsBody_stays ht hsound _ (fun _ => delimitedIf_stays fun _ => enumValueDefinition_stays) _ _
  | inputObject =>
    exact partsBody_stays ht hsound _ (fun _ => delimitedIf_stays fun _ => inputValueDefinition_stays) _ _

private theorem typeDefinition_staysAt (ht : t ∈ ts) (hsound : t.kind.isError = false) (hne : t.kind ≠ .endOfInput)
    (kind : TypeKind) (isExtension : Bool) (description : Option StringLiteral) (start : Span) :
    StaysAt ts us t (typeDefinition kind isExtension description start) fun _ => True :=
  .peek hsound (.advance hne hsound (name_stays.next fun _ _ =>
    (typeBody_stays ht hsound kind isExtension).next fun _ _ => .node))

end

private theorem rootOperation_stays : Stays ts us rootOperation := by
  refine .peek fun t ht hsound => ?_
  split
  · rename_i kind hkind
    obtain ⟨w, hw, -⟩ := Option.bind_eq_some_iff.1 hkind
    exact .advance (ne_endOfInput_of_asName? hw) hsound
      (expect_bind fun _ _ _ => name_stays.next fun _ _ => .node)
  · exact .of (.unexpected ht hsound _)

private theorem schemaDefinition_stays (isExtension : Bool) (description : Option StringLiteral) (start : Span) :
    Stays ts us (schemaDefinition isExtension description start) := by
  have hroots (us : List Token) : Stays ts us (rootOperations isExtension) := by
    cases isExtension with
    | true => exact delimitedIf_stays fun _ => rootOperation_stays
    | false => exact (delimited_stays fun _ => rootOperation_stays).map fun _ _ => trivial
  rw [schemaDefinition_eq]
  exact keyword_bind fun sign hsign hsound => constDirectives_stays.next fun _ _ => (hroots _).next fun _ _ =>
    (requireAddition_stays hsign hsound _ _ _).next fun _ _ => .node

private theorem directiveLocation_stays : Stays ts us directiveLocation := by
  refine .peek fun t ht hsound => ?_
  split
  · exact .of (.unexpected ht hsound _)
  · rename_i w hw
    split
    · exact .of (.fail_at ht hsound trivial)
    · exact .advance (ne_endOfInput_of_asName? hw) hsound (.pure trivial)

private theorem directiveDefinition_stays (description : Option StringLiteral) (start : Span) :
    Stays ts us (directiveDefinition description start) := by
  have hrepeatable (us : List Token) : Stays ts us repeatable :=
    nextIsKeyword_bind_stays (fun t ht hsound => .advance (by simp [ht]) hsound (.pure trivial)) (.pure trivial)
  rw [directiveDefinition_eq]
  exact keyword_bind fun _ _ _ => expect_bind fun _ _ _ => name_stays.next fun _ _ =>
    argumentDefinitions_stays.next fun _ _ => (hrepeatable _).next fun _ _ => keyword_bind fun _ _ _ =>
      (listed_stays (fun _ => directiveLocation_stays) .pipe).next fun _ _ => .node

private theorem extension_stays : Stays ts us extension := by
  refine keyword_bind fun extend _ _ => .peek fun t ht hsound => ?_
  split
  · exact .of ((schemaDefinition_stays _ _ _).next fun _ _ => .pure trivial)
  · rename_i hkind
    split
    · exact (typeDefinition_staysAt ht hsound (by simp [hkind]) _ _ _ _).bind fun _ _ _ _ => .pure trivial
    · exact .of (.unexpected ht hsound _)
  · exact .of (.unexpected ht hsound _)

private theorem typeSystemDefinition_stays : Stays ts us typeSystemDefinition := by
  refine description_stays.bind fun description vs _ hdescription => .peek fun t ht hsound => ?_
  split
  · exact .of (.fail_at ht hsound trivial)
  · exact .of ((schemaDefinition_stays _ _ _).next fun _ _ => .pure trivial)
  · exact .of ((directiveDefinition_stays _ _).next fun _ _ => .pure trivial)
  · split
    · rename_i text
      obtain ⟨u, hu, hsound, hspan⟩ := hdescription text rfl
      rw [← hspan]
      exact .of (.fail_at hu hsound trivial)
    · exact .of extension_stays
  · rename_i hkind
    split
    · exact (typeDefinition_staysAt ht hsound (by simp [hkind]) _ _ _ _).bind fun _ _ _ _ => .pure trivial
    · split
      · exact .of (.fail_at ht hsound trivial)
      · exact .of (.unexpected ht hsound _)
  · exact .of (.unexpected ht hsound _)

/-- A parse of a schema document stays within the tokens. -/
private theorem schemaDocument_stays : Stays ts us schemaDocument :=
  (definitions_stays fun _ => typeSystemDefinition_stays).next fun _ _ => .pure trivial

end Parse

/-! ### Places in the source -/

private theorem prefix_of_offset_le {text p q : List Char} (hp : p <+: text) (hq : q <+: text)
    (hle : (Position.after p).offset ≤ (Position.after q).offset) : p <+: q := by
  rcases List.prefix_or_prefix_of_prefix hp hq with h | ⟨rest, rfl⟩
  · exact h
  · cases rest with
    | nil => simp
    | cons c rest =>
      have hpos := utf8Length_pos (List.cons_ne_nil c rest)
      simp only [Position.after, utf8Length_append] at hle
      omega

/-- The span covers a stretch of the source. -/
def Span.In (span : Span) (source : String) : Prop :=
  ∃ before text rest, source.toList = before ++ text ++ rest ∧ span = ⟨.after before, .after (before ++ text)⟩

/-- A span in the source begins before it ends, ends before the source does, and has a text. -/
private theorem Span.In.bounds {span : Span} {source : String} (h : span.In source) :
    span.first.offset ≤ span.stop.offset ∧ span.stop.offset ≤ utf8Length source.toList ∧
      (span.slice? source).isSome := by
  obtain ⟨before, text, rest, hsource, rfl⟩ := h
  rw [slice?_after hsource]
  simp [hsource, Position.after]

/-- A span that covers some of the tokens covers the source from the first of them to the last. -/
theorem Span.Covers.inSource {source : String} {span : Span} {before us after : List Token}
    (h : span.Covers us) (hsplit : tokens source = before ++ us ++ after) : span.In source := by
  obtain ⟨first, hfirst, last, hlast, rfl⟩ := h
  have hmem {t : Token} (ht : t ∈ us) : t ∈ tokens source := by simp [hsplit, ht]
  obtain ⟨p, gap, text, rest, htile, -⟩ := (tiles_tokens source).exists_tile (hmem (List.mem_of_head? hfirst))
  obtain ⟨p', gap', text', rest', htile', -⟩ := (tiles_tokens source).exists_tile (hmem (List.mem_of_getLast? hlast))
  have hle : first.span.first.offset ≤ last.span.stop.offset := by
    obtain ⟨us', rfl⟩ := List.head?_eq_some_iff.1 hfirst
    have hordered : (first :: us').Pairwise fun t u => t.span.stop.offset ≤ u.span.first.offset :=
      (tiles_tokens source).pairwise_le.sublist (by simp [hsplit])
    rcases List.mem_cons.1 (List.mem_of_getLast? hlast) with rfl | hlast
    · exact htile.first_le_stop
    · calc first.span.first.offset ≤ first.span.stop.offset := htile.first_le_stop
        _ ≤ last.span.first.offset := (List.pairwise_cons.1 hordered).1 last hlast
        _ ≤ last.span.stop.offset := htile'.first_le_stop
  rw [htile.first, htile'.stop] at hle
  have hbegins : p ++ gap <+: source.toList := ⟨text ++ rest, by simp [htile.source_eq]⟩
  obtain ⟨stretch, hstretch⟩ := prefix_of_offset_le hbegins ⟨rest', htile'.source_eq.symm⟩ hle
  refine ⟨p ++ gap, stretch, rest', by rw [hstretch, htile'.source_eq], ?_⟩
  rw [hstretch, ← htile.first, ← htile'.stop]
  rfl

/-- Tokens other than the last are covered in front of the last. -/
theorem Span.Covers.stop_le_last {source : String} {span : Span} {before us after ts : List Token} {t : Token}
    (h : span.Covers us) (hsplit : tokens source = before ++ us ++ after) (hlast : tokens source = ts ++ [t])
    (ht : t ∉ us) : span.stop.offset ≤ t.span.first.offset := by
  rcases List.eq_nil_or_concat after with rfl | ⟨after, u, rfl⟩
  · -- the stretch would end with the last token
    obtain ⟨vs, u, rfl⟩ := (List.eq_nil_or_concat us).resolve_left h.ne_nil
    have hends : ts ++ [t] = (before ++ vs) ++ [u] := by simpa [hlast] using hsplit
    have htu := List.singleton_inj.1 (List.append_inj' hends rfl).2
    exact absurd (by simp [htu]) ht
  · have hends : ts ++ [t] = (before ++ us ++ after) ++ [u] := by simpa [hlast] using hsplit
    obtain ⟨rfl, -⟩ := List.append_inj' hends rfl
    have hinside : us.Sublist (before ++ us ++ after) :=
      (List.sublist_append_right before us).trans (List.sublist_append_left _ after)
    have hordered : (us ++ [t]).Pairwise fun t u => t.span.stop.offset ≤ u.span.first.offset := by
      refine (tiles_tokens source).pairwise_le.sublist ?_
      rw [hlast]
      exact hinside.append_right _
    have hcovers : t.span.Covers [t] := ⟨t, rfl, t, rfl, rfl⟩
    exact h.apart hcovers hordered

/-- Tokens stand in the source that they were read from. -/
private theorem span_inSource {source : String} {t : Token} (ht : t ∈ tokens source) : t.span.In source := by
  obtain ⟨before, after, hsplit⟩ := List.append_of_mem ht
  rw [List.append_cons] at hsplit
  have hcovers : t.span.Covers [t] := ⟨t, rfl, t, rfl, rfl⟩
  exact hcovers.inSource hsplit

/-- A note about a token that is an error points at the start of the token, if anywhere. -/
theorem LexicalError.span_of_mem_notes (cause : LexicalError) {start : Position} {note : Note} {span : Span}
    (hnote : note ∈ cause.notes start) (hat : note.span = some span) : span = .emptyAt start := by
  unfold LexicalError.notes at hnote
  split at hnote <;> simp only [List.mem_cons, List.not_mem_nil, or_false] at hnote
  case h_3 | h_5 =>
    -- the text was never closed, and the first note says where it starts
    obtain rfl | rfl := hnote
    · exact (Option.some.inj hat).symm
    · cases hat
  all_goals grind

namespace ParseError

variable {source : String} {e : ParseError}

/-- An error at tokens stands in the source. -/
private theorem PlacedIn.inSource (h : e.PlacedIn (tokens source)) : e.span.In source := by
  cases h with
  | lexical mem => exact span_inSource mem
  | grammar split covers _ _ => exact covers.inSource split

/-- The notes under the message speak of the place where the error begins, or of another token. -/
theorem PlacedIn.place_of_note {ts : List Token} (h : e.PlacedIn ts) {note : Note} (hnote : note ∈ e.notes)
    {place : Span} (hat : note.span = some place) :
    place = .emptyAt e.span.first ∨ ∃ t ∈ ts, t.span = place := by
  cases h with
  | @lexical cause span mem => exact .inl (cause.span_of_mem_notes hnote hat)
  | @grammar fault span before us after split covers sound points =>
    cases fault with
    | unclosed close construct opened =>
      obtain rfl := List.mem_singleton.1 hnote
      obtain rfl : opened = place := Option.some.inj hat
      exact .inr points
    | lexical => exact points.elim
    | fragmentNamedOn | reservedEnumValue =>
      -- The note names a production of the grammar and no place.
      obtain rfl := List.mem_singleton.1 hnote
      cases hat
    | wrongDocument found kind =>
      cases kind <;> (obtain rfl := List.mem_singleton.1 hnote; cases hat)
    | unknownLocation text suggestion =>
      cases suggestion with
      | none => cases hnote
      | some suggestion =>
        obtain rfl := List.mem_singleton.1 hnote
        cases hat
    | tooDeep | describedExtension =>
      obtain rfl := List.mem_singleton.1 hnote
      cases hat
    | _ => cases hnote

/-- The parse reports the error of an error token as it is, or else a fault of the grammar in front of the token. -/
def Reports (e : ParseError) (cause : LexicalError) (span : Span) : Prop :=
  (e.fault = .lexical cause ∧ e.message = cause.message ∧ e.span = span ∧ e.notes = cause.notes span.first) ∨
    (∀ cause, e.fault ≠ .lexical cause) ∧ e.span.stop.offset ≤ span.first.offset

/-- Tokens that are no errors stand in front of an error token at the end. -/
theorem PlacedIn.reports {cause : LexicalError} {span : Span} (h : e.PlacedIn (tokens source))
    (hlast : (tokens source).getLast? = some ⟨.error cause, span⟩) : e.Reports cause span := by
  obtain ⟨us, t, htokens, -, hus⟩ := (tiles_tokens source).exists_last
  rw [htokens, List.getLast?_concat] at hlast
  obtain rfl := Option.some.inj hlast
  cases h with
  | @lexical cause' span' mem =>
    rw [htokens] at mem
    rcases List.mem_append.1 mem with hmem | hmem
    · exact absurd (.inr rfl) (hus _ hmem)
    · obtain ⟨hkind, rfl⟩ := Token.mk.inj (List.mem_singleton.1 hmem)
      cases hkind
      exact .inl ⟨rfl, rfl, rfl, rfl⟩
  | @grammar fault span' before vs after split covers sound points =>
    refine .inr ⟨fun cause' hcause => ?_, ?_⟩
    · change fault = _ at hcause
      rw [hcause] at points
      exact points
    · exact covers.stop_le_last split htokens fun hmem => by simpa [Token.Kind.isError] using sound _ hmem

end ParseError

private theorem Parse.Stays.placedIn {α : Type} {p : Parse α} {source : String} {e : ParseError}
    (h : Stays (tokens source) [] p) (hrun : p.run (tokens source) = .error e) : e.PlacedIn (tokens source) := by
  obtain ⟨us, t, htokens, ht, -⟩ := (tiles_tokens source).exists_last
  have hstart : Input.Within (tokens source) [] ⟨tokens source, none⟩ :=
    ⟨rfl, fun h => absurd rfl h, by simp, t, by simp [htokens], ht⟩
  have hplace := h _ hstart trivial
  unfold Parse.run at hrun
  cases hresult : StateT.run p ⟨tokens source, none⟩ with
  | error e' =>
    rw [hresult] at hrun hplace
    cases hrun
    exact hplace
  | ok r =>
    rw [hresult] at hrun
    cases hrun

/-- An error of a parse is placed in the tokens of the source. -/
theorem Document.placedIn_of_parse {source : String} {e : ParseError} (h : Document.parse source = .error e) :
    e.PlacedIn (tokens source) :=
  Parse.document_stays.placedIn h

theorem SchemaDocument.placedIn_of_parse {source : String} {e : ParseError}
    (h : SchemaDocument.parse source = .error e) : e.PlacedIn (tokens source) :=
  Parse.schemaDocument_stays.placedIn h

/-- A document whose tokens are all parsed has no error token at their end. -/
theorem SyntaxTree.ExactIn.getLast?_ne {tree : SyntaxTree} {source : String} (h : tree.ExactIn source)
    (cause : LexicalError) (span : Span) : (tokens source).getLast? ≠ some ⟨.error cause, span⟩ := by
  obtain ⟨ts, t, htokens, ht, -⟩ := h
  intro hlast
  rw [htokens, List.getLast?_concat] at hlast
  rw [Option.some.inj hlast] at ht
  cases ht

/-- A source whose last token is an error is neither kind of document: what is reported is the error as the token has
it, or a fault of the grammar that ends no later than the token begins. The error of any source stands in the
source. -/
theorem parse_error_placed (source : String) :
    (∀ cause span, (tokens source).getLast? = some ⟨.error cause, span⟩ →
      (∃ e, Document.parse source = .error e ∧ e.Reports cause span) ∧
        ∃ e, SchemaDocument.parse source = .error e ∧ e.Reports cause span) ∧
    ∀ e, Document.parse source = .error e ∨ SchemaDocument.parse source = .error e →
      e.span.first.offset ≤ e.span.stop.offset ∧ e.span.stop.offset ≤ utf8Length source.toList ∧
        (e.span.slice? source).isSome := by
  refine ⟨fun cause span hlast => ⟨?_, ?_⟩, fun e he => ?_⟩
  · cases h : Document.parse source with
    | ok d => exact absurd hlast ((Document.exactIn_of_parse h).1.getLast?_ne cause span)
    | error e => exact ⟨e, rfl, (Document.placedIn_of_parse h).reports hlast⟩
  · cases h : SchemaDocument.parse source with
    | ok d => exact absurd hlast ((SchemaDocument.exactIn_of_parse h).1.getLast?_ne cause span)
    | error e => exact ⟨e, rfl, (SchemaDocument.placedIn_of_parse h).reports hlast⟩
  · rcases he with h | h
    · exact (Document.placedIn_of_parse h).inSource.bounds
    · exact (SchemaDocument.placedIn_of_parse h).inSource.bounds

/-- An unclosed string ends a selection set: as an executable document this is the error, and as a schema document the
brace in front of it. -/
theorem parse_error_placed_of_unclosed_string :
    let source := "\x7b a(b: \"c"
    let cause : LexicalError := .stringAtEndOfInput
    let span : Span := ⟨⟨0, 7, 7, 7⟩, ⟨0, 9, 9, 9⟩⟩
    (tokens source).getLast? = some ⟨.error cause, span⟩ ∧
      (∃ e, Document.parse source = .error e ∧ e.Reports cause span ∧ (e.span.slice? source).isSome) ∧
        ∃ e, SchemaDocument.parse source = .error e ∧ e.Reports cause span ∧ (e.span.slice? source).isSome := by
  intro source cause span
  have hlast : (tokens source).getLast? = some ⟨.error cause, span⟩ := by
    obtain ⟨text, htext, hlex⟩ : ∃ text, source.toList = text ∧ (lexChars text).getLast? = some ⟨.error cause, span⟩ :=
      ⟨_, String.toList_ofList, by decide +kernel⟩
    rwa [tokens_eq_lexChars htext]
  obtain ⟨⟨e, he, hreports⟩, e', he', hreports'⟩ := (parse_error_placed source).1 cause span hlast
  exact ⟨hlast, ⟨e, he, hreports, ((parse_error_placed source).2 e (.inl he)).2.2⟩,
    e', he', hreports', ((parse_error_placed source).2 e' (.inr he')).2.2⟩

end GraphQL
