import GraphQL.Proofs.Cursor
import GraphQL.Schema.Build
import GraphQL.Validation.Validator

/-!
# Reading texts by structural recursion

`tokensFrom` recurses on the length of the text, which closed terms are slow to unfold. `lexWithin` gives the same
tokens by recursion on a bound (`lexWithin_eq`), so that a text whose characters are known can be read by
evaluation (`SchemaDocument.parse_eq`, `Document.parse_eq`). The same goes for the draft of the prelude and one
more text (`Draft.ofChars`). In a document without fragments there is nothing for the walks over spreads to do, so
that the rules can be evaluated without these (`Document.isClear`).
-/

namespace GraphQL

/-- The tokens of the text that follows the reading point, at most `n` of them. -/
def lexWithin : Nat → Cursor → List Char → List Token
  | 0, _, _ => []
  | n + 1, c, text =>
    let c := c.after (ignored text).1
    match (ignored text).2 with
    | [] => [⟨.endOfInput, .emptyAt c.position⟩]
    | ch :: rest =>
      let lexeme := Lexeme.read ch rest
      let next := c.after lexeme.text
      let token : Token := ⟨lexeme.kind, ⟨c.position, next.position⟩⟩
      if lexeme.kind.isError then [token] else token :: lexWithin n next lexeme.rest

/-- A text has no more tokens than characters, but for the end of the input. -/
theorem lexWithin_eq {n : Nat} (c : Cursor) (text : List Char) (h : text.length < n) :
    lexWithin n c text = tokensFrom c text := by
  induction n generalizing c text with
  | zero => omega
  | succ n ih =>
    rw [tokensFrom_eq]
    simp only [lexWithin]
    cases hrest : (ignored text).2 with
    | nil => rfl
    | cons ch rest =>
      have hshort := ignored_rest_length text
      have hread := Lexeme.read_rest_length ch rest
      rw [hrest, List.length_cons] at hshort
      simp only [tokensAt]
      rw [ih _ _ (by omega)]

/-- The tokens of a text given by its characters. -/
def lexChars (text : List Char) : List Token := lexWithin (text.length + 1) .start text

/-- The tokens of a text can be evaluated once its characters are known. -/
theorem tokens_eq_lexChars {source : String} {text : List Char} (h : source.toList = text) :
    tokens source = lexChars text := by
  rw [tokens, h, lexChars, lexWithin_eq _ _ (Nat.lt_succ_self _)]

theorem SchemaDocument.parse_eq {source : String} {text : List Char} (h : source.toList = text) :
    SchemaDocument.parse source = Parse.schemaDocument.run (lexChars text) := by
  rw [SchemaDocument.parse, tokens_eq_lexChars h]

/-- A parse can be evaluated once the characters of the text are known. -/
theorem Document.parse_eq {source : String} {text : List Char} (h : source.toList = text) :
    Document.parse source = Parse.document.run (lexChars text) := by
  rw [Document.parse, tokens_eq_lexChars h]

/-- A text parses to a document that passes a test, if the test can be evaluated on its characters. -/
theorem Document.exists_of_run {source : String} {text : List Char} {test : Document → Bool}
    (htext : source.toList = text) (h : (Parse.document.run (lexChars text)).toOption.any test) :
    ∃ d, parse source = .ok d ∧ test d := by
  rw [← parse_eq htext] at h
  cases hd : parse source with
  | error cause => simp [hd, Except.toOption] at h
  | ok d => exact ⟨d, rfl, by simpa [hd, Except.toOption] using h⟩

/-- The definitions of a schema text given by its characters; a text that does not parse has none. -/
def definitionsOf (text : List Char) : List TypeSystemDefinition :=
  match Parse.schemaDocument.run (lexChars text) with
  | .ok d => d.definitions
  | .error _ => []

private theorem Prelude.read_eq {source : String} {text : List Char} (h : source.toList = text) :
    read source = definitionsOf text := by
  cases hrun : Parse.schemaDocument.run (lexChars text) <;>
    simp [read, definitionsOf, SchemaDocument.parse_eq h, hrun]

theorem Prelude.definitions_eq {text : List Char} (h : Prelude.text.toList = text) :
    definitions = definitionsOf text := by
  rw [definitions, read_eq h]

/-- The fields that the definition of an object type declares. -/
def TypeSystemDefinition.objectFields : TypeSystemDefinition → List FieldDefinition
  | .type ⟨_, _, _, .object _ fields, _⟩ => fields
  | _ => []

theorem Prelude.metaFields_eq {text : List Char} (h : Prelude.metaText.toList = text) :
    metaFields = (definitionsOf text).flatMap (·.objectFields) :=
  congrArg (List.flatMap _) (read_eq h)

/-- The draft of the definitions in the prelude's text and in one more. -/
def Draft.ofChars (prelude text : List Char) : Draft :=
  (definitionsOf text).foldl (add false) ((definitionsOf prelude).foldl (add true) {})

theorem Draft.start_addDocument_eq {prelude text : List Char} {source : String} {document : SchemaDocument}
    (hp : Prelude.text.toList = prelude) (ht : source.toList = text)
    (hd : SchemaDocument.parse source = .ok document) :
    start.addDocument document = ofChars prelude text := by
  rw [SchemaDocument.parse_eq ht] at hd
  rw [addDocument, start, Prelude.definitions_eq hp, ofChars]
  simp only [definitionsOf, hd]

private theorem conformanceFaults_of_no_interfaces {types : List TypeDefinition} {t : TypeDefinition}
    (h : t.interfaces = []) : conformanceFaults types t = [] := by
  simp [conformanceFaults, h, interfaceOrder, Named.names, walkInterfaces]

/-- Whether a type names no interfaces and has no other fault; the walk over interfaces is not needed to tell. -/
def isPlain (types : List TypeDefinition) (t : TypeDefinition) : Bool :=
  t.interfaces.isEmpty &&
    match t.body with
    | .object _ fields | .interface _ fields => (fields.flatMap (fieldTypeFaults types t.name.value)).isEmpty
    | _ => (Draft.typeFaults types t).isEmpty

private theorem typeFaults_of_isPlain {types : List TypeDefinition} {t : TypeDefinition} (h : isPlain types t) :
    Draft.typeFaults types t = [] := by
  simp only [isPlain, Bool.and_eq_true, List.isEmpty_iff] at h
  obtain ⟨hi, hfields⟩ := h
  have hc : conformanceFaults types t = [] := conformanceFaults_of_no_interfaces hi
  unfold Draft.typeFaults at hfields ⊢
  cases hbody : t.body <;> simp_all

/-- Whether the draft has no fault, where no type names an interface. -/
def Draft.isSound (d : Draft) : Bool :=
  d.faults.isEmpty && d.emptyFaults.isEmpty && d.rootFaults.isEmpty && d.types.all (isPlain d.types) &&
    d.directiveTypeFaults.isEmpty && (directiveUseFaults d.schemaDirectives d.types d.directives).isEmpty

/-- The shorter check is enough where no type names an interface. -/
theorem Draft.allFaults_of_isSound {d : Draft} (h : d.extended.isSound) : d.allFaults = [] := by
  simp only [isSound, Bool.and_eq_true, List.isEmpty_iff, List.all_eq_true] at h
  obtain ⟨⟨⟨⟨⟨hfaults, hempty⟩, hroots⟩, htypes⟩, hdirectives⟩, huses⟩ := h
  have hplain : d.extended.types.flatMap (typeFaults d.extended.types) = [] :=
    List.flatMap_eq_nil_iff.2 fun t ht => typeFaults_of_isPlain (htypes t ht)
  simp [allFaults, finalFaults, hfaults, hempty, hroots, hplain, hdirectives, huses]

/-- The schema of the prelude's text and one more, where queries begin at a type called `Query`. -/
def Schema.ofChars (prelude text : List Char) : Schema :=
  let d := (Draft.ofChars prelude text).extended
  ⟨d.types, d.directives, "Query", d.rootName? .mutation, d.rootName? .subscription⟩

/-- A text makes a schema with which a document passes a test, if all of it can be evaluated on the characters. -/
theorem Schema.exists_of_run {schemaSource source : String} {prelude schemaText text : List Char}
    {test : Schema → Document → Bool} (hp : Prelude.text.toList = prelude) (hschema : schemaSource.toList = schemaText)
    (htext : source.toList = text)
    (h : (Parse.schemaDocument.run (lexChars schemaText)).isOk ∧ (Draft.ofChars prelude schemaText).extended.isSound ∧
      (Draft.ofChars prelude schemaText).extended.rootName? .query = some "Query" ∧
      (Parse.document.run (lexChars text)).toOption.any (test (ofChars prelude schemaText))) :
    ∃ document s d, SchemaDocument.parse schemaSource = .ok document ∧ build [document] = .ok s ∧
      Document.parse source = .ok d ∧ test s d := by
  obtain ⟨hok, hsound, hquery, htest⟩ := h
  obtain ⟨d, hd, htest⟩ := Document.exists_of_run htext htest
  rw [← SchemaDocument.parse_eq hschema] at hok
  cases hdocument : SchemaDocument.parse schemaSource with
  | error cause => simp [hdocument, Except.isOk, Except.toBool] at hok
  | ok document =>
    refine ⟨document, _, d, rfl, ?_, hd, htest⟩
    have hdraft := Draft.start_addDocument_eq hp hschema hdocument
    rw [← hdraft] at hsound hquery
    rw [build, List.foldl_cons, List.foldl_nil, ofChars, ← hdraft, Draft.build, Draft.allFaults_of_isSound hsound]
    simp only [hquery]

private theorem reachedFrom_nil (names : List String) : reachedFrom [] names = [] := by
  induction names with
  | nil => rw [reachedFrom]
  | cons name names ih =>
    rw [reachedFrom]
    exact ih

def TopItem.field? : TopItem → Option PlacedField
  | .field placed => some placed
  | .spread _ => none

/-- Without fragments a selection set has the fields that stand in it, in inline fragments too. -/
private theorem Schema.expand_nil (s : Schema) (items : List TopItem) :
    s.expand [] items = items.filterMap TopItem.field? := by
  induction items with
  | nil => rw [expand, List.filterMap_nil]
  | cons item items ih =>
    cases item with
    | field placed =>
      rw [expand, ih]
      rfl
    | spread name =>
      rw [expand]
      exact ih

/-- Whether no selection set selects two fields under one key, where inline fragments alone are opened. -/
def Document.hasDistinctKeys (s : Schema) (d : Document) : Bool :=
  (s.visits d).all fun
    | .selectionSet parent set =>
      (pairsWithin ((s.topItems parent set.selections).filterMap TopItem.field?)).isEmpty
    | _ => true

/-- Whether an operation declares the variables that it uses itself, uses all it declares, and uses them where
their types allow. -/
def Operation.hasFittingVariables (s : Schema) (o : Operation) : Bool :=
  let occurrences := definitionOccurrences s (.operation o)
  occurrences.all (fun x => Named.contains o.variableDefinitions x.use.name.value) &&
    o.variableDefinitions.all (fun v => v.name.value ∈ occurrences.map (·.use.name.value)) &&
    occurrences.all fun x => (usageFindings s o x).isEmpty

/-- The rules that look through fragments. -/
def fragmentRules : List Rule :=
  [.fieldMerging, .undefinedVariable, .unusedVariable, .variableUsage, .fragmentCycle]

namespace Document

variable {s : Schema} {d : Document}

private theorem fieldMerging_of_hasDistinctKeys (hd : d.fragments = []) (h : d.hasDistinctKeys s) :
    fieldMerging s d = [] := by
  have hpairs : documentPairs s d = [] := by
    apply List.flatMap_eq_nil_iff.2
    intro v hv
    have hv := List.all_eq_true.1 h v hv
    split
    · rw [Schema.topFields, hd, Schema.expand_nil]
      exact List.isEmpty_iff.1 hv
    · rfl
  simp only [fieldMerging, hpairs, conflictsAmong, List.map_nil]

/-- Whether no rule finds anything in a document without fragments. -/
def isClear (s : Schema) (d : Document) : Bool :=
  d.fragments.isEmpty && d.hasDistinctKeys s && d.operations.all (·.hasFittingVariables s) &&
    (Rule.documentRules.filter (· ∉ fragmentRules)).all fun rule => (rule.check s d).isEmpty

theorem operationOccurrences_of_no_fragments (hd : d.fragments = []) (o : Operation) :
    operationOccurrences s d o = definitionOccurrences s (.operation o) := by
  rw [operationOccurrences, reachedBy, hd, reachedFrom_nil, List.flatMap_nil, List.append_nil]

/-- In a document without fragments the shorter check of a rule is enough. -/
private theorem check_of_isClear (h : d.isClear s) {rule : Rule} (hrule : rule ∈ fragmentRules) :
    rule.check s d = [] := by
  simp only [isClear, Bool.and_eq_true, List.isEmpty_iff, List.all_eq_true] at h
  obtain ⟨⟨⟨hd, hkeys⟩, hvariables⟩, -⟩ := h
  simp only [Operation.hasFittingVariables, Bool.and_eq_true, List.all_eq_true] at hvariables
  simp only [fragmentRules, List.mem_cons, List.not_mem_nil, or_false] at hrule
  rcases hrule with rfl | rfl | rfl | rfl | rfl
  · exact fieldMerging_of_hasDistinctKeys hd hkeys
  · apply List.flatMap_eq_nil_iff.2
    intro o ho
    rw [operationOccurrences_of_no_fragments hd, List.map_eq_nil_iff, List.filter_eq_nil_iff]
    intro x hx
    simp [(hvariables o ho).1.1 x hx]
  · apply List.flatMap_eq_nil_iff.2
    intro o ho
    rw [operationOccurrences_of_no_fragments hd, List.map_eq_nil_iff, List.filter_eq_nil_iff]
    intro v hv
    simpa using (hvariables o ho).1.2 v hv
  · apply List.flatMap_eq_nil_iff.2
    intro o ho
    rw [operationOccurrences_of_no_fragments hd]
    exact List.flatMap_eq_nil_iff.2 fun x hx => List.isEmpty_iff.1 ((hvariables o ho).2 x hx)
  · change fragmentCycle d = []
    rw [fragmentCycle, fragmentCycles, hd, List.map_nil, cyclesFrom, List.map_nil]

/-- A clear document is accepted. -/
theorem validate_of_isClear (h : d.isClear s) : Validator.standard.validate s d = [] := by
  apply Validator.validate_eq_nil_iff.2
  intro rule hrule
  by_cases hfragments : rule ∈ fragmentRules
  · exact check_of_isClear h hfragments
  · simp only [isClear, Bool.and_eq_true, List.all_eq_true, List.mem_filter] at h
    exact List.isEmpty_iff.1 (h.2 rule ⟨hrule, by simpa using hfragments⟩)

end Document

end GraphQL
