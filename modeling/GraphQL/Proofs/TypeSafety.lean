import GraphQL.Proofs.SchemaLookup
import GraphQL.Proofs.SpreadCycles
import GraphQL.Proofs.VariableUses
import GraphQL.Validation.Validator

/-!
# Accepted documents are well typed

A rule that does not know a type, a field or a fragment leaves it to another rule. Where no rule finds anything,
nothing is left out: every selection stands on a known type with fields to select, every field, spread, directive
and variable means something that is there, and fragments do not spread themselves (`Document.WellTyped`). The
types are known by induction along the walk (`Schema.Descends.placed`), which begins at the types of definitions
and goes on to the types of fields, both known in a schema that was built.
-/

namespace GraphQL

/-- Arguments are given for declared parameters only, and for all that are required. -/
structure ArgumentsFit (parameters : List InputValueDefinition) (arguments : List Argument) : Prop where
  declared : ∀ a ∈ arguments, Named.contains parameters a.name.value
  required : ∀ p ∈ parameters, p.isRequired → Named.contains arguments p.name.value

namespace Schema

/-- The directives are defined and allowed at the place, and their arguments fit. -/
def DirectivesFit (s : Schema) (place : DirectiveLocation) (uses : List Directive) : Prop :=
  ∀ use ∈ uses, ∃ definition, s.directive? use.name.value = some definition ∧ definition.allowedAt place ∧
    ArgumentsFit definition.arguments use.arguments

/-- A field is selected from exactly where its type has fields, and its arguments fit. -/
structure FieldFits (s : Schema) (definition : FieldDefinition) (f : Field) : Prop where
  selectionSet : ∃ t, s.type? definition.type.innermost.value = some t ∧
    (f.selectionSet.isSome ↔ t.kind.isComposite)
  arguments : ArgumentsFit definition.arguments f.arguments

end Schema

/-- What a visit stands on is a known type with fields to select. -/
def Visit.Placed : Visit → Prop
  | .selectionSet parent _ | .field parent _ _ | .spread parent _ | .inline parent _ =>
    ∃ t, parent = some t ∧ t.kind.isComposite
  | .operation _ | .fragment _ | .variable _ | .directives .. => True

structure Document.WellTyped (s : Schema) (d : Document) : Prop where
  placed : ∀ v ∈ s.visits d, v.Placed
  fields : ∀ parent f definition?, .field parent f definition? ∈ s.visits d → ∃ t definition,
    parent = some t ∧ s.field? t.name.value f.name.value = some definition ∧ definition? = some definition ∧
      s.FieldFits definition f
  spreads : ∀ parent spread, .spread parent spread ∈ s.visits d → ∃ f, d.fragment? spread.name.value = some f
  acyclic : ∀ name, ¬Relation.TransGen d.Spreads name name
  directives : ∀ place uses, .directives place uses ∈ s.visits d → s.DirectivesFit place uses
  declared : ∀ o ∈ d.operations, ∀ use, d.Uses o use → Named.contains o.variableDefinitions use.name.value

private theorem Visit.Placed.of_isPlain {v : Visit} (h : v.IsPlain) : v.Placed := by
  cases v with
  | selectionSet | field | spread | inline => exact h.elim
  | _ => trivial

private theorem argumentsFit_of_eq_nil {parameters : List InputValueDefinition} {arguments : List Argument}
    {owner owner' : String} {span : Span} (hunknown : unknownArguments parameters owner arguments = [])
    (hmissing : missingArguments parameters owner' span arguments = []) : ArgumentsFit parameters arguments where
  declared a ha := by
    rw [unknownArguments, List.map_eq_nil_iff, List.filter_eq_nil_iff] at hunknown
    simpa using hunknown a ha
  required p hp hrequired := by
    rw [missingArguments, List.map_eq_nil_iff, List.filter_eq_nil_iff] at hmissing
    simpa [hrequired] using hmissing p hp

section Rules

variable {s : Schema} {d : Document}

private theorem exists_field_of_unknownField (h : unknownField s d = []) {t : TypeDefinition} {f : Field}
    {definition? : Option FieldDefinition} (hf : .field (some t) f definition? ∈ s.visits d)
    (ht : t.kind.isComposite) : ∃ definition, definition? = some definition := by
  cases definition? with
  | some definition => exact ⟨definition, rfl⟩
  | none =>
    have hnil := List.flatMap_eq_nil_iff.1 h _ hf
    simp [ht] at hnil

private theorem argumentsFit_of_field (hknown : knownArgumentNames s d = []) (hrequired : requiredArguments s d = [])
    {t : TypeDefinition} {f : Field} {definition : FieldDefinition}
    (hf : .field (some t) f (some definition) ∈ s.visits d) : ArgumentsFit definition.arguments f.arguments :=
  argumentsFit_of_eq_nil (List.flatMap_eq_nil_iff.1 hknown _ hf) (List.flatMap_eq_nil_iff.1 hrequired _ hf)

/-- A field of a type that gives results is selected from exactly where the type has fields. -/
theorem isSome_selectionSet_iff (h : leafFieldSelections s d = []) {parent : Option TypeDefinition} {f : Field}
    {definition : FieldDefinition} (hf : .field parent f (some definition) ∈ s.visits d) {t : TypeDefinition}
    (ht : s.type? definition.type.innermost.value = some t) (houtput : t.kind.isOutput) :
    f.selectionSet.isSome ↔ t.kind.isComposite := by
  have hnil := List.flatMap_eq_nil_iff.1 h _ hf
  have hresult : s.resultType? (some definition) = some t := ht
  cases hset : f.selectionSet with
  | some set =>
    have hleaf : t.kind.isLeaf = false := by simpa [hresult, hset] using hnil
    rcases hkind : t.kind <;> simp_all [TypeKind.isLeaf, TypeKind.isOutput, TypeKind.isComposite]
  | none =>
    have hcomposite : t.kind.isComposite = false := by simpa [hresult, hset] using hnil
    simp [hcomposite]

private theorem exists_fragment_of_knownFragmentNames (h : knownFragmentNames s d = []) {parent : Option TypeDefinition}
    {spread : FragmentSpread} (hs : .spread parent spread ∈ s.visits d) :
    ∃ f, d.fragment? spread.name.value = some f := by
  have hnil := List.flatMap_eq_nil_iff.1 h _ hs
  cases hf : d.fragment? spread.name.value with
  | some f => exact ⟨f, rfl⟩
  | none => simp [hf] at hnil

private theorem directivesFit_of_eq_nil (hknown : knownDirectives s d = []) (hplace : directiveLocation s d = [])
    (harguments : knownArgumentNames s d = []) (hrequired : requiredArguments s d = [])
    {place : DirectiveLocation} {uses : List Directive} (h : .directives place uses ∈ s.visits d) :
    s.DirectivesFit place uses := by
  intro use huse
  have hdefined := List.flatMap_eq_nil_iff.1 hknown _ h
  rw [List.map_eq_nil_iff, List.filter_eq_nil_iff] at hdefined
  have hallowed := List.flatMap_eq_nil_iff.1 hplace _ h
  rw [List.map_eq_nil_iff, List.filter_eq_nil_iff] at hallowed
  have hunknown := List.flatMap_eq_nil_iff.1 (List.flatMap_eq_nil_iff.1 harguments _ h) use huse
  have hmissing := List.flatMap_eq_nil_iff.1 (List.flatMap_eq_nil_iff.1 hrequired _ h) use huse
  cases hdefinition : s.directive? use.name.value with
  | none => simpa [hdefinition] using hdefined use huse
  | some definition =>
    rw [hdefinition] at hunknown hmissing
    refine ⟨definition, rfl, ?_, argumentsFit_of_eq_nil hunknown hmissing⟩
    simpa [hdefinition] using hallowed use huse

/-- The condition of a visited fragment is a known type with fields. -/
theorem exists_conditionType (htypes : knownTypeNames s d = []) {v : Visit} (hv : v ∈ s.visits d)
    {condition : TypeCondition} (hname : condition.typeName ∈ v.typeNames) {subject : String}
    (hfinding : fragmentOnCompositeType.finding s subject condition = []) :
    ∃ t, s.conditionType? condition = some t ∧ t.kind.isComposite := by
  have hnil := List.flatMap_eq_nil_iff.1 htypes v hv
  rw [List.map_eq_nil_iff, List.filter_eq_nil_iff] at hnil
  have hknown := hnil _ hname
  cases ht : s.type? condition.typeName.value with
  | none => simp [ht] at hknown
  | some t =>
    refine ⟨t, ht, ?_⟩
    simpa [fragmentOnCompositeType.finding, Schema.isNonComposite, ht] using hfinding

/-- The type that a definition selects from is known and has fields. -/
theorem exists_definitionType {documents : List SchemaDocument} (hs : Schema.build documents = .ok s)
    (hoperations : knownOperationType s d = []) (htypes : knownTypeNames s d = [])
    (hconditions : fragmentOnCompositeType s d = []) {definition : Definition} (h : definition ∈ d.definitions) :
    ∃ t, s.definitionType? definition = some t ∧ t.kind.isComposite := by
  cases definition with
  | operation o =>
    rw [knownOperationType, List.map_eq_nil_iff, List.filter_eq_nil_iff] at hoperations
    have hname := hoperations o (List.mem_filterMap.2 ⟨_, h, rfl⟩)
    obtain ⟨name, hname⟩ : ∃ name, s.rootName? o.kind = some name :=
      Option.isSome_iff_exists.1 (by simpa [Option.isSome_iff_ne_none] using hname)
    -- the roots of a schema that was built are object types
    obtain ⟨t, ht, hkind⟩ := Schema.exists_root hs hname
    exact ⟨t, ht, by simp [hkind, TypeKind.isComposite]⟩
  | fragment f =>
    have hvisit : .fragment f ∈ s.visits d := s.visitDefinition_subset_visits h (List.mem_cons_self ..)
    exact exists_conditionType htypes hvisit (List.mem_singleton.2 rfl)
      (List.flatMap_eq_nil_iff.1 hconditions _ hvisit)

private theorem exists_inlineType (htypes : knownTypeNames s d = []) (hconditions : fragmentOnCompositeType s d = [])
    {t : TypeDefinition} {i : InlineFragment} (hi : .inline (some t) i ∈ s.visits d) (ht : t.kind.isComposite) :
    ∃ u, s.inlineType? (some t) i.condition = some u ∧ u.kind.isComposite := by
  obtain ⟨condition, directives, set, span⟩ := i
  cases condition with
  | none => exact ⟨t, rfl, ht⟩
  | some condition =>
    exact exists_conditionType htypes hi (List.mem_singleton.2 rfl) (List.flatMap_eq_nil_iff.1 hconditions _ hi)

private theorem contains_of_undefinedVariable (h : undefinedVariable s d = []) {o : Operation} (ho : o ∈ d.operations)
    {x : Occurrence} (hx : x ∈ operationOccurrences s d o) :
    Named.contains o.variableDefinitions x.use.name.value := by
  have hnil := List.flatMap_eq_nil_iff.1 h o ho
  rw [List.map_eq_nil_iff, List.filter_eq_nil_iff] at hnil
  simpa using hnil x hx

end Rules

/-! ### The types along the walk -/

/-- From a known type with fields the visits go on to such types only. -/
structure Schema.Descends (s : Schema) (visits : List Visit) : Prop where
  field : ∀ t f definition? set, .field (some t) f definition? ∈ visits → t.kind.isComposite →
    f.selectionSet = some set → ∃ u, s.resultType? definition? = some u ∧ u.kind.isComposite
  inline : ∀ t i, .inline (some t) i ∈ visits → t.kind.isComposite →
    ∃ u, s.inlineType? (some t) i.condition = some u ∧ u.kind.isComposite

namespace Schema.Descends

variable {s : Schema} {visits : List Visit}

mutual

private theorem placed_visitSet (h : s.Descends visits) {t : TypeDefinition} (ht : t.kind.isComposite) :
    (set : SelectionSet) → s.visitSet (some t) set ⊆ visits → ∀ v ∈ s.visitSet (some t) set, v.Placed
  | ⟨selections, span⟩, hsub, v, hv => by
    rw [visitSet] at hsub hv
    rcases List.mem_cons.1 hv with rfl | hv
    · exact ⟨t, rfl, ht⟩
    · exact placed_visitSelections h ht selections (List.Subset.trans (List.subset_cons_self ..) hsub) v hv

private theorem placed_visitSelections (h : s.Descends visits) {t : TypeDefinition} (ht : t.kind.isComposite) :
    (selections : List Selection) → s.visitSelections (some t) selections ⊆ visits →
      ∀ v ∈ s.visitSelections (some t) selections, v.Placed
  | [], _, v, hv => nomatch hv
  | selection :: rest, hsub, v, hv => by
    rw [visitSelections] at hsub hv
    obtain ⟨hselection, hrest⟩ := List.append_subset.1 hsub
    rcases List.mem_append.1 hv with hv | hv
    · exact placed_visitSelection h ht selection hselection v hv
    · exact placed_visitSelections h ht rest hrest v hv

private theorem placed_visitSelection (h : s.Descends visits) {t : TypeDefinition} (ht : t.kind.isComposite) :
    (selection : Selection) → s.visitSelection (some t) selection ⊆ visits →
      ∀ v ∈ s.visitSelection (some t) selection, v.Placed
  | .field ⟨aliasName, name, arguments, directives, none, span⟩, hsub, v, hv => by
    rw [visitSelection] at hv
    rcases List.mem_cons.1 hv with rfl | hv
    · exact ⟨t, rfl, ht⟩
    · obtain rfl := List.mem_singleton.1 hv
      trivial
  | .field ⟨aliasName, name, arguments, directives, some set, span⟩, hsub, v, hv => by
    rw [visitSelection] at hsub hv
    obtain ⟨hfield, hsub⟩ := List.cons_subset.1 hsub
    -- the selections of the field stand on the type of its results
    obtain ⟨u, hu, hcomposite⟩ := h.field t _ _ set hfield ht rfl
    rw [hu] at hsub hv
    rcases List.mem_cons.1 hv with rfl | hv
    · exact ⟨t, rfl, ht⟩
    · rcases List.mem_cons.1 hv with rfl | hv
      · trivial
      · exact placed_visitSet h hcomposite set (List.cons_subset.1 hsub).2 v hv
  | .spread spread, hsub, v, hv => by
    rw [visitSelection] at hv
    rcases List.mem_cons.1 hv with rfl | hv
    · exact ⟨t, rfl, ht⟩
    · obtain rfl := List.mem_singleton.1 hv
      trivial
  | .inline ⟨condition, directives, set, span⟩, hsub, v, hv => by
    rw [visitSelection] at hsub hv
    obtain ⟨hinline, hsub⟩ := List.cons_subset.1 hsub
    obtain ⟨u, hu, hcomposite⟩ := h.inline t _ hinline ht
    rw [hu] at hsub hv
    rcases List.mem_cons.1 hv with rfl | hv
    · exact ⟨t, rfl, ht⟩
    · rcases List.mem_cons.1 hv with rfl | hv
      · trivial
      · exact placed_visitSet h hcomposite set (List.cons_subset.1 hsub).2 v hv

end

/-- Where all definitions begin at known types with fields, every visit stands on such a type. -/
theorem placed {d : Document} (h : s.Descends (s.visits d))
    (hdefinitions : ∀ definition ∈ d.definitions, ∃ t, s.definitionType? definition = some t ∧ t.kind.isComposite)
    {v : Visit} (hv : v ∈ s.visits d) : v.Placed := by
  obtain ⟨definition, hdefinition, hv⟩ := List.mem_flatMap.1 hv
  rcases s.isPlain_or_mem_visitSet hv with hplain | hv
  · exact .of_isPlain hplain
  · obtain ⟨t, ht, hcomposite⟩ := hdefinitions definition hdefinition
    have hsub := List.Subset.trans (s.visitSet_subset_visitDefinition definition)
      (s.visitDefinition_subset_visits hdefinition)
    rw [ht] at hsub hv
    exact h.placed_visitSet hcomposite _ hsub v hv

end Schema.Descends

private theorem Schema.descends_of_eq_nil {documents : List SchemaDocument} {s : Schema} {d : Document}
    (hs : build documents = .ok s) (hleaf : leafFieldSelections s d = []) (hfields : unknownField s d = [])
    (htypes : knownTypeNames s d = []) (hconditions : fragmentOnCompositeType s d = []) :
    s.Descends (s.visits d) where
  field t f definition? set hf ht hset := by
    obtain ⟨definition, rfl⟩ := exists_field_of_unknownField hfields hf ht
    have hmeans : s.field? t.name.value f.name.value = some definition := ((s.closedIn_visits hf).1).symm
    obtain ⟨u, hu, houtput⟩ := exists_resultType hs hmeans
    exact ⟨u, hu, (isSome_selectionSet_iff hleaf hf hu houtput).1 (by simp [hset])⟩
  inline t i hi ht := exists_inlineType htypes hconditions hi ht

/-- A parsed document in which no rule finds anything is well typed for a schema that was built. -/
theorem Document.wellTyped_of_validate_eq_nil {documents : List SchemaDocument} {s : Schema} {source : String}
    {d : Document} (hs : Schema.build documents = .ok s) (hd : Document.parse source = .ok d)
    (h : Validator.standard.validate s d = []) : d.WellTyped s := by
  have hrule (rule : Rule) (hrule : rule ∈ Rule.documentRules) : rule.check s d = [] :=
    Validator.validate_eq_nil_iff.1 h rule hrule
  have hfields : unknownField s d = [] := hrule .unknownField (by decide)
  have hleaf : leafFieldSelections s d = [] := hrule .leafFieldSelections (by decide)
  have htypes : knownTypeNames s d = [] := hrule .knownTypeNames (by decide)
  have hconditions : fragmentOnCompositeType s d = [] := hrule .fragmentOnCompositeType (by decide)
  have hoperations : knownOperationType s d = [] := hrule .knownOperationType (by decide)
  have harguments : knownArgumentNames s d = [] := hrule .knownArgumentNames (by decide)
  have hrequired : requiredArguments s d = [] := hrule .requiredArguments (by decide)
  -- each rule may leave a case to another one, so the types come first, from all the rules about them
  have hdescends := Schema.descends_of_eq_nil hs hleaf hfields htypes hconditions
  have hplaced : ∀ v ∈ s.visits d, v.Placed := fun v hv =>
    hdescends.placed (fun _ => exists_definitionType hs hoperations htypes hconditions) hv
  constructor
  case placed => exact hplaced
  case fields =>
    intro parent f definition? hf
    obtain ⟨t, rfl, ht⟩ := hplaced _ hf
    obtain ⟨definition, rfl⟩ := exists_field_of_unknownField hfields hf ht
    have hmeans : s.field? t.name.value f.name.value = some definition := ((s.closedIn_visits hf).1).symm
    obtain ⟨u, hu, houtput⟩ := Schema.exists_resultType hs hmeans
    exact ⟨t, definition, rfl, hmeans, rfl,
      ⟨u, hu, isSome_selectionSet_iff hleaf hf hu houtput⟩, argumentsFit_of_field harguments hrequired hf⟩
  case spreads =>
    exact fun _ _ hspread => exists_fragment_of_knownFragmentNames (hrule .knownFragmentNames (by decide)) hspread
  case acyclic =>
    exact not_transGen_spreads_self (List.map_eq_nil_iff.1 (hrule .fragmentCycle (by decide)))
  case directives =>
    exact fun _ _ huses => directivesFit_of_eq_nil (hrule .knownDirectives (by decide))
      (hrule .directiveLocation (by decide)) harguments hrequired huses
  case declared =>
    intro o ho use huse
    obtain ⟨ts, rest, -, hparse⟩ := Document.parse_sound hd
    obtain ⟨x, hx, rfl⟩ := huse.exists_occurrence hparse.fits ho s
    exact contains_of_undefinedVariable (hrule .undefinedVariable (by decide)) ho hx

set_option maxRecDepth 20000 in
/-- An accepted document that passes a variable to a field and selects from its results. -/
theorem Document.wellTyped_of_nested_field :
    ∃ document s d,
      SchemaDocument.parse "type Query \x7b user(id: ID!): User \x7d type User \x7b name: String \x7d" =
        .ok document ∧
      Schema.build [document] = .ok s ∧
      Document.parse "query Q($id: ID!) \x7b user(id: $id) \x7b name @include(if: true) \x7d \x7d" = .ok d ∧
      Validator.standard.validate s d = [] ∧ d.WellTyped s := by
  obtain ⟨document, s, d, hdocument, hs, hd, hclear⟩ :
      ∃ document s d,
        SchemaDocument.parse "type Query \x7b user(id: ID!): User \x7d type User \x7b name: String \x7d" =
          .ok document ∧
        Schema.build [document] = .ok s ∧
        Document.parse "query Q($id: ID!) \x7b user(id: $id) \x7b name @include(if: true) \x7d \x7d" = .ok d ∧
        d.isClear s :=
    Schema.exists_of_run String.toList_ofList String.toList_ofList String.toList_ofList (by decide +kernel)
  have hvalidate := validate_of_isClear hclear
  exact ⟨document, s, d, hdocument, hs, hd, hvalidate, wellTyped_of_validate_eq_nil hs hd hvalidate⟩

end GraphQL
