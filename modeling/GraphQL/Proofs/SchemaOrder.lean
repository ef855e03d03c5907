import GraphQL.Proofs.DirectiveUses
import GraphQL.Proofs.DraftOrder
import GraphQL.Proofs.InputCycles
import Mathlib.Data.List.Nodup

/-!
# The order of a schema's definitions

The checks of a draft look types and directives up by name and go through everything that is defined, so that nothing
but the order of what they report depends on the order of the definitions (`Draft.Reordered.faultFree`). Documents
with the same definitions in another order, where the extensions of each single type keep theirs, hence give schemas
that answer alike, or none (`Schema.build_of_reordered`).
-/

namespace GraphQL

open Named

section
variable {types types' : List TypeDefinition}

private theorem fieldTypeFaults_congr (h : Agree types types') (parent : String) (f : FieldDefinition) :
    fieldTypeFaults types parent f = fieldTypeFaults types' parent f := by
  simp only [fieldTypeFaults, outputTypeFaults, parameterTypeFaults, inputTypeFaults, h _]

/-- Whether a type is a subtype depends on what each name means, not on the order of the types. -/
private theorem isSubtype_congr (h : Agree types types') (a b : TypeRef) :
    isSubtype types a b = isSubtype types' a b := by
  induction a generalizing b with
  | named a n span => cases b <;> simp only [isSubtype, isPossibleType, h _]
  | list a n span ih => cases b <;> simp only [isSubtype, ih]

private theorem TypeDefinition.conforms_congr (h : Agree types types') {t : TypeDefinition} :
    t.Conforms types ↔ t.Conforms types' := by
  simp only [Conforms, conformsTo_iff, interfaceFieldFaults, fieldConformanceFaults, isSubtype_congr h, h _]

/-- The search for cycles of input objects looks types up by name alone. -/
private theorem requiredChain?_congr {goal : String} (types types' : List TypeDefinition) (h : Agree types types')
    (t : TypeDefinition) : requiredChain? goal types t = requiredChain? goal types' t := by
  rw [requiredChain?_eq, requiredChain?_eq]
  refine congrArg (List.findSome? · _) (funext fun f => ?_)
  refine congrArg (Option.bind _) (funext fun target => ?_)
  rw [h target]
  cases hnext : find? types' target with
  | none => rfl
  | some next =>
    have := length_without_lt (h target ▸ hnext)
    simp only [Option.bind_some, requiredChain?_congr _ _ (h.without target) next]
termination_by types.length

/-- A type without a fault has none in another order of the types. -/
private theorem Draft.typeFaults_of_agree (h : Agree types types') {t : TypeDefinition}
    (hnil : typeFaults types t = []) :
    typeFaults types' t = [] := by
  rw [typeFaults_eq_nil_iff] at hnil
  rw [typeFaults_eq_nil_iff, ← TypeDefinition.conforms_congr h]
  simpa only [fieldTypeFaults_congr h, memberTypeFaults, inputFieldTypeFaults, inputTypeFaults, inputCycleFaults,
    requiredChain?_congr _ _ h, h _] using hnil

end

private theorem Admits.of_reordered {directives directives' : List DirectiveDefinition}
    (h : Agree directives directives')
    {place : DirectiveLocation} {uses uses' : List Directive} (hperm : uses.Perm uses')
    (hadmits : Admits directives place uses) : Admits directives' place uses' where
  allowed use huse := h use.name.value ▸ hadmits.allowed use (hperm.symm.subset huse)
  distinct := by
    have hrepeatable (name : String) : IsRepeatable directives name ↔ IsRepeatable directives' name := by
      rw [IsRepeatable, IsRepeatable, h name]
    have hdistinct := hadmits.distinct
    simp only [hrepeatable] at hdistinct
    refine (hperm.pairwise_iff ?_).1 hdistinct
    intro a b hab hname
    exact hname ▸ hab hname.symm

namespace Draft

/-- The drafts hold the same in another order, and no two types, directives or roots are for one thing. -/
structure Reordered (d e : Draft) : Prop where
  types : d.types.Perm e.types
  typeNames : (names d.types).Nodup
  directives : d.directives.Perm e.directives
  directiveNames : (names d.directives).Nodup
  schemaSpan : d.schemaSpan.isSome = e.schemaSpan.isSome
  schemaDirectives : d.schemaDirectives.Perm e.schemaDirectives
  roots : d.roots.Perm e.roots
  rootKinds : (d.roots.map (·.kind)).Nodup

namespace Reordered

variable {d e : Draft}

private theorem agree_types (h : d.Reordered e) : Agree d.types e.types := .of_perm h.types h.typeNames

private theorem agree_directives (h : d.Reordered e) : Agree d.directives e.directives :=
  .of_perm h.directives h.directiveNames

/-- The root operations are those by default, or those that are declared. -/
theorem rootOperations_cases (h : d.Reordered e) : d.rootOperations = e.rootOperations ∨
    (d.rootOperations = d.roots ∧ e.rootOperations = e.roots) := by
  have hdescribed : (d.schemaSpan.isNone && d.roots.isEmpty) = (e.schemaSpan.isNone && e.roots.isEmpty) := by
    rw [← Option.not_isSome, ← Option.not_isSome, h.schemaSpan, h.roots.isEmpty_eq]
  simp only [rootOperations, hdescribed, h.agree_types _]
  split
  · exact .inl rfl
  · exact .inr ⟨rfl, rfl⟩

private theorem rootOperations (h : d.Reordered e) : d.rootOperations.Perm e.rootOperations := by
  rcases h.rootOperations_cases with heq | ⟨hd, he⟩
  · exact .of_eq heq
  · exact hd ▸ he ▸ h.roots

/-- Drafts in another order have the same root types. -/
private theorem rootName? (h : d.Reordered e) (kind : OperationKind) : d.rootName? kind = e.rootName? kind := by
  have hfind : d.rootOperations.find? (·.kind = kind) = e.rootOperations.find? (·.kind = kind) := by
    rcases h.rootOperations_cases with heq | ⟨hd, he⟩
    · rw [heq]
    · rw [hd, he]
      refine find?_eq_of_perm h.roots fun a ha b hb hkind hkind' => ?_
      refine List.inj_on_of_nodup_map h.rootKinds ha hb ?_
      rw [of_decide_eq_true hkind, of_decide_eq_true hkind']
  simp only [Draft.rootName?, hfind, h.agree_types _]

/-! ### The checks of a draft -/

private theorem emptyFaults (h : d.Reordered e) (hnil : d.emptyFaults = []) : e.emptyFaults = [] := by
  rw [Draft.emptyFaults, List.map_eq_nil_iff] at hnil ⊢
  exact ((h.types.filter _).symm.trans (.of_eq hnil)).eq_nil

private theorem rootFaults (h : d.Reordered e) (hnil : d.rootFaults = []) : e.rootFaults = [] := by
  obtain ⟨hroots, hquery⟩ := List.append_eq_nil_iff.1 hnil
  refine List.append_eq_nil_iff.2 ⟨flatMap_eq_nil_of_perm h.rootOperations ?_ hroots, ?_⟩
  · simp only [h.agree_types _]
  · rw [← h.rootName?, ← h.roots.any_eq, ← h.agree_types.contains]
    exact hquery

private theorem directiveTypeFaults (h : d.Reordered e) (hnil : d.directiveTypeFaults = []) :
    e.directiveTypeFaults = [] := by
  refine flatMap_eq_nil_of_perm (h.directives.filter _) ?_ hnil
  simp only [parameterTypeFaults, inputTypeFaults, h.agree_types _]

private theorem directiveUseFaults (h : d.Reordered e)
    (hnil : GraphQL.directiveUseFaults d.schemaDirectives d.types d.directives = []) :
    GraphQL.directiveUseFaults e.schemaDirectives e.types e.directives = [] := by
  rw [GraphQL.directiveUseFaults, usesFaults_eq_nil_iff] at hnil ⊢
  intro place list hlist
  rw [List.cons_append] at hnil hlist
  rcases List.mem_cons.1 hlist with heq | hlist
  · obtain ⟨rfl, rfl⟩ := Prod.mk.inj heq
    exact (hnil _ _ (List.mem_cons_self ..)).of_reordered h.agree_directives h.schemaDirectives
  · have hothers := ((h.types.filter fun t => !t.isBuiltin).flatMap_right (·.uses)).append
      (h.directives.flatMap_right fun x => parameterUses x.arguments)
    have hadmits := hnil place list (List.mem_cons_of_mem _ (hothers.symm.subset hlist))
    exact hadmits.of_reordered h.agree_directives (.refl list)

theorem faultFree (h : d.Reordered e) (hfree : d.FaultFree) (hown : e.faults = []) : e.FaultFree where
  own := hown
  empty := h.emptyFaults hfree.empty
  roots := h.rootFaults hfree.roots
  types t ht := typeFaults_of_agree h.agree_types (hfree.types t (h.types.symm.subset ht))
  directiveTypes := h.directiveTypeFaults hfree.directiveTypes
  uses := h.directiveUseFaults hfree.uses

end Reordered

/-- Extensions change nothing but the types. -/
theorem exists_extended_eq (d : Draft) :
    ∃ types faults, d.extended = { d with types, faults, extensions := [] } := by
  have hfold (extensions : List TypeDefinition) (e : Draft) :
      ∃ types faults, extensions.foldl extendType e = { e with types, faults } := by
    induction extensions generalizing e with
    | nil => exact ⟨e.types, e.faults, rfl⟩
    | cons x extensions ih =>
      have hstep : ∃ types faults, e.extendType x = { e with types, faults } := by
        simp only [extendType]
        split
        · exact ⟨_, _, rfl⟩
        · split
          · exact ⟨_, _, rfl⟩
          · exact ⟨_, _, rfl⟩
      obtain ⟨types, faults, hstep⟩ := hstep
      obtain ⟨types', faults', hrest⟩ := ih (e.extendType x)
      exact ⟨types', faults', by rw [List.foldl_cons, hrest, hstep]⟩
  obtain ⟨types, faults, h⟩ := hfold d.extensions { d with extensions := [] }
  exact ⟨types, faults, h⟩

/-- Drafts in another order, whose extensions of each type are in the same order, are so with their extensions. -/
theorem Reordered.extended {d e : Draft} (h : d.Reordered e) (hown : e.faults = [])
    (hextensions : ∀ name, d.extensions.filter (·.name.value = name) = e.extensions.filter (·.name.value = name))
    (hfaults : d.extended.faults = []) : d.extended.Reordered e.extended ∧ e.extended.faults = [] := by
  have hnames : (names e.types).Nodup := (h.types.map _).nodup_iff.1 h.typeNames
  have hfaults' : e.extended.faults = [] := by
    obtain ⟨-, hfound, htakes⟩ := (faults_extended_iff h.typeNames).1 hfaults
    refine (faults_extended_iff hnames).2 ⟨hown, fun x hx => ?_, fun t ht => ?_⟩
    · have hmem : x ∈ d.extensions.filter (·.name.value = x.name.value) := by
        rw [hextensions]
        exact List.mem_filter.2 ⟨hx, decide_eq_true rfl⟩
      exact (h.types.map _).subset (hfound x (List.mem_filter.1 hmem).1)
    · rw [← hextensions]
      exact htakes t (h.types.symm.subset ht)
  refine ⟨?_, hfaults'⟩
  have htypes : d.extended.types.Perm e.extended.types := by
    rw [(extended_types h.typeNames hfaults).1, (extended_types hnames hfaults').1]
    have hall : (TypeDefinition.extendAll · d.extensions) = (TypeDefinition.extendAll · e.extensions) := by
      funext t
      rw [TypeDefinition.extendAll, TypeDefinition.extendAll, hextensions]
    rw [hall]
    exact h.types.map _
  have htypeNames : (names d.extended.types).Nodup := names_extended d ▸ h.typeNames
  obtain ⟨types, faults, hd⟩ := d.exists_extended_eq
  obtain ⟨types', faults', he⟩ := e.exists_extended_eq
  rw [hd, he] at htypes ⊢
  rw [hd] at htypeNames
  exact { h with types := htypes, typeNames := htypeNames }

end Draft

/-- The documents hold the same definitions in another order, where the extensions of each type keep theirs. -/
structure SchemaDocument.Reordered (documents documents' : List SchemaDocument) : Prop where
  definitions : (documents.flatMap (·.definitions)).Perm (documents'.flatMap (·.definitions))
  extensions : ∀ name, extensionsOf documents name = extensionsOf documents' name

/-- Permuted definitions say the same, if they fit together. -/
private theorem Draft.gathered_reordered {definitions definitions' : List TypeSystemDefinition}
    (h : definitions.Perm definitions') (hfit : Fit definitions) :
    (gathered definitions).Reordered (gathered definitions') where
  types := ((h.filterMap _).map _).append_left _
  typeNames := names_gathered_types ▸ hfit.typeNames
  directives := ((h.filterMap _).map _).append_left _
  directiveNames := names_gathered_directives ▸ hfit.directiveNames
  schemaSpan := by
    rw [Bool.eq_iff_iff, gathered, gathered, List.findSome?_isSome_iff, List.findSome?_isSome_iff]
    simp only [h.mem_iff]
  schemaDirectives := h.flatMap_right _
  roots := h.flatMap_right _
  rootKinds := hfit.rootKinds

private theorem SchemaDocument.Reordered.symm {documents documents' : List SchemaDocument}
    (h : Reordered documents documents') : Reordered documents' documents :=
  ⟨h.definitions.symm, fun name => (h.extensions name).symm⟩

/-- Documents in another order make a draft in another order. -/
private theorem Draft.ofDocuments_reordered {documents documents' : List SchemaDocument}
    (h : SchemaDocument.Reordered documents documents') (hfaults : (ofDocuments documents).faults = []) :
    (ofDocuments documents).Reordered (ofDocuments documents') ∧ (ofDocuments documents').faults = [] := by
  rw [ofDocuments_eq] at hfaults
  rw [ofDocuments_eq, ofDocuments_eq]
  have hfit := (ofDefinitions_iff _).1.1 hfaults
  have hfit' := hfit.of_perm h.definitions
  rw [(ofDefinitions_iff _).2 hfit, (ofDefinitions_iff _).2 hfit']
  exact ⟨gathered_reordered h.definitions hfit, faults_gathered⟩

namespace Schema

/-- The schemas answer all questions alike; possible types are compared as sets. -/
structure AnswersLike (s s' : Schema) : Prop where
  type : ∀ name, s.type? name = s'.type? name
  directive : ∀ name, s.directive? name = s'.directive? name
  root : ∀ kind, s.rootName? kind = s'.rootName? kind
  field : ∀ type field, s.field? type field = s'.field? type field
  possible : ∀ name candidate, candidate ∈ s.possibleTypes name ↔ candidate ∈ s'.possibleTypes name

private theorem AnswersLike.of_perm {s s' : Schema} (htypes : s.types.Perm s'.types) (hnames : (names s.types).Nodup)
    (hdirectives : Agree s.directives s'.directives) (hroots : ∀ kind, s.rootName? kind = s'.rootName? kind) :
    s.AnswersLike s' := by
  have htype (name : String) : s.type? name = s'.type? name := Agree.of_perm htypes hnames name
  refine ⟨htype, hdirectives, hroots, fun type field => ?_, fun name candidate => ?_⟩
  · have hquery : s.query = s'.query := Option.some.inj (hroots .query)
    simp only [field?, htype, hquery]
  · simp only [possibleTypes, htype]
    split
    · split
      · rfl
      · exact ((htypes.filter _).map _).mem_iff
      · rfl
      · rfl
    · rfl

variable {documents documents' : List SchemaDocument} {s : Schema}

/-- A build that succeeds does so in any other order, with the same answers. -/
private theorem exists_build_of_reordered (h : SchemaDocument.Reordered documents documents')
    (hs : build documents = .ok s) : ∃ s', build documents' = .ok s' ∧ s.AnswersLike s' := by
  obtain ⟨hfaults, query, hquery, rfl⟩ := Draft.build_eq_ok_iff.1 hs
  have hfree := Draft.allFaults_eq_nil_iff.1 hfaults
  have hnames := (Draft.contents_ofDocuments documents).nodup
  obtain ⟨hdrafts, hown⟩ := Draft.ofDocuments_reordered h ((Draft.faults_extended_iff hnames).1 hfree.own).1
  have hextensions (name : String) : (Draft.ofDocuments documents).extensions.filter (·.name.value = name) =
      (Draft.ofDocuments documents').extensions.filter (·.name.value = name) := by
    rw [Draft.extensions_ofDocuments, Draft.extensions_ofDocuments]
    exact h.extensions name
  obtain ⟨hextended, hown'⟩ := hdrafts.extended hown hextensions hfree.own
  have hfree' := hextended.faultFree hfree hown'
  refine ⟨_, Draft.build_eq_ok_iff.2 ⟨Draft.allFaults_eq_nil_iff.2 hfree', query, ?_, rfl⟩, ?_⟩
  · exact (hextended.rootName? .query).symm.trans hquery
  · refine .of_perm hextended.types hextended.typeNames hextended.agree_directives fun kind => ?_
    cases kind with
    | query => rfl
    | mutation => exact hextended.rootName? .mutation
    | subscription => exact hextended.rootName? .subscription

/-- Whether documents make a schema does not depend on the order of their definitions, as long as the extensions of
each type keep theirs, and the schema that they make answers all questions alike. -/
theorem build_of_reordered (h : SchemaDocument.Reordered documents documents') :
    ((∃ s, build documents = .ok s) ↔ ∃ s, build documents' = .ok s) ∧
      ∀ s s', build documents = .ok s → build documents' = .ok s' → s.AnswersLike s' := by
  refine ⟨⟨?_, ?_⟩, ?_⟩
  · rintro ⟨s, hs⟩
    obtain ⟨s', hs', -⟩ := exists_build_of_reordered h hs
    exact ⟨s', hs'⟩
  · rintro ⟨s, hs⟩
    obtain ⟨s', hs', -⟩ := exists_build_of_reordered h.symm hs
    exact ⟨s', hs'⟩
  · intro s s' hs hs'
    obtain ⟨s'', hs'', halike⟩ := exists_build_of_reordered h hs
    obtain rfl := Except.ok.inj (hs'.symm.trans hs'')
    exact halike

/-- The extensions of a document may come before all that they extend, in a document of their own. -/
theorem reordered_extensions_first (document : SchemaDocument) : SchemaDocument.Reordered [document]
    [⟨document.definitions.filter (·.extension?.isSome), document.span⟩,
      ⟨document.definitions.filter (!·.extension?.isSome), document.span⟩] where
  definitions := by
    simpa using (List.filter_append_perm (·.extension?.isSome) document.definitions).symm
  extensions name := by
    have hfirst (definitions : List TypeSystemDefinition) :
        (definitions.filter (·.extension?.isSome)).flatMap (·.extension?.toList) =
          definitions.flatMap (·.extension?.toList) := by
      induction definitions with
      | nil => rfl
      | cons x definitions ih => cases hx : x.extension? <;> simp [hx, ih]
    have hlast (definitions : List TypeSystemDefinition) :
        (definitions.filter (!·.extension?.isSome)).flatMap (·.extension?.toList) = [] := by
      simp +contextual [List.mem_filter]
    simp only [extensionsOf, List.flatMap_cons, List.flatMap_nil, SchemaDocument.extensions, hfirst, hlast,
      List.append_nil]

theorem build_of_extension_first : ∃ document s s',
    SchemaDocument.parse
      "interface I \x7b a: ID \x7d type Query implements I \x7b a: ID \x7d union U = Query extend scalar Int @t" =
        .ok document ∧
    SchemaDocument.Reordered [document]
      [⟨document.definitions.filter (·.extension?.isSome), document.span⟩,
        ⟨document.definitions.filter (!·.extension?.isSome), document.span⟩] ∧
    build [document] = .ok s ∧
    build [⟨document.definitions.filter (·.extension?.isSome), document.span⟩,
      ⟨document.definitions.filter (!·.extension?.isSome), document.span⟩] = .ok s' ∧ s.AnswersLike s' := by
  obtain ⟨document, s, hparse, hs, -⟩ := exists_of_extended_scalar
  have h := reordered_extensions_first document
  obtain ⟨s', hs'⟩ := (build_of_reordered h).1.1 ⟨s, hs⟩
  exact ⟨document, s, s', hparse, h, hs, hs', (build_of_reordered h).2 s s' hs hs'⟩

end Schema

end GraphQL
