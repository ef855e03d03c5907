import GraphQL.Proofs.FieldMerging
import GraphQL.Proofs.NamedOrder
import GraphQL.Proofs.SpreadCycles
import GraphQL.Validation.Validator

/-!
# The order of definitions

Some rules carry what they have seen from one definition of a document to the next, so that what they report depends
on the order of the definitions. Whether they report anything does not: no two fragments of a document without
diagnostics have one name, and then no fragment spreads itself, no two fields conflict and no variable is used wrongly
in whatever order the definitions stand (`Rule.check_eq_nil_of_reordered`, `Validator.validate_eq_nil_iff_of_perm`).
-/

namespace GraphQL

/-- The fragments that are reached only depend on what each name stands for. -/
private theorem reachedFrom_congr {fs gs : List Fragment} (h : Named.Agree fs gs) (names : List String) :
    reachedFrom fs names = reachedFrom gs names := by
  induction fs, names using reachedFrom.induct generalizing gs with
  | case1 fs => rw [reachedFrom, reachedFrom]
  | case2 fs name names hnone ih =>
    rw [reachedFrom_cons_of_none hnone, reachedFrom_cons_of_none ((h name).symm.trans hnone), ih h]
  | case3 fs name names f hf ih =>
    rw [reachedFrom_cons_of_some hf, reachedFrom_cons_of_some ((h name).symm.trans hf), ih (h.without name)]

private theorem Schema.expand_congr {s : Schema} {fs gs : List Fragment} (h : Named.Agree fs gs)
    (items : List TopItem) : s.expand fs items = s.expand gs items := by
  induction fs, items using expand.induct s generalizing gs with
  | case1 fs => rw [expand, expand]
  | case2 fs placed items ih => rw [expand, expand, ih h]
  | case3 fs name items hnone ih =>
    rw [expand_spread_of_none hnone, expand_spread_of_none ((h name).symm.trans hnone), ih h]
  | case4 fs name items f hf ih =>
    rw [expand_spread_of_some hf, expand_spread_of_some ((h name).symm.trans hf), ih (h.without name)]

/-- The documents have the same definitions, and mean the same fragments. -/
structure Document.Reordered (d d' : Document) : Prop where
  definitions : d.definitions.Perm d'.definitions
  fragments : Named.Agree d.fragments d'.fragments

namespace Document.Reordered

variable {d d' : Document}

/-- Permuted definitions mean the same fragments when no two fragments share a name. -/
private theorem of_perm (h : d.definitions.Perm d'.definitions) (hfragments : (Named.names d.fragments).Nodup) :
    d.Reordered d' :=
  ⟨h, .of_perm (h.filterMap _) hfragments⟩

private theorem symm (h : d.Reordered d') : d'.Reordered d := ⟨h.definitions.symm, fun name => (h.fragments name).symm⟩

private theorem operations (h : d.Reordered d') : d.operations.Perm d'.operations := h.definitions.filterMap _

private theorem visits (h : d.Reordered d') (s : Schema) :
    (s.visits d).Perm (s.visits d') := h.definitions.flatMap_right _

private theorem selections (h : d.Reordered d') : d.selections.Perm d'.selections := h.definitions.flatMap_right _

private theorem fragment? (h : d.Reordered d') (name : String) :
    d.fragment? name = d'.fragment? name := h.fragments name

/-- A selection set selects the same fields in both documents. -/
private theorem topFields (h : d.Reordered d') (s : Schema) (parent : Option TypeDefinition) (set : SelectionSet) :
    s.topFields d parent set = s.topFields d' parent set := Schema.expand_congr h.fragments _

private theorem reachedBy (h : d.Reordered d') (o : Operation) : d.reachedBy o = d'.reachedBy o :=
  reachedFrom_congr h.fragments _

private theorem operationOccurrences (h : d.Reordered d') (s : Schema) (o : Operation) :
    GraphQL.operationOccurrences s d o = GraphQL.operationOccurrences s d' o := by
  rw [GraphQL.operationOccurrences, GraphQL.operationOccurrences, h.reachedBy]

private theorem spreads (h : d.Reordered d') : d.Spreads = d'.Spreads := by
  funext name other
  simp only [Spreads, h.fragment?]

end Document.Reordered

section
variable {s : Schema} {d d' : Document}

/-- Fields that conflict in one order of the definitions conflict in the other. -/
private theorem Conflict.of_reordered (h : d.Reordered d') {a b : PlacedField} {exclusive : Bool}
    (hconflict : Conflict s d a b exclusive) : Conflict s d' a b exclusive := by
  induction hconflict with
  | fields hexclusive hname => exact .fields hexclusive hname
  | arguments hexclusive harguments => exact .arguments hexclusive harguments
  | types hf hg htypes => exact .types hf hg htypes
  | subfields hx hy hp hq hne hkey _ ih =>
    rw [PlacedField.topFields, h.topFields] at hp hq
    exact .subfields hx hy hp hq hne hkey ih

private theorem CollectedTogether.of_reordered (h : d.Reordered d') {a b : PlacedField}
    (hcollected : CollectedTogether s d a b) : CollectedTogether s d' a b := by
  obtain ⟨parent, set, hset, ha, hb, hkey⟩ := hcollected
  rw [h.topFields] at ha hb
  exact ⟨parent, set, (h.visits s).subset hset, ha, hb, hkey⟩

end

/-- What the comparison of fields asks of a document does not depend on the order of its definitions. -/
private theorem Document.Orderly.of_perm {d d' : Document} (hd : d.Orderly) (h : d.selections.Perm d'.selections) :
    d'.Orderly where
  starts := ((h.filterMap _).map _).nodup_iff.1 hd.starts
  distinct f hf := hd.distinct f ((h.filterMap _).symm.subset hf)

mutual

/-- A value in which no field name is reported as repeated repeats none. -/
theorem Value.distinct_of_repeatedFields : (v : Value) → v.repeatedFields = [] → v.Distinct
  | .list items span, h, fields, span', hmem => by
    rcases List.mem_cons.1 hmem with heq | hmem
    · cases heq
    · obtain ⟨v, hv, hmem⟩ := Value.mem_allOfItems.1 hmem
      exact distinct_of_repeatedFieldsOfItems items h v hv fields span' hmem
  | .object fields span, h, fields', span', hmem => by
    rw [Value.repeatedFields, List.append_eq_nil_iff] at h
    rcases List.mem_cons.1 hmem with heq | hmem
    · obtain ⟨rfl, -⟩ := Value.object.inj heq
      exact repeatFindings_eq_nil_iff.1 h.1
    · obtain ⟨f, hf, hmem⟩ := Value.mem_allOfFields.1 hmem
      exact distinct_of_repeatedFieldsOfFields fields h.2 f hf fields' span' hmem
  | .var _, _, _, _, hmem | .int .., _, _, _, hmem | .float .., _, _, _, hmem | .string _, _, _, _, hmem
  | .boolean .., _, _, _, hmem | .null _, _, _, _, hmem | .enum .., _, _, _, hmem => nomatch List.mem_singleton.1 hmem

private theorem distinct_of_repeatedFieldsOfItems :
    (vs : List Value) → repeatedFieldsOfItems vs = [] → ∀ v ∈ vs, v.Distinct
  | [], _ => nofun
  | v :: vs, h => by
    rw [repeatedFieldsOfItems, List.append_eq_nil_iff] at h
    exact List.forall_mem_cons.2
      ⟨Value.distinct_of_repeatedFields v h.1, distinct_of_repeatedFieldsOfItems vs h.2⟩

private theorem distinct_of_repeatedFieldsOfFields : (fs : List ObjectField) → repeatedFieldsOfFields fs = [] →
    ∀ f ∈ fs, f.value.Distinct
  | [], _ => nofun
  | ⟨_, v, _⟩ :: fs, h => by
    rw [repeatedFieldsOfFields, List.append_eq_nil_iff] at h
    exact List.forall_mem_cons.2
      ⟨Value.distinct_of_repeatedFields v h.1, distinct_of_repeatedFieldsOfFields fs h.2⟩

end

/-- Where the two rules on repeated names are silent, no argument list and no input object repeats a name. -/
private theorem Document.fieldsDistinct_of_eq_nil {s : Schema} {d : Document}
    (harguments : uniqueArgumentNames s d = [])
    (hinputs : uniqueInputFieldNames s d = []) : d.FieldsDistinct := by
  intro f hf
  rw [← s.visits_selections, List.filterMap_filterMap] at hf
  obtain ⟨v, hv, hvisit⟩ := List.mem_filterMap.1 hf
  cases v with
  | field parent g definition =>
    obtain rfl : g = f := Option.some.inj hvisit
    have hlists := List.flatMap_eq_nil_iff.1 harguments _ hv
    have hvalues := List.flatMap_eq_nil_iff.1 hinputs _ hv
    refine ⟨repeatFindings_eq_nil_iff.1 (List.flatMap_eq_nil_iff.1 hlists _ (List.mem_singleton_self _)), ?_⟩
    intro a ha
    have hmem : a.value ∈ (Visit.field parent g definition).values := by
      simpa [Visit.values, Visit.argumentLists] using ⟨a, ha, rfl⟩
    exact Value.distinct_of_repeatedFields _ (List.flatMap_eq_nil_iff.1 hvalues _ hmem)
  | _ => cases hvisit

section
variable {s : Schema} {d d' : Document}

/-- Whether names are repeated does not depend on their order, though which of them is reported does. -/
private theorem repeatFindings_eq_nil_of_perm {α : Type} [Named α] {rule : Rule} {message : String → String}
    {xs ys : List α}
    (h : xs.Perm ys) (hxs : repeatFindings rule message xs = []) : repeatFindings rule message ys = [] :=
  repeatFindings_eq_nil_iff.2 ((h.map Named.nameOf).nodup_iff.1 (repeatFindings_eq_nil_iff.1 hxs))

private theorem loneAnonymousOperation_eq_nil_of_perm (h : d.operations.Perm d'.operations)
    (hnil : loneAnonymousOperation d = []) : loneAnonymousOperation d' = [] := by
  have hanonymous := h.filter (·.name.isNone)
  simp only [loneAnonymousOperation] at hnil ⊢
  rw [← h.length_eq, ← hanonymous.isEmpty_eq]
  split at hnil
  · rename_i hfew
    rw [if_pos hfew]
  · cases hnil

private theorem unusedFragment_eq_nil_of_reordered (h : d.Reordered d') (hnil : unusedFragment d = []) :
    unusedFragment d' = [] := by
  rw [unusedFragment, List.map_eq_nil_iff, Document.unusedFragments, List.filter_eq_nil_iff] at hnil ⊢
  intro f hf
  have hreached : (d.operations.flatMap d.reachedBy).Perm (d'.operations.flatMap d'.reachedBy) := by
    rw [show d'.reachedBy = d.reachedBy from funext fun o => (h.reachedBy o).symm]
    exact h.operations.flatMap_right _
  have hused := hnil f ((h.definitions.filterMap _).symm.subset hf)
  simp only [Named.contains, Bool.not_eq_true', Bool.not_eq_false, List.any_eq_true] at hused ⊢
  obtain ⟨g, hg, hname⟩ := hused
  exact ⟨g, hreached.subset hg, hname⟩

private theorem fragmentCycle_eq_nil_of_reordered (h : d.Reordered d') (hnil : fragmentCycle d = []) :
    fragmentCycle d' = [] := by
  rw [fragmentCycle, List.map_eq_nil_iff, Document.fragmentCycles_eq_nil_iff] at hnil ⊢
  rwa [← h.spreads]

private theorem fieldMerging_eq_nil_of_reordered (h : d.Reordered d') (h' : d'.Reordered d) (hd : d.Orderly)
    (hnil : fieldMerging s d = []) : fieldMerging s d' = [] := by
  rw [fieldMerging_eq_nil_iff hd] at hnil
  rw [fieldMerging_eq_nil_iff (hd.of_perm h.selections)]
  exact fun a b hcollected hne hconflict =>
    hnil a b (hcollected.of_reordered h') hne (hconflict.of_reordered h')

end

/-- A rule that reports nothing in one order of the definitions reports nothing in another. -/
theorem Rule.check_eq_nil_of_reordered {rule : Rule} {s : Schema} {d d' : Document} (h : d.Reordered d')
    (hd : d.Orderly) (hnil : rule.check s d = []) : rule.check s d' = [] := by
  have hfragment : d'.fragment? = d.fragment? := funext fun name => (h.fragment? name).symm
  have htopFields : s.topFields d' = s.topFields d := by
    funext parent set
    exact (h.topFields s parent set).symm
  have hoccurrences : operationOccurrences s d' = operationOccurrences s d := funext fun o =>
    (h.operationOccurrences s o).symm
  cases rule with
  | syntaxRule | schemaBuild | missingSchema => rfl
  -- definitions by their names
  | uniqueOperationNames => exact repeatFindings_eq_nil_of_perm (h.operations.filterMap _) hnil
  | uniqueFragmentNames => exact repeatFindings_eq_nil_of_perm ((h.definitions.filterMap _).map _) hnil
  | loneAnonymousOperation => exact loneAnonymousOperation_eq_nil_of_perm h.operations hnil
  -- fragments by their spreads
  | unusedFragment => exact unusedFragment_eq_nil_of_reordered h hnil
  | fragmentCycle => exact fragmentCycle_eq_nil_of_reordered h hnil
  | fieldMerging => exact fieldMerging_eq_nil_of_reordered h h.symm hd hnil
  -- operations, one after the other
  | knownOperationType =>
    exact List.map_eq_nil_iff.2 (((h.operations.filter _).symm.trans (.of_eq (List.map_eq_nil_iff.1 hnil))).eq_nil)
  | singleFieldSubscriptions =>
    refine flatMap_eq_nil_of_perm (h.operations.filter _) (funext fun o => ?_) hnil
    rw [subscriptionFindings, subscriptionFindings, htopFields]
  | uniqueVariableNames | variablesAreInputTypes => exact flatMap_eq_nil_of_perm h.operations rfl hnil
  | undefinedVariable | unusedVariable | variableUsage =>
    exact flatMap_eq_nil_of_perm h.operations (funext fun o => by rw [hoccurrences]) hnil
  -- visits, one after the other
  | knownFragmentNames | possibleFragmentSpread =>
    exact flatMap_eq_nil_of_perm (h.visits s) (funext fun v => by rw [hfragment]) hnil
  | unknownField | knownArgumentNames | uniqueArgumentNames | requiredArguments | valueType | uniqueInputFieldNames
  | knownTypeNames | fragmentOnCompositeType | knownDirectives | directiveLocation | uniqueDirectivesPerLocation
  | leafFieldSelections => exact flatMap_eq_nil_of_perm (h.visits s) rfl hnil

namespace Validator

/-- A document is accepted in another order of its definitions, if no two of its fields start at one place. -/
theorem validate_eq_nil_of_perm {s : Schema} {d d' : Document} (hstarts : d.fieldStarts.Nodup)
    (hperm : d.definitions.Perm d'.definitions) (h : standard.validate s d = []) : standard.validate s d' = [] := by
  rw [validate_eq_nil_iff] at h ⊢
  have hfragments : (Named.names d.fragments).Nodup := by
    have hnames := repeatFindings_eq_nil_iff.1 (h .uniqueFragmentNames (by decide))
    rwa [Named.names, List.map_map] at hnames
  have hdistinct : d.FieldsDistinct := Document.fieldsDistinct_of_eq_nil (h .uniqueArgumentNames (by decide))
    (h .uniqueInputFieldNames (by decide))
  exact fun rule hrule =>
    Rule.check_eq_nil_of_reordered (.of_perm hperm hfragments) ⟨hstarts, hdistinct⟩ (h rule hrule)

/-- Whether a parsed document is accepted does not depend on the order of its definitions. -/
theorem validate_eq_nil_iff_of_perm {source : String} {d d' : Document} (h : Document.parse source = .ok d)
    (hperm : d.definitions.Perm d'.definitions) (s : Schema) :
    standard.validate s d = [] ↔ standard.validate s d' = [] := by
  have hstarts := Document.fieldStarts_nodup h
  have hfields : d.fieldStarts.Perm d'.fieldStarts := ((hperm.flatMap_right _).filterMap _).map _
  exact ⟨validate_eq_nil_of_perm hstarts hperm, validate_eq_nil_of_perm (hfields.nodup_iff.1 hstarts) hperm.symm⟩

theorem validate_eq_nil_iff_of_reverse : ∃ d,
    Document.parse "\x7b ...F \x7d fragment F on Query \x7b a \x7d query Q \x7b a \x7d" = .ok d ∧
    d.definitions.Perm d.definitions.reverse ∧
    (standard.validate ⟨[], [], "Query", none, none⟩ d = [] ↔
      standard.validate ⟨[], [], "Query", none, none⟩ ⟨d.definitions.reverse, d.span⟩ = []) := by
  obtain ⟨text, htext, hparse⟩ : ∃ text,
      "\x7b ...F \x7d fragment F on Query \x7b a \x7d query Q \x7b a \x7d".toList = text ∧
      (Parse.document.run (lexChars text)).toOption.isSome :=
    ⟨_, String.toList_ofList, by decide +kernel⟩
  rw [← Document.parse_eq htext] at hparse
  cases hd : Document.parse _ with
  | error cause => simp [hd, Except.toOption] at hparse
  | ok d =>
    have hperm : d.definitions.Perm d.definitions.reverse := (List.reverse_perm _).symm
    exact ⟨d, rfl, hperm, validate_eq_nil_iff_of_perm hd hperm _⟩

end Validator

end GraphQL
