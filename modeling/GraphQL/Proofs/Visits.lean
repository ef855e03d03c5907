import GraphQL.Proofs.GrammarSound
import GraphQL.Validation.Expansion

/-!
# The selections that a walk visits

A walk over a document visits each of its selections once (`Schema.visits_selections`), with the type that the
selection stands on, and with a visit it goes through everything below it (`Schema.closedIn_visits`). The fields
that a visited selection set selects at its top level are visited as well, however many fragments they stand in
(`Schema.visits_of_mem_topFields`). A visit of a field is known by the first byte of the field
(`Schema.visit_eq_of_offset_eq`), since no two fields of a parsed document start at one place
(`Document.fieldStarts_nodup`).
-/

namespace GraphQL

namespace Document

theorem mem_operations {d : Document} {o : Operation} : o ∈ d.operations ↔ .operation o ∈ d.definitions := by
  rw [operations, List.mem_filterMap]
  constructor
  · rintro ⟨definition, hmem, h⟩
    cases definition with
    | operation => exact Option.some.inj h ▸ hmem
    | fragment => cases h
  · exact fun h => ⟨_, h, rfl⟩

theorem mem_fragments {d : Document} {f : Fragment} : f ∈ d.fragments ↔ .fragment f ∈ d.definitions := by
  rw [fragments, List.mem_filterMap]
  constructor
  · rintro ⟨definition, hmem, h⟩
    cases definition with
    | operation => cases h
    | fragment => exact Option.some.inj h ▸ hmem
  · exact fun h => ⟨_, h, rfl⟩

end Document

/-- The list has everything that a walk goes through from the visit on, and the visit names the field that the
schema means. -/
def Visit.ClosedIn (s : Schema) (visits : List Visit) : Visit → Prop
  | .selectionSet parent set => s.visitSet parent set ⊆ visits
  | .field parent f definition =>
    definition = s.fieldOn? parent f.name.value ∧ s.visitSelection parent (.field f) ⊆ visits
  | .inline parent i => s.visitSelection parent (.inline i) ⊆ visits
  | _ => True

/-- Visits of definitions, of variables and of directives, which have nothing below them. -/
def Visit.IsPlain : Visit → Prop
  | .operation _ | .fragment _ | .variable _ | .directives .. => True
  | _ => False

private theorem Visit.ClosedIn.of_isPlain {s : Schema} {visits : List Visit} {v : Visit} (h : v.IsPlain) :
    v.ClosedIn s visits := by
  cases v with
  | selectionSet | field | spread | inline => exact h.elim
  | _ => trivial

/-- A longer list of visits is closed below the same visits. -/
private theorem Visit.ClosedIn.mono {s : Schema} {visits visits' : List Visit} {v : Visit} (h : v.ClosedIn s visits)
    (hsub : visits ⊆ visits') : v.ClosedIn s visits' := by
  cases v with
  | selectionSet => exact List.Subset.trans h hsub
  | field => exact ⟨h.1, List.Subset.trans h.2 hsub⟩
  | inline => exact List.Subset.trans h hsub
  | _ => trivial

namespace Schema

variable (s : Schema)

mutual

private theorem closedIn_visitSet (parent : Option TypeDefinition) : (set : SelectionSet) →
    ∀ v ∈ s.visitSet parent set, v.ClosedIn s (s.visitSet parent set)
  | ⟨selections, span⟩, v, hv => by
    rw [visitSet] at hv
    rcases List.mem_cons.1 hv with rfl | hv
    · exact List.Subset.refl _
    · exact (closedIn_visitSelections parent selections v hv).mono (List.subset_cons_self ..)

private theorem closedIn_visitSelections (parent : Option TypeDefinition) : (selections : List Selection) →
    ∀ v ∈ s.visitSelections parent selections, v.ClosedIn s (s.visitSelections parent selections)
  | [], v, hv => nomatch hv
  | selection :: rest, v, hv => by
    rw [visitSelections] at hv ⊢
    rcases List.mem_append.1 hv with hv | hv
    · exact (closedIn_visitSelection parent selection v hv).mono (List.subset_append_left ..)
    · exact (closedIn_visitSelections parent rest v hv).mono (List.subset_append_right ..)

private theorem closedIn_visitSelection (parent : Option TypeDefinition) : (selection : Selection) →
    ∀ v ∈ s.visitSelection parent selection, v.ClosedIn s (s.visitSelection parent selection)
  | .field ⟨aliasName, name, arguments, directives, none, span⟩, v, hv => by
    rw [visitSelection] at hv
    rcases List.mem_cons.1 hv with rfl | hv
    · exact ⟨rfl, List.Subset.refl _⟩
    · obtain rfl := List.mem_singleton.1 hv
      trivial
  | .field ⟨aliasName, name, arguments, directives, some set, span⟩, v, hv => by
    rw [visitSelection] at hv
    rcases List.mem_cons.1 hv with rfl | hv
    · exact ⟨rfl, List.Subset.refl _⟩
    · rcases List.mem_cons.1 hv with rfl | hv
      · trivial
      · exact (closedIn_visitSet _ set v hv).mono fun w hw => List.mem_cons_of_mem _ (List.mem_cons_of_mem _ hw)
  | .spread spread, v, hv => by
    rw [visitSelection] at hv
    rcases List.mem_cons.1 hv with rfl | hv
    · trivial
    · obtain rfl := List.mem_singleton.1 hv
      trivial
  | .inline ⟨condition, directives, set, span⟩, v, hv => by
    rw [visitSelection] at hv
    rcases List.mem_cons.1 hv with rfl | hv
    · exact List.Subset.refl _
    · rcases List.mem_cons.1 hv with rfl | hv
      · trivial
      · exact (closedIn_visitSet _ set v hv).mono fun w hw => List.mem_cons_of_mem _ (List.mem_cons_of_mem _ hw)

end

/-- The visit of the selection set of a definition, and all below it, are visits of the definition. -/
theorem visitSet_subset_visitDefinition (definition : Definition) :
    s.visitSet (s.definitionType? definition) definition.selectionSet ⊆ s.visitDefinition definition := by
  cases definition with
  | operation o =>
    intro v hv
    simp only [visitDefinition, List.cons_append, List.mem_cons, List.mem_append]
    exact .inr (.inr (.inr hv))
  | fragment f => exact fun v hv => List.mem_cons_of_mem _ (List.mem_cons_of_mem _ hv)

/-- A walk goes through all definitions. -/
theorem visitDefinition_subset_visits {d : Document} {definition : Definition} (h : definition ∈ d.definitions) :
    s.visitDefinition definition ⊆ s.visits d :=
  fun _ hv => List.mem_flatMap.2 ⟨definition, h, hv⟩

/-- The visits of a definition are of its selection set and all below it, but for the plain ones. -/
theorem isPlain_or_mem_visitSet {definition : Definition} {v : Visit} (h : v ∈ s.visitDefinition definition) :
    v.IsPlain ∨ v ∈ s.visitSet (s.definitionType? definition) definition.selectionSet := by
  cases definition with
  | operation o =>
    simp only [visitDefinition, List.cons_append, List.mem_cons, List.mem_append, List.mem_flatMap] at h
    rcases h with rfl | ⟨w, -, rfl | rfl | hnil⟩ | rfl | h
    · exact .inl trivial
    · exact .inl trivial
    · exact .inl trivial
    · cases hnil
    · exact .inl trivial
    · exact .inr h
  | fragment f =>
    rcases List.mem_cons.1 h with rfl | h
    · exact .inl trivial
    · rcases List.mem_cons.1 h with rfl | h
      · exact .inl trivial
      · exact .inr h

/-- With a visit, a walk goes through everything below it. -/
theorem closedIn_visits {d : Document} {v : Visit} (h : v ∈ s.visits d) : v.ClosedIn s (s.visits d) := by
  obtain ⟨definition, hdefinition, hv⟩ := List.mem_flatMap.1 h
  rcases s.isPlain_or_mem_visitSet hv with hplain | hv
  · exact .of_isPlain hplain
  · exact (closedIn_visitSet s _ _ v hv).mono
      (List.Subset.trans (s.visitSet_subset_visitDefinition definition)
        (s.visitDefinition_subset_visits hdefinition))

variable {s}

/-- Selections beside each other are visited one after the other. -/
theorem visitSelections_eq (parent : Option TypeDefinition) (items : List Selection) :
    s.visitSelections parent items = items.flatMap (s.visitSelection parent) := by
  induction items with
  | nil => rfl
  | cons selection rest ih => rw [visitSelections, List.flatMap_cons, ih]

theorem visitSelection_field (parent : Option TypeDefinition) (f : Field) :
    s.visitSelection parent (.field f) =
      .field parent f (s.fieldOn? parent f.name.value) :: .directives .field f.directives ::
        f.selectionSet.toList.flatMap (s.visitSet (s.resultType? (s.fieldOn? parent f.name.value))) := by
  obtain ⟨_, _, _, _, set, _⟩ := f
  cases set <;> simp [visitSelection]

theorem visitSelection_inline (parent : Option TypeDefinition) (i : InlineFragment) :
    s.visitSelection parent (.inline i) = .inline parent i :: .directives .inlineFragment i.directives ::
      s.visitSet (s.inlineType? parent i.condition) i.selectionSet := by
  obtain ⟨_, _, _, _⟩ := i
  rfl

/-- The selection set of a visited field is visited on the type of the field's results. -/
theorem visits_selectionSet {d : Document} {parent : Option TypeDefinition} {f : Field}
    {definition : Option FieldDefinition} (h : .field parent f definition ∈ s.visits d) {set : SelectionSet}
    (hset : f.selectionSet = some set) : .selectionSet (s.resultType? definition) set ∈ s.visits d := by
  obtain ⟨hdefinition, hsub⟩ := s.closedIn_visits h
  obtain ⟨aliasName, name, arguments, directives, _, span⟩ := f
  obtain rfl : _ = some set := hset
  refine hsub ?_
  rw [visitSelection, hdefinition]
  obtain ⟨selections, span'⟩ := set
  exact List.mem_cons_of_mem _ (List.mem_cons_of_mem _ (List.mem_cons_self ..))

/-! ### Expansions -/

mutual

private theorem visit_of_mem_topItems (parent : Option TypeDefinition) {p : PlacedField} :
    (selections : List Selection) →
    .field p ∈ s.topItems parent selections →
      .field p.parent p.field p.definition ∈ s.visitSelections parent selections
  | [], h => nomatch h
  | selection :: rest, h => by
    rw [topItems] at h
    rw [visitSelections]
    rcases List.mem_append.1 h with h | h
    · exact List.mem_append_left _ (visit_of_mem_topItemsOf parent selection h)
    · exact List.mem_append_right _ (visit_of_mem_topItems parent rest h)

private theorem visit_of_mem_topItemsOf (parent : Option TypeDefinition) {p : PlacedField} : (selection : Selection) →
    .field p ∈ s.topItemsOf parent selection →
      .field p.parent p.field p.definition ∈ s.visitSelection parent selection
  | .field ⟨aliasName, name, arguments, directives, none, span⟩, h => by
    obtain ⟨rfl⟩ := List.mem_singleton.1 h
    exact List.mem_cons_self ..
  | .field ⟨aliasName, name, arguments, directives, some set, span⟩, h => by
    obtain ⟨rfl⟩ := List.mem_singleton.1 h
    exact List.mem_cons_self ..
  | .spread spread, h => nomatch List.mem_singleton.1 h
  | .inline ⟨condition, directives, ⟨selections, span'⟩, span⟩, h => by
    rw [topItemsOf] at h
    rw [visitSelection, visitSet]
    exact List.mem_cons_of_mem _ (List.mem_cons_of_mem _ (List.mem_cons_of_mem _
      (visit_of_mem_topItems _ selections h)))

end

theorem expand_spread_of_none {unentered : List Fragment} {name : String} {items : List TopItem}
    (hf : Named.find? unentered name = none) :
    s.expand unentered (.spread name :: items) = s.expand unentered items := by
  rw [expand]
  split <;> simp_all

theorem expand_spread_of_some {unentered : List Fragment} {name : String} {items : List TopItem} {f : Fragment}
    (hf : Named.find? unentered name = some f) : s.expand unentered (.spread name :: items) =
      s.expand (Named.without unentered name) (s.fragmentItems f ++ items) := by
  rw [expand]
  split
  · simp_all
  · rename_i g hg
    obtain rfl := Option.some.inj (hf.symm.trans hg)
    rfl

/-- A field that a walk comes to is one of the items, or at the top level of a fragment. -/
private theorem mem_expand {unentered : List Fragment} {items : List TopItem} {p : PlacedField}
    (h : p ∈ s.expand unentered items) :
    .field p ∈ items ∨ ∃ f ∈ unentered, .field p ∈ s.fragmentItems f := by
  induction unentered, items using expand.induct s with
  | case1 => simp [expand] at h
  | case2 unentered placed items ih =>
    rw [expand] at h
    rcases List.mem_cons.1 h with rfl | h
    · exact .inl (List.mem_cons_self ..)
    · exact (ih h).imp_left (List.mem_cons_of_mem _)
  | case3 unentered name items hnone ih =>
    rw [expand_spread_of_none hnone] at h
    exact (ih h).imp_left (List.mem_cons_of_mem _)
  | case4 unentered name items f hf ih =>
    rw [expand_spread_of_some hf] at h
    -- the items of `f` come first, and `f` is not entered again
    rcases ih h with h | ⟨f', hf', h⟩
    · rcases List.mem_append.1 h with h | h
      · exact .inr ⟨f, List.mem_of_find?_eq_some hf, h⟩
      · exact .inl (List.mem_cons_of_mem _ h)
    · exact .inr ⟨f', (List.mem_filter.1 hf').1, h⟩

/-- The fields at the top level of a visited selection set are visited, those of fragments too. -/
theorem visits_of_mem_topFields {d : Document} {parent : Option TypeDefinition} {set : SelectionSet}
    (h : .selectionSet parent set ∈ s.visits d) {p : PlacedField} (hp : p ∈ s.topFields d parent set) :
    .field p.parent p.field p.definition ∈ s.visits d := by
  -- it is enough that the selections of the set are visited, here and in each fragment
  have hset {parent : Option TypeDefinition} {set : SelectionSet} (hsub : s.visitSet parent set ⊆ s.visits d)
      (hp : .field p ∈ s.topItems parent set.selections) : .field p.parent p.field p.definition ∈ s.visits d := by
    obtain ⟨selections, span⟩ := set
    exact hsub (List.mem_cons_of_mem _ (visit_of_mem_topItems _ selections hp))
  rcases mem_expand hp with hp | ⟨f, hf, hp⟩
  · exact hset (s.closedIn_visits h) hp
  · exact hset (List.Subset.trans (s.visitSet_subset_visitDefinition (.fragment f))
      (s.visitDefinition_subset_visits (Document.mem_fragments.1 hf))) hp

end Schema

/-- The selection that a visit comes to. -/
def Visit.selection? : Visit → Option Selection
  | .field _ f _ => some (Selection.field f)
  | .spread _ f => some (Selection.spread f)
  | .inline _ i => some (Selection.inline i)
  | _ => none

def Selection.field? : Selection → Option Field
  | .field f => some f
  | _ => none

namespace Document

/-- Where the fields of a document start. -/
def fieldStarts (d : Document) : List Nat := (d.selections.filterMap Selection.field?).map (·.span.first.offset)

/-- No two fields of a parsed document start at one place. -/
theorem fieldStarts_nodup {source : String} {d : Document} (h : Document.parse source = .ok d) :
    d.fieldStarts.Nodup := by
  have hstarts : d.definitions.flatMap (·.selectionSet.starts) = d.fieldStarts := by
    rw [fieldStarts, selections, List.filterMap_flatMap, List.map_flatMap]
    refine congrArg (List.flatMap · d.definitions) (funext ?_)
    intro definition
    rw [SelectionSet.starts, List.map_filterMap]
    refine congrArg (List.filterMap · _) (funext ?_)
    intro selection
    cases selection <;> rfl
  have hincreasing := starts_increasing h
  rw [hstarts] at hincreasing
  exact hincreasing.imp Nat.ne_of_lt

end Document

namespace Schema

variable (s : Schema)

mutual

/-- The visits of a selection set come to each selection in it once, in order. -/
private theorem visitSet_selections (parent : Option TypeDefinition) : (set : SelectionSet) →
    (s.visitSet parent set).filterMap Visit.selection? = set.allSelections
  | ⟨selections, _⟩ => visitSelections_selections parent selections

private theorem visitSelections_selections (parent : Option TypeDefinition) : (selections : List Selection) →
    (s.visitSelections parent selections).filterMap Visit.selection? = allOfSelections selections
  | [] => rfl
  | selection :: rest => by
    rw [visitSelections, allOfSelections, List.filterMap_append, visitSelection_selections parent selection,
      visitSelections_selections parent rest]

private theorem visitSelection_selections (parent : Option TypeDefinition) : (selection : Selection) →
    (s.visitSelection parent selection).filterMap Visit.selection? = selection.allSelections
  | .field ⟨_, _, _, _, none, _⟩ => rfl
  | .field ⟨_, name, _, _, some set, _⟩ =>
    congrArg (_ :: ·) (visitSet_selections (s.resultType? (s.fieldOn? parent name.value)) set)
  | .spread _ => rfl
  | .inline ⟨condition, _, set, _⟩ =>
    congrArg (_ :: ·) (visitSet_selections (s.inlineType? parent condition) set)

end

private theorem visitDefinition_selections (definition : Definition) :
    (s.visitDefinition definition).filterMap Visit.selection? = definition.selectionSet.allSelections := by
  cases definition with
  | operation o =>
    -- variables and their directives are no selections
    have hvariables : (o.variableDefinitions.flatMap fun v =>
        [Visit.variable v, .directives .variableDefinition v.directives]).filterMap Visit.selection? = [] := by
      rw [List.filterMap_flatMap]
      exact List.flatMap_eq_nil_iff.2 fun _ _ => rfl
    rw [visitDefinition, List.filterMap_append, List.filterMap_cons_none rfl, List.filterMap_cons_none rfl,
      hvariables]
    exact s.visitSet_selections _ o.selectionSet
  | fragment f => exact s.visitSet_selections _ f.selectionSet

/-- A walk over a document visits each of its selections once. -/
theorem visits_selections (d : Document) : (s.visits d).filterMap Visit.selection? = d.selections := by
  rw [visits, Document.selections, List.filterMap_flatMap]
  exact congrArg (List.flatMap · d.definitions) (funext s.visitDefinition_selections)

private theorem eq_or_of_pairwise {α : Type} {R : α → α → Prop} {l : List α} (h : l.Pairwise R) {a b : α}
    (ha : a ∈ l) (hb : b ∈ l) : a = b ∨ R a b ∨ R b a := by
  induction h with
  | nil => cases ha
  | cons hx _ ih =>
    rcases List.mem_cons.1 ha with rfl | ha'
    · rcases List.mem_cons.1 hb with rfl | hb'
      · exact .inl rfl
      · exact .inr (.inl (hx b hb'))
    · rcases List.mem_cons.1 hb with rfl | hb'
      · exact .inr (.inr (hx a ha'))
      · exact ih ha' hb'

variable {s}

/-- A field that is visited is one of the document's. -/
theorem field_mem_of_visits {d : Document} {parent : Option TypeDefinition} {f : Field}
    {definition : Option FieldDefinition} (h : .field parent f definition ∈ s.visits d) :
    .field f ∈ d.selections := by
  rw [← s.visits_selections]
  exact List.mem_filterMap.2 ⟨_, h, rfl⟩

/-- A visit of a field is known by the first byte of the field, where no two fields start at one place. -/
theorem visit_eq_of_offset_eq {d : Document} (hd : d.fieldStarts.Nodup)
    {parent parent' : Option TypeDefinition} {f f' : Field} {definition definition' : Option FieldDefinition}
    (h : .field parent f definition ∈ s.visits d) (h' : .field parent' f' definition' ∈ s.visits d)
    (hoffset : f.span.first.offset = f'.span.first.offset) :
    parent = parent' ∧ f = f' ∧ definition = definition' := by
  rw [Document.fieldStarts, ← s.visits_selections, List.filterMap_filterMap, List.Nodup, List.pairwise_map,
    List.pairwise_filterMap] at hd
  rcases eq_or_of_pairwise hd h h' with heq | hne | hne
  · simpa using heq
  · exact absurd hoffset (hne f rfl f' rfl)
  · exact absurd hoffset.symm (hne f' rfl f rfl)

end Schema

end GraphQL
