import GraphQL.Proofs.GrammarSound
import GraphQL.Proofs.NumberLiterals

/-!
# What holds of the parts of a parsed document

What the grammar asks of a selection set, it asks of the sets inside (`SelectionSet.Fits.of_mem`), so that no field of
a parsed document has an empty selection set (`Document.children_ne_nil`). A part is written with terminals of the
whole (`Document.terminals_subset`), so that the numbers of a parsed document write integers and decimals, wherever they
stand (`Document.writes_int`, `Document.writes_decimal`).
-/

namespace GraphQL

open Terminal

/-- All selections inside a selection: itself, and those inside its selection set. -/
theorem Selection.allSelections_eq (s : Selection) :
    s.allSelections = s :: s.children.toList.flatMap (·.allSelections) := by
  cases s with
  | field f =>
    obtain ⟨_, _, _, _, set, _⟩ := f
    cases set <;> simp [allSelections, children]
  | spread => rfl
  | inline i =>
    obtain ⟨_, _, set, _⟩ := i
    simp [allSelections, children]

theorem SelectionSet.allSelections_eq (set : SelectionSet) :
    set.allSelections = set.selections.flatMap (·.allSelections) := by
  obtain ⟨selections, span⟩ := set
  rw [allSelections, allOfSelections_eq]

/-- What a selection that fits asks of a selection set in it. -/
theorem Selection.Fits.children {n : Nat} {inner : SelectionSet → Prop} {s : Selection} (h : s.Fits n inner) :
    ∀ set ∈ s.children, inner set := by
  cases s with
  | field f => exact h.2.2
  | spread => simp [Selection.children]
  | inline i => simpa [Selection.children] using h.2

/-- The selections inside a selection set that fits, fit themselves. -/
theorem SelectionSet.Fits.of_mem {n : Nat} {set : SelectionSet} (h : set.Fits n) {s : Selection}
    (hs : s ∈ set.allSelections) : ∃ m, s.Fits m (SelectionSet.Fits m) := by
  induction n generalizing set with
  | zero => exact h.elim
  | succ n ih =>
    rw [allSelections_eq] at hs
    obtain ⟨top, htop, hs⟩ := List.mem_flatMap.1 hs
    have hfits := h.2 top htop
    rw [Selection.allSelections_eq] at hs
    rcases List.mem_cons.1 hs with rfl | hs
    · exact ⟨n, hfits⟩
    · obtain ⟨inner, hinner, hs⟩ := List.mem_flatMap.1 hs
      exact ih (hfits.children inner (Option.mem_toList.1 hinner)) hs

private theorem SelectionSet.Fits.selections_ne_nil {n : Nat} {set : SelectionSet} (h : set.Fits n) :
    set.selections ≠ [] := by
  cases n with
  | zero => exact h.elim
  | succ n => exact h.1

private theorem Definition.Fits.selectionSet {definition : Definition} (h : definition.Fits) :
    definition.selectionSet.Fits Parse.maxDepth := by
  cases definition with
  | operation o => exact Operation.Fits.selectionSet h
  | fragment f => exact Fragment.Fits.selectionSet h

namespace Value

mutual

/-- What a value inside another one is written with, the other is written with too. -/
theorem terminals_subset : (w : Value) → ∀ v ∈ w.all, v.terminals ⊆ w.terminals
  | .list items span, v, hv => by
    rcases List.mem_cons.1 hv with rfl | hv
    · exact List.Subset.refl _
    · intro t ht
      simp [terminals, between, itemTerminals_subset items v hv ht]
  | .object fields span, v, hv => by
    rcases List.mem_cons.1 hv with rfl | hv
    · exact List.Subset.refl _
    · intro t ht
      simp [terminals, between, fieldTerminals_subset fields v hv ht]
  | .var _, v, hv | .int .., v, hv | .float .., v, hv | .string _, v, hv | .boolean .., v, hv | .null _, v, hv
  | .enum .., v, hv => by
    obtain rfl := List.mem_singleton.1 hv
    exact List.Subset.refl _

private theorem itemTerminals_subset : (items : List Value) → ∀ v ∈ allOfItems items, v.terminals ⊆ itemTerminals items
  | [], v, hv => nomatch hv
  | w :: ws, v, hv => by
    rcases List.mem_append.1 hv with hv | hv
    · exact List.subset_append_of_subset_left _ (terminals_subset w v hv)
    · exact List.subset_append_of_subset_right _ (itemTerminals_subset ws v hv)

private theorem fieldTerminals_subset : (fields : List ObjectField) →
    ∀ v ∈ allOfFields fields, v.terminals ⊆ fieldTerminals fields
  | [], v, hv => nomatch hv
  | ⟨name, w, span⟩ :: fs, v, hv => by
    rcases List.mem_append.1 hv with hv | hv
    · intro t ht
      simp [fieldTerminals, terminals_subset w v hv ht]
    · exact List.subset_append_of_subset_right _ (fieldTerminals_subset fs v hv)

end

end Value

private theorem subset_group {α : Type} {opening close : Punctuator} {g : α → List Terminal} {items : List α} {a : α}
    (ha : a ∈ items) : g a ⊆ group opening close g items := by
  intro t ht
  rw [group, if_neg (List.ne_nil_of_mem ha), between]
  exact List.mem_cons_of_mem _ (List.mem_append_left _ (List.mem_flatMap.2 ⟨a, ha, ht⟩))

private theorem argumentTerminals_subset {arguments : List Argument} {v : Value} (hv : v ∈ argumentValues arguments) :
    v.terminals ⊆ argumentTerminals arguments := by
  obtain ⟨a, ha, hv⟩ := List.mem_flatMap.1 hv
  intro t ht
  exact subset_group ha (by simp [Argument.terminals, a.value.terminals_subset v hv ht])

private theorem directiveTerminals_subset {directives : List Directive} {v : Value}
    (hv : v ∈ directiveValues directives) :
    v.terminals ⊆ directiveTerminals directives := by
  obtain ⟨d, hd, hv⟩ := List.mem_flatMap.1 hv
  intro t ht
  exact List.mem_flatMap.2 ⟨d, hd, by simp [Directive.terminals, argumentTerminals_subset hv ht]⟩

private theorem Selection.ownTerminals_subset {s : Selection} {v : Value} (hv : v ∈ s.ownValues) :
    v.terminals ⊆ s.terminals := by
  intro t ht
  cases s with
  | field f =>
    rw [terminals_field, Field.terminals]
    rcases List.mem_append.1 hv with hv | hv
    · simp [argumentTerminals_subset hv ht]
    · simp [directiveTerminals_subset hv ht]
  | spread f => simp [terminals, directiveTerminals_subset hv ht]
  | inline i => simp [terminals_inline, directiveTerminals_subset hv ht]

/-- A selection is written with all that its selection set is written with. -/
theorem Selection.childTerminals_subset {s : Selection} {set : SelectionSet} (h : set ∈ s.children) :
    set.terminals ⊆ s.terminals := by
  intro t ht
  cases s with
  | field f =>
    have hset : f.selectionSet = some set := h
    simp [terminals_field, Field.terminals, hset, ht]
  | spread => cases h
  | inline i =>
    obtain rfl := Option.some.inj h
    simp [terminals_inline, ht]

/-- What a selection at any depth is written with, the set is written with too. -/
theorem SelectionSet.terminals_subset {n : Nat} {set : SelectionSet} (h : set.Fits n) {s : Selection}
    (hs : s ∈ set.allSelections) : s.terminals ⊆ set.terminals := by
  induction n generalizing set with
  | zero => exact h.elim
  | succ n ih =>
    rw [allSelections_eq] at hs
    obtain ⟨top, htop, hs⟩ := List.mem_flatMap.1 hs
    have hsub : top.terminals ⊆ set.terminals := by
      intro t ht
      rw [terminals_eq, between]
      exact List.mem_cons_of_mem _ (List.mem_append_left _ (List.mem_flatMap.2 ⟨top, htop, ht⟩))
    rw [Selection.allSelections_eq] at hs
    rcases List.mem_cons.1 hs with rfl | hs
    · exact hsub
    · obtain ⟨inner, hinner, hs⟩ := List.mem_flatMap.1 hs
      have hinner := Option.mem_toList.1 hinner
      exact List.Subset.trans (ih ((h.2 top htop).children inner hinner) hs)
        (List.Subset.trans (Selection.childTerminals_subset hinner) hsub)

private theorem SelectionSet.valueTerminals_subset {n : Nat} {set : SelectionSet} (h : set.Fits n) {v : Value}
    (hv : v ∈ set.values) : v.terminals ⊆ set.terminals := by
  obtain ⟨s, hs, hv⟩ := List.mem_flatMap.1 hv
  exact List.Subset.trans (Selection.ownTerminals_subset hv) (terminals_subset h hs)

theorem VariableDefinition.terminals_subset {definition : VariableDefinition} {v : Value}
    (hv : v ∈ definition.values) : v.terminals ⊆ definition.terminals := by
  intro t ht
  rw [VariableDefinition.terminals]
  rcases List.mem_append.1 hv with hv | hv
  · obtain ⟨w, hw, hv⟩ := List.mem_flatMap.1 hv
    have hmem : t ∈ definition.defaultValue.toList.flatMap fun value => sign .equals :: value.terminals :=
      List.mem_flatMap.2 ⟨w, hw, List.mem_cons_of_mem _ (w.terminals_subset v hv ht)⟩
    simp only [List.mem_cons, List.mem_append, hmem, true_or, or_true]
  · simp [directiveTerminals_subset hv ht]

/-- What a value of a definition is written with, the definition is written with too. -/
theorem Definition.terminals_subset {definition : Definition} (h : definition.Fits) {v : Value}
    (hv : v ∈ definition.values) : v.terminals ⊆ definition.terminals := by
  intro t ht
  cases definition with
  | fragment f =>
    have hfits : f.Fits := h
    rw [Definition.terminals, Fragment.terminals]
    rcases List.mem_append.1 hv with hv | hv
    · simp [directiveTerminals_subset hv ht]
    · simp [SelectionSet.valueTerminals_subset hfits.selectionSet hv ht]
  | operation o =>
    have hfits : o.Fits := h
    rw [Definition.terminals, Operation.terminals]
    rcases List.mem_append.1 hv with hv | hv
    · -- a bare operation has neither variables nor directives
      have hnot : ¬o.shorthand = true := by
        intro hshorthand
        obtain ⟨-, -, hvariables, hdirectives⟩ := hfits.shorthand hshorthand
        simp [hvariables, hdirectives, directiveValues] at hv
      rw [if_neg hnot, Operation.headTerminals]
      rcases List.mem_append.1 hv with hv | hv
      · obtain ⟨w, hw, hv⟩ := List.mem_flatMap.1 hv
        have hmem : t ∈ group .openParen .closeParen VariableDefinition.terminals o.variableDefinitions :=
          subset_group hw (VariableDefinition.terminals_subset hv ht)
        simp only [List.cons_append, List.mem_cons, List.mem_append, hmem, or_true, true_or]
      · simp [directiveTerminals_subset hv ht]
    · have hmem := SelectionSet.valueTerminals_subset hfits.selectionSet hv ht
      split
      · exact hmem
      · exact List.mem_append_right _ hmem

namespace Document

/-- What a value of a document is written with, the document is written with too. -/
theorem terminals_subset {d : Document} (h : d.Fits) {v : Value} (hv : v ∈ d.values) :
    v.terminals ⊆ d.terminals := by
  obtain ⟨definition, hdefinition, hv⟩ := List.mem_flatMap.1 hv
  exact fun t ht => List.mem_flatMap.2
    ⟨definition, hdefinition, Definition.terminals_subset (h.definitions definition hdefinition) hv ht⟩

variable {source : String} {d : Document}

/-- In a parsed document, a selection has no empty selection set. -/
theorem children_ne_nil (h : Document.parse source = .ok d) {s : Selection} (hs : s ∈ d.selections)
    {set : SelectionSet} (hset : set ∈ s.children) : set.selections ≠ [] := by
  obtain ⟨ts, rest, -, hd⟩ := parse_sound h
  obtain ⟨definition, hdefinition, hs⟩ := List.mem_flatMap.1 hs
  obtain ⟨n, hfits⟩ := (hd.fits.definitions definition hdefinition).selectionSet.of_mem hs
  exact (hfits.children set hset).selections_ne_nil

/-- The literals of a parsed document are tokens of its source. -/
theorem genuine_of_mem_values (h : Document.parse source = .ok d) {v : Value} (hv : v ∈ d.values) {kind : Token.Kind}
    (hkind : v.terminals = [.plain kind]) : kind.Genuine := by
  obtain ⟨ts, rest, htokens, hd⟩ := parse_sound h
  have hterminal : .plain kind ∈ ts.map Token.terminal := by
    rw [hd.terminals]
    exact terminals_subset hd.fits hv (hkind ▸ List.mem_singleton.2 rfl)
  obtain ⟨t, ht, hplain⟩ := List.mem_map.1 hterminal
  have hgenuine := tokensFrom_genuine .start source.toList t (by
    rw [← tokens, htokens]
    exact List.mem_append_left _ ht)
  rwa [kind_of_terminal hplain] at hgenuine

/-- The integer literals of a parsed document write integers. -/
theorem writes_int (h : Document.parse source = .ok d) {raw : String} {span : Span}
    (hmem : .int raw span ∈ d.values) : ∃ n, Number.WritesInt raw.toList n :=
  (genuine_of_mem_values h hmem rfl).writes_number.1 raw rfl

/-- The float literals of a parsed document write decimals. -/
theorem writes_decimal (h : Document.parse source = .ok d) {raw : String} {span : Span}
    (hmem : .float raw span ∈ d.values) : ∃ q, Number.WritesDecimal raw.toList q :=
  (genuine_of_mem_values h hmem rfl).writes_number.2 raw rfl

end Document

end GraphQL
