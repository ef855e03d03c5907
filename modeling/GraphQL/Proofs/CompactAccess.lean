import GraphQL.Proofs.CompactCodec
import GraphQL.Proofs.CompactSound

/-!
# Compact documents are safe to read

The bytes of a compact document come from elsewhere, and whoever reads it follows the numbers and ranges that they
hold. `Document.Holds` finds the numbers of strings wherever they stand, `Document.slice?` cuts a range out of the
arena and refuses one that reaches outside, and `Document.Walks` goes through selections depth first, each before
those nested in it. In a document that was decoded every number and every range leads somewhere, and every walk ends
(`Document.readable_of_decode`): the ranges nested in a selection lie behind it, so that a walk only goes forward.
-/

namespace GraphQL.Compact

/-- The number stands somewhere in the value. -/
inductive Value.Holds (w : Nat) : Value → Prop
  | var {name : Ident} {span : Span} : name.word = w → Holds w (.var name span)
  | int {span : Span} : Holds w (.int w span)
  | float {span : Span} : Holds w (.float w span)
  | string {span : Span} : Holds w (.string w span)
  | enum {span : Span} : Holds w (.enum w span)
  | item {items : List Value} {span : Span} {v : Value} : v ∈ items → v.Holds w → Holds w (.list items span)
  | fieldName {fields : List ObjectField} {span : Span} {f : ObjectField} :
    f ∈ fields → f.name.word = w → Holds w (.object fields span)
  | fieldValue {fields : List ObjectField} {span : Span} {f : ObjectField} :
    f ∈ fields → f.value.Holds w → Holds w (.object fields span)

inductive Argument.Holds (w : Nat) (a : Argument) : Prop
  | name : a.name.word = w → Holds w a
  | value : a.value.Holds w → Holds w a

inductive Directive.Holds (w : Nat) (d : Directive) : Prop
  | name : d.name.word = w → Holds w d
  | argument {a : Argument} : a ∈ d.arguments → a.Holds w → Holds w d

inductive TypeRef.Holds (w : Nat) : TypeRef → Prop
  | named {name : Ident} {nullable : Bool} {span : Span} : name.word = w → Holds w (.named name nullable span)
  | list {element : TypeRef} {nullable : Bool} {span : Span} : element.Holds w → Holds w (.list element nullable span)

inductive VariableDefinition.Holds (w : Nat) (v : VariableDefinition) : Prop
  | name : v.name.word = w → Holds w v
  | type : v.type.Holds w → Holds w v
  | defaultValue {x : Value} : v.defaultValue = some x → x.Holds w → Holds w v
  | directive {d : Directive} : d ∈ v.directives → d.Holds w → Holds w v

inductive Selection.Holds (w : Nat) : Selection → Prop
  | aliasName {f : Field} {i : Ident} : f.aliasName = some i → i.word = w → Holds w (.field f)
  | name {f : Field} : f.name.word = w → Holds w (.field f)
  | argument {f : Field} {a : Argument} : a ∈ f.arguments → a.Holds w → Holds w (.field f)
  | spread {name : Ident} {directives : List Directive} {span : Span} :
    name.word = w → Holds w (.spread name directives span)
  | condition {i : Ident} {directives : List Directive} {range : Range} {span : Span} :
    i.word = w → Holds w (.inline (some i) directives range span)
  | directive {s : Selection} {d : Directive} : d ∈ s.directives → d.Holds w → Holds w s

inductive Operation.Holds (w : Nat) (o : Operation) : Prop
  | name {i : Ident} : o.name = some i → i.word = w → Holds w o
  | variableDefinition {v : VariableDefinition} : v ∈ o.variableDefinitions → v.Holds w → Holds w o
  | directive {d : Directive} : d ∈ o.directives → d.Holds w → Holds w o

inductive Fragment.Holds (w : Nat) (f : Fragment) : Prop
  | name : f.name.word = w → Holds w f
  | condition : f.condition.word = w → Holds w f
  | directive {d : Directive} : d ∈ f.directives → d.Holds w → Holds w f

/-- The number of a string stands somewhere in the document. -/
inductive Document.Holds (c : Document) (w : Nat) : Prop
  | operation {o : Operation} : o ∈ c.operations → o.Holds w → Holds c w
  | fragment {f : Fragment} : f ∈ c.fragments → f.Holds w → Holds c w
  | selection {s : Selection} : s ∈ c.selections → s.Holds w → Holds c w

private theorem Value.mem_referencesOfItems {x : Reference} {items : List Value} :
    x ∈ referencesOfItems items ↔ ∃ v ∈ items, x ∈ v.references := by
  induction items with
  | nil => simp [referencesOfItems]
  | cons v items ih => simp [referencesOfItems, ih]

private theorem Value.mem_referencesOfFields {x : Reference} {fields : List ObjectField} :
    x ∈ referencesOfFields fields ↔ ∃ f ∈ fields, x = f.name.reference ∨ x ∈ f.value.references := by
  induction fields with
  | nil => simp [referencesOfFields]
  | cons f fields ih =>
    obtain ⟨name, v, span⟩ := f
    simp [referencesOfFields, ih, or_assoc]

section
variable {w : Nat}

private theorem Ident.reference_of_word {i : Ident} (h : i.word = w) : i.reference = .word w := congrArg _ h

/-- Every number inside a value is among the references to be checked. -/
private theorem Value.Holds.mem_references {v : Value} (h : v.Holds w) : .word w ∈ v.references := by
  induction h with
  | var hname => exact List.mem_singleton.2 (Ident.reference_of_word hname).symm
  | int | float | string | enum => exact List.mem_singleton_self _
  | item hv _ ih => exact mem_referencesOfItems.2 ⟨_, hv, ih⟩
  | fieldName hf hname => exact mem_referencesOfFields.2 ⟨_, hf, .inl (Ident.reference_of_word hname).symm⟩
  | fieldValue hf _ ih => exact mem_referencesOfFields.2 ⟨_, hf, .inr ih⟩

private theorem Argument.Holds.mem_references {arguments : List Argument} {a : Argument} (ha : a ∈ arguments)
    (h : a.Holds w) : .word w ∈ referencesOfArguments arguments := by
  refine List.mem_flatMap.2 ⟨a, ha, ?_⟩
  cases h with
  | name hname => exact List.mem_cons.2 (.inl (Ident.reference_of_word hname).symm)
  | value hv => exact List.mem_cons_of_mem _ hv.mem_references

private theorem Directive.Holds.mem_references {directives : List Directive} {d : Directive} (hd : d ∈ directives)
    (h : d.Holds w) : .word w ∈ referencesOfDirectives directives := by
  refine List.mem_flatMap.2 ⟨d, hd, ?_⟩
  cases h with
  | name hname => exact List.mem_cons.2 (.inl (Ident.reference_of_word hname).symm)
  | argument ha h => exact List.mem_cons_of_mem _ (h.mem_references ha)

private theorem TypeRef.Holds.mem_references {t : TypeRef} (h : t.Holds w) : .word w ∈ t.references := by
  induction h with
  | named hname => exact List.mem_singleton.2 (Ident.reference_of_word hname).symm
  | list _ ih => exact ih

private theorem VariableDefinition.Holds.mem_references {v : VariableDefinition} (h : v.Holds w) :
    .word w ∈ v.references := by
  simp only [references, List.mem_cons, List.mem_append, List.mem_flatMap, Option.mem_toList]
  cases h with
  | name hname => exact .inl (.inl (.inl (Ident.reference_of_word hname).symm))
  | type h => exact .inl (.inl (.inr h.mem_references))
  | defaultValue hx h => exact .inl (.inr ⟨_, hx, h.mem_references⟩)
  | directive hd h => exact .inr (h.mem_references hd)

/-- Every number of a selection is among its references, whichever place it has in the arena. -/
private theorem Selection.Holds.mem_references {s : Selection} (index : Nat) (h : s.Holds w) :
    .word w ∈ s.references index := by
  simp only [references, List.mem_append]
  cases h with
  | aliasName hi hw =>
    refine .inl (.inl (List.mem_append_left _ (List.mem_map.2 ⟨_, ?_, Ident.reference_of_word hw⟩)))
    exact List.mem_append_left _ (Option.mem_toList.2 hi)
  | name hw =>
    refine .inl (.inl (List.mem_append_left _ (List.mem_map.2 ⟨_, ?_, Ident.reference_of_word hw⟩)))
    exact List.mem_append_right _ (List.mem_singleton_self _)
  | argument ha h => exact .inl (.inl (List.mem_append_right _ (h.mem_references ha)))
  | spread hw => exact .inl (.inl (List.mem_singleton.2 (Ident.reference_of_word hw).symm))
  | condition hw => exact .inl (.inl (List.mem_singleton.2 (Ident.reference_of_word hw).symm))
  | directive hd h => exact .inl (.inr (h.mem_references hd))

private theorem Selection.mem_references_children {s : Selection} {r : Range} (h : s.children = some r) (index : Nat) :
    .range r (index + 1) ∈ s.references index :=
  List.mem_append_right _ (List.mem_map.2 ⟨r, Option.mem_toList.2 h, rfl⟩)

private theorem Operation.Holds.mem_references {o : Operation} (h : o.Holds w) : .word w ∈ o.references := by
  simp only [references, List.mem_append, List.mem_map, List.mem_flatMap, Option.mem_toList]
  cases h with
  | name hi hw => exact .inl (.inl (.inl ⟨_, hi, Ident.reference_of_word hw⟩))
  | variableDefinition hv h => exact .inl (.inl (.inr ⟨_, hv, h.mem_references⟩))
  | directive hd h => exact .inl (.inr (h.mem_references hd))

private theorem Fragment.Holds.mem_references {f : Fragment} (h : f.Holds w) : .word w ∈ f.references := by
  simp only [references, List.mem_cons, List.mem_append]
  cases h with
  | name hw => exact .inl (.inl (Ident.reference_of_word hw).symm)
  | condition hw => exact .inl (.inr (.inl (Ident.reference_of_word hw).symm))
  | directive hd h => exact .inl (.inr (.inr (h.mem_references hd)))

end

namespace Document

variable {c : Document}

/-- The references of a selection in the arena are references of the document. -/
private theorem mem_references_selection {x : Reference} {i : Nat} {s : Selection} (hs : c.selections[i]? = some s)
    (hx : x ∈ s.references i) : x ∈ c.references := by
  obtain ⟨hi, rfl⟩ := List.getElem?_eq_some_iff.1 hs
  exact List.mem_append_right _ (List.mem_flatten.2 ⟨_, List.mem_mapIdx.2 ⟨i, hi, rfl⟩, hx⟩)

/-- Every number of a string is among the references. -/
theorem Holds.mem_references {w : Nat} (h : c.Holds w) : .word w ∈ c.references := by
  cases h with
  | operation ho h =>
    exact List.mem_append_left _ (List.mem_append_left _ (List.mem_append_right _
      (List.mem_flatMap.2 ⟨_, ho, h.mem_references⟩)))
  | fragment hf h =>
    exact List.mem_append_left _ (List.mem_append_right _ (List.mem_flatMap.2 ⟨_, hf, h.mem_references⟩))
  | selection hs h =>
    obtain ⟨i, hi⟩ := List.mem_iff_getElem?.1 hs
    exact mem_references_selection hi (h.mem_references i)

/-- Every range of a selection set is among the references. -/
theorem exists_mem_references_range {r : Range} (h : r ∈ c.ranges) : ∃ least, .range r least ∈ c.references := by
  simp only [ranges, List.mem_append, List.mem_map] at h
  rcases h with (⟨o, ho, rfl⟩ | ⟨f, hf, rfl⟩) | hnested
  · refine ⟨0, List.mem_append_left _ (List.mem_append_left _ (List.mem_append_right _
      (List.mem_flatMap.2 ⟨o, ho, ?_⟩)))⟩
    exact List.mem_append_right _ (List.mem_singleton_self _)
  · refine ⟨0, List.mem_append_left _ (List.mem_append_right _ (List.mem_flatMap.2 ⟨f, hf, ?_⟩))⟩
    exact List.mem_append_right _ (List.mem_singleton_self _)
  · obtain ⟨s, hs, hr⟩ := List.mem_filterMap.1 hnested
    obtain ⟨i, hi⟩ := List.mem_iff_getElem?.1 hs
    exact ⟨i + 1, mem_references_selection hi (Selection.mem_references_children hr i)⟩

/-! ### Access -/

/-- The selections of a range, which must not reach outside the arena. -/
def slice? (c : Document) (r : Range) : Option (List Selection) :=
  if r.start ≤ r.stop ∧ r.stop ≤ c.selections.length then some ((c.selections.take r.stop).drop r.start) else none

/-- The selections of a definition, which must be in its arena. -/
def rangeOf? (c : Document) : Definition → Option Range
  | .operation index => c.operations[index]?.map (·.selections)
  | .fragment index => c.fragments[index]?.map (·.selections)

/-- A walk that goes through the pending selections depth first visits selections in the order of the second list. -/
inductive Walks (c : Document) : List Selection → List Selection → Prop
  | done : Walks c [] []
  | leaf {s : Selection} {pending order : List Selection} (h : s.children = none) (hrest : Walks c pending order) :
    Walks c (s :: pending) (s :: order)
  | branch {s : Selection} {r : Range} {below pending order : List Selection} (h : s.children = some r)
    (hbelow : c.slice? r = some below) (hrest : Walks c (below ++ pending) order) :
    Walks c (s :: pending) (s :: order)

/-- Whatever the document refers to is there, and walks over its selections come to an end. -/
structure Readable (c : Document) : Prop where
  strings : ∀ w, c.Holds w → ∃ text, c.string? w = some text
  ranges : ∀ r ∈ c.ranges, ∃ selections, c.slice? r = some selections ∧ selections.length = r.size
  definitions : ∀ x ∈ c.definitions, ∃ r selections, c.rangeOf? x = some r ∧ c.slice? r = some selections ∧
    ∃ order, c.Walks selections order

private theorem error?_eq_none {x : Reference} (h : c.referenceError? = none) (hx : x ∈ c.references) :
    x.error? c = none :=
  List.findSome?_eq_none_iff.1 h x hx

/-- After the check of references every number leads to a string. -/
private theorem Holds.string? {w : Nat} (h : c.referenceError? = none) (hw : c.Holds w) :
    ∃ text, c.string? w = some text := by
  have herror := error?_eq_none h hw.mem_references
  simp only [Reference.error?, ite_eq_left_iff, reduceCtorEq, imp_false, Decidable.not_not] at herror
  exact ⟨_, List.getElem?_eq_getElem herror⟩

/-- A range that passes the check lies in the arena, and not before the least place unless it is empty. -/
theorem slice?_of_error? {r : Range} {least : Nat} (h : Reference.error? c (.range r least) = none) :
    (∃ selections, c.slice? r = some selections ∧ selections.length = r.size) ∧
      (least ≤ r.start ∨ r.size = 0) := by
  simp only [Reference.error?, ite_eq_right_iff, reduceCtorEq, imp_false] at h
  have hstop : r.stop = r.start + r.size := Nat.min_eq_right (by omega)
  refine ⟨⟨_, if_pos (by omega), ?_⟩, by omega⟩
  rw [List.length_drop, List.length_take]
  omega

private theorem exists_of_mem_slice? {r : Range} {selections : List Selection} (h : c.slice? r = some selections)
    {s : Selection} (hs : s ∈ selections) : ∃ i, r.start ≤ i ∧ c.selections[i]? = some s := by
  unfold slice? at h
  split at h
  · obtain rfl := Option.some.inj h
    obtain ⟨i, hi⟩ := List.mem_iff_getElem?.1 hs
    rw [List.getElem?_drop, List.getElem?_take] at hi
    split at hi
    · exact ⟨r.start + i, Nat.le_add_right .., hi⟩
    · cases hi
  · cases h

/-- A walk that ends, and ends from each of some selections before it, ends from all of them. -/
theorem exists_walks_append {selections pending : List Selection}
    (hall : ∀ s ∈ selections, ∀ pending, (∃ order, c.Walks pending order) →
      ∃ order, c.Walks (s :: pending) order)
    (h : ∃ order, c.Walks pending order) : ∃ order, c.Walks (selections ++ pending) order := by
  induction selections with
  | nil => exact h
  | cons s selections ih =>
    obtain ⟨hs, hrest⟩ := List.forall_mem_cons.1 hall
    exact hs _ (ih hrest)

/-- A walk goes on from every selection of the arena and comes to an end; `n` bounds the places behind it. -/
theorem exists_walks_cons (h : c.referenceError? = none) {n i : Nat} {s : Selection}
    (hs : c.selections[i]? = some s) (hn : c.selections.length ≤ i + n) (pending : List Selection)
    (hpending : ∃ order, c.Walks pending order) : ∃ order, c.Walks (s :: pending) order := by
  induction n generalizing i s pending with
  | zero =>
    obtain ⟨hi, -⟩ := List.getElem?_eq_some_iff.1 hs
    omega
  | succ n ih =>
    cases hr : s.children with
    | none =>
      obtain ⟨order, horder⟩ := hpending
      exact ⟨s :: order, .leaf hr horder⟩
    | some r =>
      have hreference := mem_references_selection hs (Selection.mem_references_children hr i)
      obtain ⟨⟨below, hbelow, hlength⟩, hleast⟩ := slice?_of_error? (error?_eq_none h hreference)
      -- what is nested in the selection stands behind it
      have hafter : ∀ t ∈ below, ∀ pending, (∃ order, c.Walks pending order) →
          ∃ order, c.Walks (t :: pending) order := by
        intro t ht
        obtain ⟨j, hj, htj⟩ := exists_of_mem_slice? hbelow ht
        have hpos := List.length_pos_of_mem ht
        exact ih htj (by omega)
      obtain ⟨order, horder⟩ := exists_walks_append hafter hpending
      exact ⟨s :: order, .branch hr hbelow horder⟩

/-- After the check of references a walk from any range comes to an end: it only goes to higher places in the arena.
-/
private theorem exists_walks (h : c.referenceError? = none) {r : Range} {selections : List Selection}
    (hr : c.slice? r = some selections) : ∃ order, c.Walks selections order := by
  have hall : ∀ s ∈ selections, ∀ pending, (∃ order, c.Walks pending order) →
      ∃ order, c.Walks (s :: pending) order := by
    intro s hs
    obtain ⟨i, -, hi⟩ := exists_of_mem_slice? hr hs
    exact exists_walks_cons h hi (Nat.le_add_left ..)
  rw [← List.append_nil selections]
  exact exists_walks_append hall ⟨[], .done⟩

private theorem rangeOf?_of_mem (h : c.referenceError? = none) {x : Definition} (hx : x ∈ c.definitions) :
    ∃ r ∈ c.ranges, c.rangeOf? x = some r := by
  have hreference : .definition x ∈ c.references :=
    List.mem_append_left _ (List.mem_append_left _ (List.mem_append_left _ (List.mem_map_of_mem hx)))
  have herror := error?_eq_none h hreference
  cases x with
  | operation i =>
    simp only [Reference.error?, ite_eq_left_iff, reduceCtorEq, imp_false, Decidable.not_not] at herror
    refine ⟨c.operations[i].selections, ?_, by simp [rangeOf?, herror]⟩
    exact List.mem_append_left _ (List.mem_append_left _ (List.mem_map_of_mem (List.getElem_mem herror)))
  | fragment i =>
    simp only [Reference.error?, ite_eq_left_iff, reduceCtorEq, imp_false, Decidable.not_not] at herror
    refine ⟨c.fragments[i].selections, ?_, by simp [rangeOf?, herror]⟩
    exact List.mem_append_left _ (List.mem_append_right _ (List.mem_map_of_mem (List.getElem_mem herror)))

/-- A decoded document can be read without looking outside it, and the walks over its selections end. -/
theorem readable_of_decode {bytes : List UInt8} (h : decode bytes = .ok c) : c.Readable := by
  have hchecked : c.referenceError? = none := by
    unfold decode at h
    split at h
    · cases h
    · split at h
      · cases h
      · rename_i hnone
        cases h
        exact hnone
    · cases h
  have hranges : ∀ r ∈ c.ranges, ∃ selections, c.slice? r = some selections ∧ selections.length = r.size := by
    intro r hr
    obtain ⟨least, hreference⟩ := exists_mem_references_range hr
    exact (slice?_of_error? (error?_eq_none hchecked hreference)).1
  refine ⟨fun w hw => hw.string? hchecked, hranges, ?_⟩
  intro x hx
  obtain ⟨r, hr, hrange⟩ := rangeOf?_of_mem hchecked hx
  obtain ⟨selections, hslice, -⟩ := hranges r hr
  exact ⟨r, selections, hrange, hslice, exists_walks hchecked hslice⟩

/-- The operation `{ a { c } b { c } ...F }` and the fragment `F on T { c }` with one entry of the arena for all three
`c`, which has an empty selection set at the start of the arena; no such document is the compact form of a text. -/
def sharedSelections : Document :=
  let leaf (w : Nat) (below : Option Range) : Selection := .field ⟨none, ⟨w, .nowhere⟩, [], [], below, .nowhere⟩
  ⟨["a", "b", "c", "F", "T"], [.operation 0, .fragment 0],
    [⟨.query, none, [], [], ⟨0, 3⟩, .nowhere⟩], [⟨⟨3, .nowhere⟩, ⟨4, .nowhere⟩, [], ⟨3, 1⟩, .nowhere⟩],
    [leaf 0 (some ⟨3, 1⟩), leaf 1 (some ⟨3, 1⟩), .spread ⟨3, .nowhere⟩ [] .nowhere, leaf 2 (some ⟨0, 0⟩)],
    .nowhere⟩

theorem readable_of_sharedSelections :
    decode sharedSelections.encode = .ok sharedSelections ∧ sharedSelections.Readable := by
  have hstorable : sharedSelections.Storable := by
    simp [sharedSelections, Document.Storable, StorableList, Definition.Storable, Operation.Storable,
      Fragment.Storable, Range.Storable, Selection.Storable, Field.Storable, Ident.Storable, Span.Storable,
      Position.Storable, Span.nowhere, UInt32.size, UInt64.size]
    decide
  have hsound : sharedSelections.referenceError? = none := by decide
  have hread : documentCodec.read sharedSelections.encode = some (sharedSelections, []) := by
    simpa [encode] using documentCodec_faithful.reads sharedSelections hstorable []
  have hdecode : decode sharedSelections.encode = .ok sharedSelections := by
    simp only [decode, hread, hsound]
  exact ⟨hdecode, readable_of_decode hdecode⟩

end Document

end GraphQL.Compact
