import GraphQL.Proofs.CompactReferences
import Mathlib.Algebra.GroupWithZero.Nat

/-!
# Sound compact documents

The parts of a compact document point into one another: definitions and selection sets by ranges and indices into the
arenas, names and literals by number into the table of strings. A document is sound when the ranges cover the arena
of selections exactly once and run forward, each operation and each fragment is a definition, and each string is there
once and is used (`Document.Sound`). The compact form of a document is sound (`Document.sound_ofDocument`), and no
reference of a sound document points outside (`Document.Sound.referenceError?_eq_none`).

Definitions are added one after the other; `Laid` is what each of them preserves.
-/

namespace GraphQL.Compact

/-- The ranges of all selection sets. -/
def Document.ranges (c : Document) : List Range :=
  c.operations.map (·.selections) ++ c.fragments.map (·.selections) ++ nestedRanges c.selections

def Definition.operationIndex : Definition → Option Nat
  | .operation index => some index
  | .fragment _ => none

def Definition.fragmentIndex : Definition → Option Nat
  | .operation _ => none
  | .fragment index => some index

/-- The parts of the document fit together: nothing in the arenas or the table of strings is left over, used twice
by what may use it once, or missing. -/
structure Document.Sound (c : Document) : Prop where
  disjoint : c.ranges.Pairwise fun r s => ∀ i ∈ r.indices, i ∉ s.indices
  cover : (c.ranges.flatMap Range.indices).Perm (List.range c.selections.length)
  within : ∀ r ∈ c.ranges, r.start + r.size ≤ c.selections.length
  forward : ∀ (i : Nat) (s : Selection), c.selections[i]? = some s → ∀ r ∈ s.children, i < r.start
  operations : c.definitions.filterMap Definition.operationIndex = List.range c.operations.length
  fragments : c.definitions.filterMap Definition.fragmentIndex = List.range c.fragments.length
  distinct : c.strings.Nodup
  used : ∀ n, Reference.word n ∈ c.references ↔ n < c.strings.length

section
variable (number : Numbering)

/-- An added definition brings the range of its selection set and those nested in it. -/
private theorem ranges_addDefinition (c : Document) (x : GraphQL.Definition) : (addDefinition number c x).ranges.Perm
    (c.ranges ++ rangeAt c.selections.length x.selectionSet ::
      nestedRanges (arena number c.selections.length x.selectionSet)) := by
  refine List.perm_iff_count.2 fun r => ?_
  cases x with
  | operation o =>
    rw [addDefinition_operation]
    simp only [Document.ranges, nestedRanges_append, List.map_append, List.map_cons, List.map_nil, List.count_append,
      List.count_cons, List.count_nil, operation, GraphQL.Definition.selectionSet]
    omega
  | fragment f =>
    rw [addDefinition_fragment]
    simp only [Document.ranges, nestedRanges_append, List.map_append, List.map_cons, List.map_nil, List.count_append,
      List.count_cons, List.count_nil, fragment, GraphQL.Definition.selectionSet]
    omega

/-- An added definition brings the numbers of its words. -/
private theorem numbers_addDefinition (c : Document) (x : GraphQL.Definition) :
    (numbersIn (addDefinition number c x).references).Perm (numbersIn c.references ++ x.words.map number) := by
  refine List.perm_iff_count.2 fun n => ?_
  have happend (part rest : List Selection) : partNumbers (part ++ rest) = partNumbers part ++ partNumbers rest :=
    List.flatMap_append
  cases x with
  | operation o =>
    rw [addDefinition_operation, ← numbers_operation number c.selections.length]
    simp only [numbersIn_references, happend, List.flatMap_append, List.flatMap_cons, List.flatMap_nil,
      List.count_append, List.count_nil]
    omega
  | fragment f =>
    rw [addDefinition_fragment, ← numbers_fragment number c.selections.length]
    simp only [numbersIn_references, happend, List.flatMap_append, List.flatMap_cons, List.flatMap_nil,
      List.count_append, List.count_nil]
    omega

/-- The document holds the definitions and nothing else. -/
structure Laid (definitions : List GraphQL.Definition) (c : Document) : Prop where
  length : c.selections.length = (definitions.map (·.selectionSet.count)).sum
  cover : (c.ranges.flatMap Range.indices).Perm (List.range c.selections.length)
  within : ∀ r ∈ c.ranges, r.start + r.size ≤ c.selections.length
  forward : Forward 0 c.selections
  operations : c.definitions.filterMap Definition.operationIndex = List.range c.operations.length
  fragments : c.definitions.filterMap Definition.fragmentIndex = List.range c.fragments.length
  numbers : (numbersIn c.references).Perm ((definitions.flatMap (·.words)).map number)

theorem Laid.nil (strings : List String) (span : Span) : Laid number [] ⟨strings, [], [], [], [], span⟩ where
  length := rfl
  cover := .refl _
  within := nofun
  forward i s hs := by cases hs
  operations := rfl
  fragments := rfl
  numbers := .refl _

variable {number}

/-- Adding a definition keeps what holds of the documents in progress. -/
private theorem Laid.add {definitions : List GraphQL.Definition} {c : Document} (h : Laid number definitions c)
    (x : GraphQL.Definition) : Laid number (definitions ++ [x]) (addDefinition number c x) := by
  have hselections := selections_addDefinition number c x
  have hlength : (addDefinition number c x).selections.length = c.selections.length + x.selectionSet.count := by
    rw [hselections, List.length_append, length_arena]
  have hranges := ranges_addDefinition number c x
  constructor
  case length =>
    rw [hlength, h.length, List.map_append, List.sum_append, List.map_cons, List.map_nil, List.sum_singleton]
  case cover =>
    rw [hlength, List.range_add]
    have hcover := h.cover.append (cover_arena number c.selections.length x.selectionSet)
    rw [← List.flatMap_append] at hcover
    rw [← List.range'_eq_map_range]
    exact (hranges.flatMap_right Range.indices).trans hcover
  case within =>
    intro r hr
    rw [hlength]
    rcases List.mem_append.1 (hranges.mem_iff.1 hr) with hr | hr
    · have := h.within r hr
      omega
    · exact (within_arena number _ _ r hr).2
  case forward =>
    rw [hselections]
    refine h.forward.append ?_
    rw [Nat.zero_add]
    exact forward_arena number _ _
  case operations =>
    cases x with
    | operation o =>
      rw [addDefinition_operation]
      simp [h.operations, Definition.operationIndex, List.range_succ]
    | fragment f =>
      rw [addDefinition_fragment]
      simp [h.operations, Definition.operationIndex]
  case fragments =>
    cases x with
    | operation o =>
      rw [addDefinition_operation]
      simp [h.fragments, Definition.fragmentIndex]
    | fragment f =>
      rw [addDefinition_fragment]
      simp [h.fragments, Definition.fragmentIndex, List.range_succ]
  case numbers =>
    rw [List.flatMap_append, List.map_append, List.flatMap_cons, List.flatMap_nil, List.append_nil]
    exact (numbers_addDefinition number c x).trans (h.numbers.append_right _)

private theorem Laid.addAll {definitions : List GraphQL.Definition} {c : Document} (h : Laid number definitions c)
    (more : List GraphQL.Definition) :
    Laid number (definitions ++ more) (more.foldl (addDefinition number) c) := by
  induction more generalizing definitions c with
  | nil => rwa [List.append_nil]
  | cons x more ih =>
    rw [List.append_cons]
    exact ih (h.add x)

end

/-- No reference of a sound document points outside, as long as places in the arena fit into 32 bits. -/
theorem Document.Sound.referenceError?_eq_none {c : Document} (h : c.Sound)
    (hsize : c.selections.length < UInt32.size) : c.referenceError? = none := by
  have hrange {r : Range} {least : Nat} (hr : r ∈ c.ranges) (hleast : least ≤ r.start) :
      Reference.error? c (.range r least) = none := by
    have hwithin := h.within r hr
    have hstop : r.stop ≤ c.selections.length := Nat.le_trans (Nat.min_le_right _ _) hwithin
    have hfits : r.start + r.size ≤ maxWord := by
      rw [maxWord]
      omega
    rw [Reference.error?, if_neg (by omega)]
  refine List.findSome?_eq_none_iff.2 fun x hx => ?_
  rcases references_cases hx with ⟨n, rfl⟩ | ⟨definition, hdefinition, rfl⟩ | ⟨r, hr, rfl⟩ | ⟨i, s, hs, r, hr, rfl⟩
  · rw [Reference.error?, if_pos ((h.used n).1 hx)]
  · cases definition with
    | operation i =>
      have hi : i ∈ c.definitions.filterMap Definition.operationIndex :=
        List.mem_filterMap.2 ⟨_, hdefinition, rfl⟩
      rw [h.operations, List.mem_range] at hi
      rw [Reference.error?, if_pos hi]
    | fragment i =>
      have hi : i ∈ c.definitions.filterMap Definition.fragmentIndex :=
        List.mem_filterMap.2 ⟨_, hdefinition, rfl⟩
      rw [h.fragments, List.mem_range] at hi
      rw [Reference.error?, if_pos hi]
  · exact hrange (List.mem_append_left _ hr) (Nat.zero_le _)
  · have hnested : r ∈ nestedRanges c.selections := List.mem_filterMap.2 ⟨s, List.mem_of_getElem? hs, hr⟩
    exact hrange (List.mem_append_right _ hnested) (h.forward i s hs r hr)

/-- The compact form of a document is sound, and when its selections can be counted with 32 bits, its references
pass the check of a reader. -/
theorem Document.sound_ofDocument (d : GraphQL.Document)
    (hsize : (d.definitions.map (·.selectionSet.count)).sum < UInt32.size) :
    (ofDocument d).Sound ∧ (ofDocument d).referenceError? = none := by
  have hlaid : Laid (table d.words).idxOf d.definitions (ofDocument d) :=
    (Laid.nil _ (table d.words) d.span).addAll d.definitions
  have hstrings : (ofDocument d).strings = table d.words := strings_addAll _ _ d.definitions
  have hsound : (ofDocument d).Sound := by
    refine ⟨?_, hlaid.cover, hlaid.within, ?_, hlaid.operations, hlaid.fragments, ?_, ?_⟩
    · have hnodup : ((ofDocument d).ranges.flatMap Range.indices).Nodup := hlaid.cover.nodup_iff.2 List.nodup_range
      refine (List.pairwise_flatMap.1 hnodup).2.imp fun hne i hi hi' => ?_
      exact hne i hi i hi' rfl
    · intro i s hs r hr
      have := hlaid.forward i s hs r hr
      omega
    · rw [hstrings]
      exact nodup_table d.words
    · intro n
      rw [← mem_numbersIn, hlaid.numbers.mem_iff, hstrings]
      exact mem_map_idxOf_table
  refine ⟨hsound, hsound.referenceError?_eq_none ?_⟩
  rw [hlaid.length]
  exact hsize

/-- The document `{ a { ...F b } } fragment F on T { ... on U { a } }`. -/
def nestedSelections : GraphQL.Document :=
  let name (value : String) : Name := ⟨value, .nowhere⟩
  let leaf (value : String) : GraphQL.Selection := .field ⟨none, name value, [], [], none, .nowhere⟩
  let inner : SelectionSet := ⟨[.spread ⟨name "F", [], .nowhere⟩, leaf "b"], .nowhere⟩
  let branch : SelectionSet := ⟨[.inline ⟨some ⟨name "U", .nowhere⟩, [], ⟨[leaf "a"], .nowhere⟩, .nowhere⟩], .nowhere⟩
  ⟨[.operation ⟨.query, none, [], [], ⟨[.field ⟨none, name "a", [], [], some inner, .nowhere⟩], .nowhere⟩, true,
      .nowhere⟩,
    .fragment ⟨name "F", ⟨name "T", .nowhere⟩, [], branch, .nowhere⟩], .nowhere⟩

theorem Document.sound_nestedSelections :
    (nestedSelections.definitions.map (·.selectionSet.count)).sum = 5 ∧ (ofDocument nestedSelections).Sound ∧
      (ofDocument nestedSelections).referenceError? = none := by
  have hcount : (nestedSelections.definitions.map (·.selectionSet.count)).sum = 5 := by decide
  exact ⟨hcount, sound_ofDocument nestedSelections (by rw [hcount]; decide)⟩

end GraphQL.Compact
