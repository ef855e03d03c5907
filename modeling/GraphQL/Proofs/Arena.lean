import GraphQL.Compact.Build

/-!
# The layout of the arena of selections

A selection set takes up a part of the arena of its own: its selections first, then the parts of the sets nested in
them. The ranges that point into the part cover it exactly once (`cover_arena`), none of them leaves it
(`within_arena`), and each starts behind the selection that owns it (`forward_arena`). The lemmas come in threes, as
the layout does: for a selection set, for what is nested in its selections, and for what is nested in one of them.
-/

namespace GraphQL.Compact

/-- The places of the arena that the range covers. -/
def Range.indices (r : Range) : List Nat := List.range' r.start r.size

/-- The ranges of the selection sets that are nested in selections of the arena. -/
def nestedRanges (selections : List Selection) : List Range := selections.filterMap (·.children)

theorem nestedRanges_append (selections selections' : List Selection) :
    nestedRanges (selections ++ selections') = nestedRanges selections ++ nestedRanges selections' :=
  List.filterMap_append

private theorem nestedRanges_cons (s : Selection) (rest : List Selection) :
    nestedRanges (s :: rest) = s.children.toList ++ nestedRanges rest := by
  cases h : s.children <;> simp [nestedRanges, h]

section
variable (number : Numbering)

theorem length_siblings (next : Nat) (selections : List GraphQL.Selection) :
    (siblings number next selections).length = selections.length := by
  induction selections generalizing next with
  | nil => rfl
  | cons s rest ih => rw [siblings, List.length_cons, List.length_cons, ih]

mutual

/-- The part of a selection set has one entry for each selection in it, at any depth. -/
theorem length_arena (start : Nat) : (set : SelectionSet) → (arena number start set).length = set.count
  | ⟨selections, _⟩ => by
    rw [arena, List.length_append, length_siblings, length_nestedArena, SelectionSet.count]

private theorem length_nestedArena (next : Nat) : (selections : List GraphQL.Selection) →
    (nestedArena number next selections).length = nestedCount selections
  | [] => rfl
  | s :: rest => by
    rw [nestedArena, List.length_append, length_selectionArena, length_nestedArena, nestedCount]

theorem length_selectionArena (next : Nat) : (s : GraphQL.Selection) →
    (selectionArena number next s).length = s.nestedCount
  | .field ⟨_, _, _, _, some set, _⟩ => length_arena next set
  | .field ⟨_, _, _, _, none, _⟩ => rfl
  | .spread _ => rfl
  | .inline ⟨_, _, set, _⟩ => length_arena next set

end

/-- The ranges nested in one selection: its own, and those of the part of the arena behind it. -/
def rangesOf (next : Nat) (s : GraphQL.Selection) : List Range :=
  (selection number next s).children.toList ++ nestedRanges (selectionArena number next s)

mutual

/-- The ranges in the part of a selection set cover the places of the part, each once. -/
theorem cover_arena (start : Nat) : (set : SelectionSet) →
    ((rangeAt start set :: nestedRanges (arena number start set)).flatMap Range.indices).Perm
      (List.range' start set.count)
  | ⟨selections, span⟩ => by
    have hnested := cover_nestedArena (start + selections.length) selections
    rw [SelectionSet.count, ← List.range'_append_1, List.flatMap_cons, arena]
    rw [nestedRanges_append]
    exact hnested.append_left _

private theorem cover_nestedArena (next : Nat) : (selections : List GraphQL.Selection) →
    ((nestedRanges (siblings number next selections) ++ nestedRanges (nestedArena number next selections)).flatMap
      Range.indices).Perm (List.range' next (nestedCount selections))
  | [] => .refl _
  | s :: rest => by
    have hfirst := cover_selectionArena next s
    have hrest := cover_nestedArena (next + s.nestedCount) rest
    rw [nestedCount, ← List.range'_append_1, siblings, nestedArena, nestedRanges_cons, nestedRanges_append]
    refine List.Perm.trans ?_ (hfirst.append hrest)
    simp only [rangesOf, List.flatMap_append]
    refine List.perm_iff_count.2 fun i => ?_
    simp only [List.count_append]
    omega

private theorem cover_selectionArena (next : Nat) : (s : GraphQL.Selection) →
    ((rangesOf number next s).flatMap Range.indices).Perm (List.range' next s.nestedCount)
  | .field ⟨_, _, _, _, some set, _⟩ => cover_arena next set
  | .field ⟨_, _, _, _, none, _⟩ => .refl _
  | .spread _ => .refl _
  | .inline ⟨_, _, set, _⟩ => cover_arena next set

end

mutual

/-- No range in the part of a selection set reaches outside the part. -/
theorem within_arena (start : Nat) : (set : SelectionSet) →
    ∀ r ∈ rangeAt start set :: nestedRanges (arena number start set),
      start ≤ r.start ∧ r.start + r.size ≤ start + set.count
  | ⟨selections, span⟩ => by
    intro r hr
    rw [SelectionSet.count]
    rcases List.mem_cons.1 hr with rfl | hr
    · exact ⟨Nat.le_refl start, Nat.add_le_add_left (Nat.le_add_right _ _) start⟩
    · rw [arena, nestedRanges_append] at hr
      have hnested := within_nestedArena (start + selections.length) selections r hr
      omega

private theorem within_nestedArena (next : Nat) : (selections : List GraphQL.Selection) →
    ∀ r ∈ nestedRanges (siblings number next selections) ++ nestedRanges (nestedArena number next selections),
      next ≤ r.start ∧ r.start + r.size ≤ next + nestedCount selections
  | [] => nofun
  | s :: rest => by
    intro r hr
    rw [siblings, nestedArena, nestedRanges_cons, nestedRanges_append] at hr
    have hfirst := within_selectionArena next s r
    have hrest := within_nestedArena (next + s.nestedCount) rest r
    simp only [rangesOf, List.mem_append] at hfirst hrest hr
    rw [nestedCount]
    rcases hr with (hr | hr) | (hr | hr)
    · have := hfirst (.inl hr)
      omega
    · have := hrest (.inl hr)
      omega
    · have := hfirst (.inr hr)
      omega
    · have := hrest (.inr hr)
      omega

private theorem within_selectionArena (next : Nat) : (s : GraphQL.Selection) →
    ∀ r ∈ rangesOf number next s, next ≤ r.start ∧ r.start + r.size ≤ next + s.nestedCount
  | .field ⟨_, _, _, _, some set, _⟩ => within_arena next set
  | .field ⟨_, _, _, _, none, _⟩ => nofun
  | .spread _ => nofun
  | .inline ⟨_, _, set, _⟩ => within_arena next set

end

/-- The ranges in a part of the arena that starts at the offset start behind the selections that own them. -/
def Forward (offset : Nat) (part : List Selection) : Prop :=
  ∀ (i : Nat) (s : Selection), part[i]? = some s → ∀ r ∈ s.children, offset + i < r.start

/-- The places of the second part are counted from the end of the first. -/
theorem Forward.append {offset : Nat} {part rest : List Selection} (h : Forward offset part)
    (hrest : Forward (offset + part.length) rest) : Forward offset (part ++ rest) := by
  intro i s hs r hr
  by_cases hi : i < part.length
  · rw [List.getElem?_append_left hi] at hs
    exact h i s hs r hr
  · rw [List.getElem?_append_right (by omega)] at hs
    have := hrest (i - part.length) s hs r hr
    omega

mutual

/-- Selections stand behind the ones that they are nested in. -/
theorem forward_arena (start : Nat) : (set : SelectionSet) → Forward start (arena number start set)
  | ⟨selections, span⟩ => by
    rw [arena]
    refine .append ?_ ?_
    · intro i s hs r hr
      have hi : i < selections.length := by
        rw [← length_siblings number (start + selections.length) selections]
        exact (List.getElem?_eq_some_iff.1 hs).1
      have hnested : r ∈ nestedRanges (siblings number (start + selections.length) selections) :=
        List.mem_filterMap.2 ⟨s, List.mem_of_getElem? hs, hr⟩
      have := within_nestedArena number _ selections r (List.mem_append_left _ hnested)
      omega
    · rw [length_siblings]
      exact forward_nestedArena _ selections

private theorem forward_nestedArena (next : Nat) : (selections : List GraphQL.Selection) →
    Forward next (nestedArena number next selections)
  | [] => by
    intro i s hs
    cases hs
  | s :: rest => by
    rw [nestedArena]
    refine .append (forward_selectionArena next s) ?_
    rw [length_selectionArena]
    exact forward_nestedArena _ rest

private theorem forward_selectionArena (next : Nat) : (s : GraphQL.Selection) →
    Forward next (selectionArena number next s)
  | .field ⟨_, _, _, _, some set, _⟩ => forward_arena next set
  | .field ⟨_, _, _, _, none, _⟩ | .spread _ => by
    intro i s hs
    cases hs
  | .inline ⟨_, _, set, _⟩ => forward_arena next set

end

/-- An operation goes to the end of its table, its selections to the end of the arena. -/
theorem addDefinition_operation (c : Document) (o : GraphQL.Operation) : addDefinition number c (.operation o) =
    { c with selections := c.selections ++ arena number c.selections.length o.selectionSet
             definitions := c.definitions ++ [.operation c.operations.length]
             operations := c.operations ++ [operation number c.selections.length o] } := rfl

theorem addDefinition_fragment (c : Document) (f : GraphQL.Fragment) : addDefinition number c (.fragment f) =
    { c with selections := c.selections ++ arena number c.selections.length f.selectionSet
             definitions := c.definitions ++ [.fragment c.fragments.length]
             fragments := c.fragments ++ [fragment number c.selections.length f] } := rfl

private theorem strings_addDefinition (c : Document) (x : GraphQL.Definition) :
    (addDefinition number c x).strings = c.strings := by cases x <;> rfl

/-- The table of strings is made before any definition is added. -/
theorem strings_addAll (c : Document) (definitions : List GraphQL.Definition) :
    (definitions.foldl (addDefinition number) c).strings = c.strings := by
  induction definitions generalizing c with
  | nil => rfl
  | cons x rest ih => rw [List.foldl_cons, ih, strings_addDefinition]

/-- The arena only grows at its end. -/
theorem selections_addDefinition (c : Document) (x : GraphQL.Definition) : (addDefinition number c x).selections =
    c.selections ++ arena number c.selections.length x.selectionSet := by cases x <;> rfl

end

end GraphQL.Compact
