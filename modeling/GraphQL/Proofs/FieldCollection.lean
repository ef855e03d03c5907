import GraphQL.Proofs.Visits

/-!
# The recursion that collects fields

Fields are collected selection by selection. A spread is skipped if its name has been entered before; otherwise the
name is entered, and the fields of the first fragment of the name are collected on the way (`CollectsInto`). This
recursion comes to an end on all documents, as the fragments not entered yet become fewer (`exists_collectsInto`), it
enters each name once (`CollectsInto.nodup`), and what it collects are the fields of the expansion
(`CollectsInto.eq_topFields`).
-/

namespace GraphQL

/-- Collecting the fields of some selections comes to an end, where the names `before` have been entered already: it
collects the fields, in order, and enters the names. -/
inductive CollectsInto (s : Schema) (d : Document) :
    Option TypeDefinition → List Selection → List String → List PlacedField → List String → Prop where
  | nil {parent : Option TypeDefinition} {before : List String} : CollectsInto s d parent [] before [] []
  | field {parent : Option TypeDefinition} {f : Field} {rest : List Selection} {before : List String}
    {fields : List PlacedField} {names : List String} (hrest : CollectsInto s d parent rest before fields names) :
    CollectsInto s d parent (.field f :: rest) before (⟨parent, f, s.fieldOn? parent f.name.value⟩ :: fields) names
  | again {parent : Option TypeDefinition} {spread : FragmentSpread} {rest : List Selection} {before : List String}
    {fields : List PlacedField} {names : List String} (hname : spread.name.value ∈ before)
    (hrest : CollectsInto s d parent rest before fields names) :
    CollectsInto s d parent (.spread spread :: rest) before fields names
  | unknown {parent : Option TypeDefinition} {spread : FragmentSpread} {rest : List Selection} {before : List String}
    {fields : List PlacedField} {names : List String} (hname : spread.name.value ∉ before)
    (hf : d.fragment? spread.name.value = none)
    (hrest : CollectsInto s d parent rest (before ++ [spread.name.value]) fields names) :
    CollectsInto s d parent (.spread spread :: rest) before fields (spread.name.value :: names)
  | spread {parent : Option TypeDefinition} {spread : FragmentSpread} {f : Fragment} {rest : List Selection}
    {before : List String} {fields fields' : List PlacedField} {names names' : List String}
    (hname : spread.name.value ∉ before) (hf : d.fragment? spread.name.value = some f)
    (hinner : CollectsInto s d (s.conditionType? f.condition) f.selectionSet.selections
      (before ++ [spread.name.value]) fields names)
    (hrest : CollectsInto s d parent rest (before ++ spread.name.value :: names) fields' names') :
    CollectsInto s d parent (.spread spread :: rest) before (fields ++ fields') (spread.name.value :: names ++ names')
  | inline {parent : Option TypeDefinition} {i : InlineFragment} {rest : List Selection} {before : List String}
    {fields fields' : List PlacedField} {names names' : List String}
    (hinner : CollectsInto s d (s.inlineType? parent i.condition) i.selectionSet.selections before fields names)
    (hrest : CollectsInto s d parent rest (before ++ names) fields' names') :
    CollectsInto s d parent (.inline i :: rest) before (fields ++ fields') (names ++ names')

/-- The fragments whose names have not been entered. -/
def Document.unentered (d : Document) (before : List String) : List Fragment :=
  d.fragments.filter fun f => f.name.value ∉ before

namespace Document

variable {d : Document} {before : List String} {name : String}

private theorem unentered_nil (d : Document) : d.unentered [] = d.fragments := by simp [unentered]

private theorem unentered_append (d : Document) (before names : List String) :
    d.unentered (before ++ names) = (d.unentered before).filter fun f => f.name.value ∉ names := by
  simp only [unentered, List.filter_filter, List.mem_append, not_or, Bool.decide_and, Bool.and_comm]

private theorem unentered_concat (d : Document) (before : List String) (name : String) :
    d.unentered (before ++ [name]) = Named.without (d.unentered before) name := by
  simp only [unentered_append, List.mem_singleton, Named.without, Named.nameOf]

/-- A fragment is among those not entered until its name is. -/
private theorem find?_unentered (d : Document) (before : List String) (name : String) :
    Named.find? (d.unentered before) name = if name ∈ before then none else d.fragment? name := by
  split
  · rename_i hname
    refine List.find?_eq_none.2 fun f hf heq => ?_
    obtain ⟨-, hnot⟩ := List.mem_filter.1 hf
    rw [← of_decide_eq_true heq] at hname
    exact of_decide_eq_true hnot hname
  · rename_i hname
    rw [Named.find?, unentered, List.find?_filter, fragment?]
    refine congrArg (List.find? · d.fragments) (funext fun f => ?_)
    by_cases hf : f.name.value = name <;> simp [Named.nameOf, hf, hname]

private theorem unentered_concat_of_none (hf : d.fragment? name = none) :
    d.unentered (before ++ [name]) = d.unentered before := by
  rw [unentered_append, List.filter_eq_self]
  intro f hf'
  have hne := List.find?_eq_none.1 hf f (List.mem_filter.1 hf').1
  simpa using hne

private theorem length_unentered_append_le (d : Document) (before names : List String) :
    (d.unentered (before ++ names)).length ≤ (d.unentered before).length := by
  rw [unentered_append]
  exact List.length_filter_le ..

/-- Entering the name of a fragment leaves fewer of them. -/
private theorem length_unentered_concat_lt {f : Fragment} (hname : name ∉ before) (hf : d.fragment? name = some f) :
    (d.unentered (before ++ [name])).length < (d.unentered before).length := by
  rw [unentered_concat]
  exact Named.length_without_lt (by rw [find?_unentered, if_neg hname, hf])

end Document

/-- Collecting fields comes to an end: an inline fragment is smaller than the selections it stands in, and a fragment
that is spread is entered for the first time. -/
theorem exists_collectsInto (s : Schema) (d : Document) (parent : Option TypeDefinition) :
    (items : List Selection) → (before : List String) →
    ∃ fields names, CollectsInto s d parent items before fields names
  | [], _ => ⟨[], [], .nil⟩
  | .field f :: rest, before => by
    obtain ⟨fields, names, hrest⟩ := exists_collectsInto s d parent rest before
    exact ⟨_, _, .field hrest⟩
  | .spread spread :: rest, before => by
    by_cases hname : spread.name.value ∈ before
    · obtain ⟨fields, names, hrest⟩ := exists_collectsInto s d parent rest before
      exact ⟨_, _, .again hname hrest⟩
    · cases hf : d.fragment? spread.name.value with
      | none =>
        have hle := d.length_unentered_append_le before [spread.name.value]
        obtain ⟨fields, names, hrest⟩ := exists_collectsInto s d parent rest (before ++ [spread.name.value])
        exact ⟨_, _, .unknown hname hf hrest⟩
      | some f =>
        have hlt := Document.length_unentered_concat_lt hname hf
        obtain ⟨fields, names, hinner⟩ := exists_collectsInto s d (s.conditionType? f.condition)
          f.selectionSet.selections (before ++ [spread.name.value])
        have hle := d.length_unentered_append_le before (spread.name.value :: names)
        obtain ⟨fields', names', hrest⟩ := exists_collectsInto s d parent rest
          (before ++ spread.name.value :: names)
        exact ⟨_, _, .spread hname hf hinner hrest⟩
  | .inline ⟨condition, directives, ⟨selections, span⟩, span'⟩ :: rest, before => by
    obtain ⟨fields, names, hinner⟩ := exists_collectsInto s d (s.inlineType? parent condition) selections before
    have hle := d.length_unentered_append_le before names
    obtain ⟨fields', names', hrest⟩ := exists_collectsInto s d parent rest (before ++ names)
    exact ⟨_, _, .inline hinner hrest⟩
termination_by items before => ((d.unentered before).length, sizeOf items)
decreasing_by
  all_goals
    simp_wf
    omega

section
variable {s : Schema} {d : Document} {parent : Option TypeDefinition} {items : List Selection}
  {before names : List String} {fields : List PlacedField}

/-- No name is entered twice, and none that was entered before. -/
theorem CollectsInto.nodup_append (h : CollectsInto s d parent items before fields names) (hbefore : before.Nodup) :
    (before ++ names).Nodup := by
  have hconcat {before : List String} {name : String} (hname : name ∉ before) (hbefore : before.Nodup) :
      (before ++ [name]).Nodup := by
    refine List.nodup_append.2 ⟨hbefore, by simp, ?_⟩
    rintro _ hmem _ hother rfl
    exact hname (List.mem_singleton.1 hother ▸ hmem)
  induction h with
  | nil => simpa using hbefore
  | field _ ih | again _ _ ih => exact ih hbefore
  | unknown hname _ _ ih => simpa using ih (hconcat hname hbefore)
  | spread hname _ _ _ ih ih' => simpa using ih' (by simpa using ih (hconcat hname hbefore))
  | inline _ _ ih ih' => simpa using ih' (ih hbefore)

/-- What is collected is what the expansion of the items begins with. -/
theorem CollectsInto.expand_append (h : CollectsInto s d parent items before fields names) (more : List TopItem) :
    s.expand (d.unentered before) (s.topItems parent items ++ more) =
      fields ++ s.expand (d.unentered (before ++ names)) more := by
  induction h generalizing more with
  | nil => simp [Schema.topItems]
  | field _ ih =>
    rw [Schema.topItems, Schema.topItemsOf, List.append_assoc, List.singleton_append, Schema.expand, ih]
    rfl
  | again hname _ ih =>
    rw [Schema.topItems, Schema.topItemsOf, List.append_assoc, List.singleton_append,
      Schema.expand_spread_of_none (by rw [Document.find?_unentered, if_pos hname]), ih]
  | unknown hname hf _ ih =>
    -- no fragment has the name, so nothing changes when it is entered
    rw [Schema.topItems, Schema.topItemsOf, List.append_assoc, List.singleton_append,
      Schema.expand_spread_of_none (by rw [Document.find?_unentered, if_neg hname, hf]),
      ← Document.unentered_concat_of_none hf, ih, List.append_assoc, List.singleton_append]
  | spread hname hf _ _ ih ih' =>
    rw [Schema.topItems, Schema.topItemsOf, List.append_assoc, List.singleton_append,
      Schema.expand_spread_of_some (by rw [Document.find?_unentered, if_neg hname, hf]),
      ← Document.unentered_concat, Schema.fragmentItems, ih, List.append_assoc, List.singleton_append, ih',
      List.append_assoc, List.append_assoc]
  | @inline _ i _ _ _ _ _ _ _ _ ih ih' =>
    obtain ⟨condition, directives, ⟨selections, span⟩, span'⟩ := i
    rw [Schema.topItems, Schema.topItemsOf, List.append_assoc, ih, ih', List.append_assoc, List.append_assoc]

/-- The fields collected at the top level of a selection set are those of its expansion. -/
theorem CollectsInto.eq_topFields {set : SelectionSet} (h : CollectsInto s d parent set.selections [] fields names) :
    fields = s.topFields d parent set := by
  have hexpand := h.expand_append []
  rw [Document.unentered_nil, List.append_nil, Schema.expand, List.append_nil] at hexpand
  exact hexpand.symm

/-- The fields at the top level are those that some collecting without a bound comes to. -/
theorem collectsInto_topFields (s : Schema) (d : Document) (parent : Option TypeDefinition) (set : SelectionSet) :
    ∃ names, CollectsInto s d parent set.selections [] (s.topFields d parent set) names := by
  obtain ⟨fields, names, h⟩ := exists_collectsInto s d parent set.selections []
  exact ⟨names, h.eq_topFields ▸ h⟩

end

end GraphQL
