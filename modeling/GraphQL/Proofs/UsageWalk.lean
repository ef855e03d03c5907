import GraphQL.Proofs.DocumentParts
import GraphQL.Proofs.SpreadGraph
import GraphQL.Proofs.Visits
import GraphQL.Validation.VariableFlow
import Mathlib.Data.List.Perm.Basic

/-!
# Variables collected along spreads

The occurrences of an operation are those of its own walk and of the walks over the fragments that it reaches. They can
be collected in one go as well: along the selections of the operation, where each fragment is gone through at the first
of its spreads (`Schema.usageVisits`). Both ways come to the same fields and directives, with the same types and
definitions (`Schema.usageVisits_perm`), and so to the same occurrences (`operationOccurrences_perm`).
-/

namespace GraphQL

/-- A selection with the type it stands on, where this is known. -/
structure PlacedSelection where
  parent : Option TypeDefinition
  selection : Selection

def SelectionSet.placedOn (set : SelectionSet) (parent : Option TypeDefinition) : List PlacedSelection :=
  set.selections.map (⟨parent, ·⟩)

/-- The number of selections in some selections, nested ones included. -/
def selectionCount (placed : List PlacedSelection) : Nat := (placed.map (·.selection.allSelections.length)).sum

private theorem selectionCount_append (placed placed' : List PlacedSelection) :
    selectionCount (placed ++ placed') = selectionCount placed + selectionCount placed' := by
  rw [selectionCount, List.map_append, List.sum_append]
  rfl

private theorem selectionCount_placedOn (set : SelectionSet) (parent : Option TypeDefinition) :
    selectionCount (set.placedOn parent) = set.allSelections.length := by
  rw [selectionCount, SelectionSet.placedOn, List.map_map, SelectionSet.allSelections_eq, List.length_flatMap]
  rfl

private theorem selectionCount_lt_cons (first : PlacedSelection) (rest : List PlacedSelection) :
    selectionCount rest < selectionCount (first :: rest) := by
  have hcount : selectionCount (first :: rest) = first.selection.allSelections.length + selectionCount rest := rfl
  rw [hcount, first.selection.allSelections_eq, List.length_cons]
  omega

private theorem selectionCount_children (s : Selection) (parent parent' : Option TypeDefinition)
    (rest : List PlacedSelection) :
    selectionCount (s.children.toList.flatMap (·.placedOn parent) ++ rest) < selectionCount (⟨parent', s⟩ :: rest) := by
  have hcount : selectionCount (⟨parent', s⟩ :: rest) = s.allSelections.length + selectionCount rest := rfl
  rw [selectionCount_append, hcount, s.allSelections_eq]
  cases s.children with
  | none => simp [selectionCount]
  | some set => simp [selectionCount_placedOn]

namespace Schema

variable (s : Schema)

/-- The visits of fields and directives when each spread is followed in its place. What a selection leads to is done
before the selections behind it; `unentered` holds the fragments not entered yet. -/
def usageVisitsFrom (unentered : List Fragment) : List PlacedSelection → List Visit
  | [] => []
  | ⟨parent, .field f⟩ :: rest =>
    let definition := s.fieldOn? parent f.name.value
    .field parent f definition :: .directives .field f.directives ::
      usageVisitsFrom unentered (f.selectionSet.toList.flatMap (·.placedOn (s.resultType? definition)) ++ rest)
  | ⟨_, .spread spread⟩ :: rest =>
    .directives .fragmentSpread spread.directives ::
      match _h : Named.find? unentered spread.name.value with
      | none => usageVisitsFrom unentered rest
      | some f => .directives .fragmentDefinition f.directives ::
        usageVisitsFrom (Named.without unentered spread.name.value)
          (f.selectionSet.placedOn (s.conditionType? f.condition) ++ rest)
  | ⟨parent, .inline i⟩ :: rest =>
    .directives .inlineFragment i.directives ::
      usageVisitsFrom unentered (i.selectionSet.placedOn (s.inlineType? parent i.condition) ++ rest)
termination_by placed => (unentered.length, selectionCount placed)
decreasing_by
  · exact Prod.Lex.right _ (selectionCount_children (.field f) ..)
  · exact Prod.Lex.right _ (selectionCount_lt_cons ..)
  · exact Prod.Lex.left _ _ (Named.length_without_lt _h)
  · have hcount := selectionCount_children (.inline i) (s.inlineType? parent i.condition) parent rest
    rw [Selection.children, Option.toList_some, List.flatMap_singleton] at hcount
    exact Prod.Lex.right _ hcount

/-- The visits of an operation's directives, and of the fields and directives in it, along its spreads. -/
def usageVisits (d : Document) (o : Operation) : List Visit :=
  .directives o.kind.location o.directives ::
    (o.variableDefinitions.map fun v => .directives .variableDefinition v.directives) ++
    s.usageVisitsFrom d.fragments (o.selectionSet.placedOn (s.root? o.kind))

end Schema

/-- Visits of fields and of directives, which have arguments. -/
def Visit.HasArguments : Visit → Bool
  | .field .. | .directives .. => true
  | _ => false

private theorem visitOccurrences_filter (s : Schema) (visits : List Visit) :
    (visits.filter Visit.HasArguments).flatMap (visitOccurrences s) = visits.flatMap (visitOccurrences s) := by
  induction visits with
  | nil => rfl
  | cons v visits ih =>
    cases hv : v.HasArguments with
    | true => rw [List.filter_cons_of_pos hv, List.flatMap_cons, List.flatMap_cons, ih]
    | false =>
      have hnone : visitOccurrences s v = [] := by
        cases v with
        | field | directives => cases hv
        | _ => rfl
      rw [List.filter_cons_of_neg (by simp [hv]), List.flatMap_cons, hnone, ih, List.nil_append]

namespace Schema

variable {s : Schema}

/-- The visits with arguments when a walk comes to a selection. -/
def argumentVisits (s : Schema) (placed : PlacedSelection) : List Visit :=
  (s.visitSelection placed.parent placed.selection).filter Visit.HasArguments

private theorem filter_visitSet (parent : Option TypeDefinition) (set : SelectionSet) :
    (s.visitSet parent set).filter Visit.HasArguments = (set.placedOn parent).flatMap s.argumentVisits := by
  obtain ⟨items, span⟩ := set
  rw [visitSet, List.filter_cons_of_neg (by simp [Visit.HasArguments]), visitSelections_eq, List.filter_flatMap,
    SelectionSet.placedOn, List.flatMap_map]
  rfl

end Schema

def Selection.spreadName? : Selection → Option String
  | .spread s => some s.name.value
  | _ => none

/-- The names that are spread in a selection, at any depth. -/
def Selection.spreadNames (selection : Selection) : List String :=
  selection.allSelections.filterMap Selection.spreadName?

private theorem SelectionSet.map_name_spreads (set : SelectionSet) :
    set.spreads.map (·.name.value) = set.allSelections.filterMap Selection.spreadName? := by
  rw [spreads, List.map_filterMap]
  refine congrArg (List.filterMap · _) (funext fun inner => ?_)
  cases inner <;> rfl

private theorem SelectionSet.flatMap_spreadNames (set : SelectionSet) (parent : Option TypeDefinition) :
    (set.placedOn parent).flatMap (·.selection.spreadNames) = set.spreads.map (·.name.value) := by
  rw [map_name_spreads, placedOn, List.flatMap_map, allSelections_eq, List.filterMap_flatMap]
  rfl

namespace Selection

private theorem spreadNames_field (f : Field) :
    (field f).spreadNames = f.selectionSet.toList.flatMap fun set => set.spreads.map (·.name.value) := by
  rw [spreadNames, allSelections_eq, List.filterMap_cons_none rfl, List.filterMap_flatMap]
  simp only [SelectionSet.map_name_spreads]
  rfl

private theorem spreadNames_inline (i : InlineFragment) :
    (inline i).spreadNames = i.selectionSet.spreads.map (·.name.value) := by
  rw [spreadNames, allSelections_eq, List.filterMap_cons_none rfl, SelectionSet.map_name_spreads]
  simp [children]

end Selection

namespace Schema

variable {s : Schema}

/-- The visits with arguments when a walk goes through a fragment. -/
def fragmentArgumentVisits (s : Schema) (f : Fragment) : List Visit :=
  (s.visitDefinition (.fragment f)).filter Visit.HasArguments

private theorem fragmentArgumentVisits_eq (f : Fragment) : s.fragmentArgumentVisits f =
    .directives .fragmentDefinition f.directives ::
      (f.selectionSet.placedOn (s.conditionType? f.condition)).flatMap s.argumentVisits := by
  rw [← filter_visitSet]
  rfl

private theorem usageVisitsFrom_spread_of_none {unentered : List Fragment} {parent : Option TypeDefinition}
    {spread : FragmentSpread} {rest : List PlacedSelection} (hf : Named.find? unentered spread.name.value = none) :
    s.usageVisitsFrom unentered (⟨parent, .spread spread⟩ :: rest) =
      .directives .fragmentSpread spread.directives :: s.usageVisitsFrom unentered rest := by
  rw [usageVisitsFrom]
  split <;> simp_all

private theorem usageVisitsFrom_spread_of_some {unentered : List Fragment} {parent : Option TypeDefinition}
    {spread : FragmentSpread} {rest : List PlacedSelection} {f : Fragment}
    (hf : Named.find? unentered spread.name.value = some f) :
    s.usageVisitsFrom unentered (⟨parent, .spread spread⟩ :: rest) =
      .directives .fragmentSpread spread.directives :: .directives .fragmentDefinition f.directives ::
        s.usageVisitsFrom (Named.without unentered spread.name.value)
          (f.selectionSet.placedOn (s.conditionType? f.condition) ++ rest) := by
  rw [usageVisitsFrom]
  split
  · simp_all
  · rename_i g hg
    obtain rfl := Option.some.inj (hf.symm.trans hg)
    rfl

/-- Spreads followed in their places lead to the visits of the selections, and to those of each fragment that the walk
over the fragments comes to. -/
theorem usageVisitsFrom_perm (unentered : List Fragment) (placed : List PlacedSelection) :
    (s.usageVisitsFrom unentered placed).Perm (placed.flatMap s.argumentVisits ++
      (reachedFrom unentered (placed.flatMap (·.selection.spreadNames))).flatMap s.fragmentArgumentVisits) := by
  induction unentered, placed using usageVisitsFrom.induct s with
  | case1 unentered => simp [usageVisitsFrom, reachedFrom]
  | case2 unentered parent f rest definition ih =>
    have hvisits : s.argumentVisits ⟨parent, .field f⟩ = .field parent f definition ::
        .directives .field f.directives ::
          (f.selectionSet.toList.flatMap (·.placedOn (s.resultType? definition))).flatMap s.argumentVisits := by
      rw [argumentVisits, visitSelection_field, List.flatMap_assoc]
      simp only [← filter_visitSet, ← List.filter_flatMap]
      rfl
    have hnames : (f.selectionSet.toList.flatMap (·.placedOn (s.resultType? definition))).flatMap
        (·.selection.spreadNames) = (Selection.field f).spreadNames := by
      rw [List.flatMap_assoc, Selection.spreadNames_field]
      simp only [SelectionSet.flatMap_spreadNames]
    rw [List.flatMap_append, List.flatMap_append, hnames] at ih
    rw [usageVisitsFrom, List.flatMap_cons, List.flatMap_cons, hvisits]
    exact (ih.cons _).cons _
  | case3 unentered parent spread rest ihnone ihsome =>
    have hvisits : s.argumentVisits ⟨parent, .spread spread⟩ = [.directives .fragmentSpread spread.directives] := rfl
    have hnames : (Selection.spread spread).spreadNames = [spread.name.value] := rfl
    rw [List.flatMap_cons, List.flatMap_cons, hvisits, hnames]
    cases hf : Named.find? unentered spread.name.value with
    | none =>
      rw [usageVisitsFrom_spread_of_none hf, List.singleton_append, List.singleton_append,
        reachedFrom_cons_of_none hf]
      exact ihnone.cons _
    | some f =>
      have ih := ihsome f hf
      rw [List.flatMap_append, List.flatMap_append, SelectionSet.flatMap_spreadNames] at ih
      rw [usageVisitsFrom_spread_of_some hf, List.singleton_append, List.singleton_append,
        reachedFrom_cons_of_some hf, List.flatMap_cons, fragmentArgumentVisits_eq]
      -- what is visited in `f` comes before the rest, and not after it
      refine ((ih.cons _).cons _).trans (.cons _ ?_)
      rw [← List.cons_append, ← List.cons_append, List.append_assoc]
      exact List.perm_append_comm_assoc ..
  | case4 unentered parent i rest ih =>
    have hvisits : s.argumentVisits ⟨parent, .inline i⟩ = .directives .inlineFragment i.directives ::
        (i.selectionSet.placedOn (s.inlineType? parent i.condition)).flatMap s.argumentVisits := by
      rw [argumentVisits, visitSelection_inline, ← filter_visitSet]
      rfl
    rw [List.flatMap_append, List.flatMap_append, SelectionSet.flatMap_spreadNames] at ih
    rw [usageVisitsFrom, List.flatMap_cons, List.flatMap_cons, hvisits, Selection.spreadNames_inline]
    exact ih.cons _

theorem usageVisits_perm (d : Document) (o : Operation) : (s.usageVisits d o).Perm
    ((s.visitDefinition (.operation o)).filter Visit.HasArguments ++
      (d.reachedBy o).flatMap s.fragmentArgumentVisits) := by
  have hvariables : (o.variableDefinitions.flatMap fun v =>
      [Visit.variable v, .directives .variableDefinition v.directives]).filter Visit.HasArguments =
        o.variableDefinitions.map fun v => .directives .variableDefinition v.directives := by
    rw [List.filter_flatMap, ← List.flatMap_pure_eq_map]
    rfl
  have hset := s.usageVisitsFrom_perm d.fragments (o.selectionSet.placedOn (s.root? o.kind))
  rw [SelectionSet.flatMap_spreadNames, ← filter_visitSet] at hset
  rw [visitDefinition, List.filter_append, List.filter_cons_of_neg (by simp [Visit.HasArguments]), hvariables,
    List.filter_cons_of_pos rfl, List.append_assoc, usageVisits, List.cons_append]
  -- the directives of the operation come before those of its variables, and not after them
  exact ((hset.append_left _).cons _).trans List.perm_middle.symm

end Schema

theorem operationOccurrences_perm (s : Schema) (d : Document) (o : Operation) :
    ((s.usageVisits d o).flatMap (visitOccurrences s)).Perm (operationOccurrences s d o) := by
  refine ((Schema.usageVisits_perm d o).flatMap_right _).trans (.of_eq ?_)
  rw [List.flatMap_append, visitOccurrences_filter, List.flatMap_assoc, operationOccurrences]
  simp only [Schema.fragmentArgumentVisits, visitOccurrences_filter]
  rfl

end GraphQL
