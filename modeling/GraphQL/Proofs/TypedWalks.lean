import GraphQL.Proofs.FieldMerging
import GraphQL.Proofs.UsageWalk
import GraphQL.Proofs.WalkOrder

/-!
# The walks over a document agree on types

Fields are come to in three ways: by the walk over the document, along the spreads of an operation when its variables
are collected, and through the selection sets of fields that are compared. Whichever way a field is come to, the walk
comes to it on the same type and with the same definition (`typed_walks_agree`). The walk comes to each field once, so
that no other answer is given for it where fields are told apart by their places, as those of a parsed document are.
-/

namespace GraphQL

/-- A field that the search for conflicts collects: at the top level of a selection set that is visited, or at the top
level of the selection set of a field that is collected, on the type of its results. -/
inductive Collects (s : Schema) (d : Document) : PlacedField → Prop where
  | top {parent : Option TypeDefinition} {set : SelectionSet} {p : PlacedField}
    (hset : .selectionSet parent set ∈ s.visits d) (hp : p ∈ s.topFields d parent set) : Collects s d p
  | inner {a p : PlacedField} {set : SelectionSet} (ha : Collects s d a) (hset : a.field.selectionSet = some set)
    (hp : p ∈ a.topFields s d set) : Collects s d p

section
variable {s : Schema} {d : Document}

private theorem Collects.visited {p : PlacedField} (h : Collects s d p) : p.Visited s d := by
  induction h with
  | top hset hp => exact Schema.visits_of_mem_topFields hset hp
  | inner _ hset hp ih => exact ih.of_topFields hset hp

/-- The pairs that the search compares first are of collected fields. -/
theorem collects_of_mem_documentPairs {pair : FieldPair} (h : pair ∈ documentPairs s d) :
    Collects s d pair.left ∧ Collects s d pair.right := by
  obtain ⟨⟨parent, set, hset, hleft, hright, -⟩, -⟩ := mem_documentPairs h
  exact ⟨.top hset hleft, .top hset hright⟩

private theorem Collects.of_mem_subPairs {a b : PlacedField} (ha : Collects s d a) (hb : Collects s d b)
    {pair : FieldPair}
    (h : pair ∈ subPairs s d a b) : Collects s d pair.left ∧ Collects s d pair.right := by
  obtain ⟨x, y, hx, hy, hleft, hright, -⟩ := mem_subPairs.1 h
  exact ⟨.inner ha hx hleft, .inner hb hy hright⟩

/-- What is come to along the spreads of an operation, the walk over the document comes to as well. -/
theorem Schema.mem_visits_of_mem_usageVisits {o : Operation} (ho : o ∈ d.operations) {v : Visit}
    (h : v ∈ s.usageVisits d o) : v ∈ s.visits d := by
  rcases List.mem_append.1 ((Schema.usageVisits_perm d o).subset h) with h | h
  · exact s.visitDefinition_subset_visits (Document.mem_operations.1 ho) (List.mem_filter.1 h).1
  · obtain ⟨f, hf, h⟩ := List.mem_flatMap.1 h
    have hmem := (Document.mem_reachedBy_iff.1 hf).mem_fragments
    exact s.visitDefinition_subset_visits (Document.mem_fragments.1 hmem) (List.mem_filter.1 h).1

end

/-- Along the spreads of an operation, which leads to the occurrences of its variables, one comes to the fields and
directives that the walk over the document comes to in the operation and in the fragments that it reaches, with the
same types and definitions. The search for conflicts compares collected fields only, which the walk comes to as well,
with the same types and definitions. Where the fields start at different places, the walk answers once for each of
them. It comes to each selection set, selection, variable definition and list of directives of the document once, and
in a parsed document in the order in which they start. -/
theorem typed_walks_agree (s : Schema) (d : Document) :
    (∀ o ∈ d.operations, ((s.usageVisits d o).flatMap (visitOccurrences s)).Perm (operationOccurrences s d o) ∧
      (s.usageVisits d o).Perm ((s.visitDefinition (.operation o)).filter Visit.HasArguments ++
        (d.reachedBy o).flatMap s.fragmentArgumentVisits) ∧
      s.usageVisits d o ⊆ s.visits d) ∧
    (∀ p, Collects s d p → p.Visited s d) ∧
    (∀ pair ∈ documentPairs s d, Collects s d pair.left ∧ Collects s d pair.right) ∧
    (∀ a b, Collects s d a → Collects s d b → ∀ pair ∈ subPairs s d a b,
      Collects s d pair.left ∧ Collects s d pair.right) ∧
    (d.fieldStarts.Nodup → ∀ p q : PlacedField, p.Visited s d → q.Visited s d → p.offset = q.offset → p = q) ∧
    (s.visits d).filterMap Visit.selectionSet? = d.selectionSets ∧
    (s.visits d).filterMap Visit.selection? = d.selections ∧
    (s.visits d).filterMap Visit.variableDefinition? = d.variableDefinitions ∧
    (s.visits d).filterMap Visit.directives? = d.directiveLists ∧
    ∀ source, Document.parse source = .ok d →
      d.fieldStarts.Nodup ∧ ((s.visits d).filterMap Visit.start?).Pairwise (· ≤ ·) := by
  refine ⟨fun o ho => ⟨operationOccurrences_perm s d o, s.usageVisits_perm d o, fun _ =>
    Schema.mem_visits_of_mem_usageVisits ho⟩, fun _ => Collects.visited, fun _ => collects_of_mem_documentPairs,
    fun _ _ ha hb _ => ha.of_mem_subPairs hb, ?_, Schema.visits_selectionSets d, s.visits_selections d,
    Schema.visits_variableDefinitions d, Schema.visits_directiveLists d, fun source h =>
      ⟨Document.fieldStarts_nodup h, Schema.starts_visits_ordered h⟩⟩
  rintro hstarts ⟨parent, f, definition⟩ ⟨parent', f', definition'⟩ hp hq hoffset
  obtain ⟨rfl, rfl, rfl⟩ := Schema.visit_eq_of_offset_eq hstarts hp hq hoffset
  rfl

/-- Whether the document has one operation and one fragment, which is spread in the operation and has the field. -/
def Document.leadsToField (s : Schema) (d : Document) (name : String) : Bool :=
  match d.operations, d.fragments with
  | [o], [f] => f.name.value ∈ o.selectionSet.spreads.map (·.name.value) ∧
      (s.visitDefinition (.fragment f)).any fun
        | .field _ g _ => g.name.value = name
        | _ => false
  | _, _ => false

set_option maxRecDepth 20000 in
/-- A field of a fragment that is spread inside a field, and spreads itself. -/
theorem typed_walks_agree_of_spread :
    let s : Schema := ⟨[], [], "Query", none, none⟩
    ∃ d o parent f definition, Document.parse "\x7b a \x7b ...F \x7d \x7d fragment F on T \x7b b \x7b ...F \x7d \x7d" = .ok d ∧
      d.operations = [o] ∧ f.name.value = "b" ∧ .field parent f definition ∈ s.usageVisits d o ∧
      (∀ q : PlacedField, q.Visited s d → q.offset = f.span.first.offset → q = ⟨parent, f, definition⟩) ∧
      (s.visits d).filterMap Visit.selectionSet? = d.selectionSets ∧ d.selectionSets.length = 4 ∧
      ((s.visits d).filterMap Visit.start?).Pairwise (· ≤ ·) := by
  intro s
  obtain ⟨d, hd, hcheck⟩ : ∃ d,
      Document.parse "\x7b a \x7b ...F \x7d \x7d fragment F on T \x7b b \x7b ...F \x7d \x7d" = .ok d ∧
        (d.leadsToField s "b" && d.selectionSets.length = 4) :=
    Document.exists_of_run String.toList_ofList (by decide +kernel)
  simp only [Document.leadsToField, Bool.and_eq_true] at hcheck
  obtain ⟨hfield, hsets⟩ := hcheck
  split at hfield
  case h_2 => cases hfield
  case h_1 o f ho hf =>
    rw [decide_eq_true_eq] at hfield
    obtain ⟨hspread, hany⟩ := hfield
    obtain ⟨spread, hspread, hname⟩ := List.mem_map.1 hspread
    have hreaches : d.Reaches o f := .spread hspread (by simp [Document.fragment?, hf, hname])
    obtain ⟨v, hv, hb⟩ := List.any_eq_true.1 hany
    cases v with
    | field parent g definition =>
      have hmem : .field parent g definition ∈ s.usageVisits d o :=
        (Schema.usageVisits_perm d o).symm.subset (List.mem_append_right _
          (List.mem_flatMap.2 ⟨f, Document.mem_reachedBy_iff.2 hreaches, List.mem_filter.2 ⟨hv, rfl⟩⟩))
      obtain ⟨husage, -, -, -, honce, hvisits, -, -, -, hparsed⟩ := typed_walks_agree s d
      obtain ⟨hstarts, hordered⟩ := hparsed _ hd
      have hvisited : .field parent g definition ∈ s.visits d := (husage o (by simp [ho])).2.2 hmem
      exact ⟨d, o, parent, g, definition, hd, ho, of_decide_eq_true hb, hmem,
        fun q hq hoffset => honce hstarts q ⟨parent, g, definition⟩ hq hvisited hoffset, hvisits,
        of_decide_eq_true hsets, hordered⟩
    | _ => cases hb

end GraphQL
