import GraphQL.Proofs.FieldCollection
import GraphQL.Proofs.FieldMerging
import Mathlib.Data.List.ProdSigma

/-!
# The search for conflicts between fields ends

The search compares two fields by comparing the fields below them, with no bound on how far it goes down
(`Searches`). Spreads lead it back to fields that are open already. But each comparison that it expands is recorded
under the places of its fields, and the record covers it from then on, unless it comes without exclusive parents
after it has been expanded with them (`Expanded`). So there are at most two expansions for each pair of places, and
the search ends on all documents, with the conflicts that `fieldMerging` reports (`comparisons_end`).
-/

namespace GraphQL

open Compared

/-- A comparison of two fields that the record did not cover, and whether their parents exclude each other. -/
structure Expansion where
  left : PlacedField
  right : PlacedField
  exclusive : Bool

def Expansion.place (e : Expansion) : Nat × Nat := Compared.place e.left e.right

/-- What a search does: it compares two fields, or it looks for the first conflict among pairs. -/
inductive SearchTask where
  | compare (a b : PlacedField)
  | first (pairs : List FieldPair)

/-- The search for a conflict comes to an end: it begins with the one record and ends with the other, and it expands
these comparisons, in order. -/
inductive Searches (s : Schema) (d : Document) :
    Bool → SearchTask → Compared → Option FieldConflict → Compared → List Expansion → Prop where
  | skipped {exclusive : Bool} {a b : PlacedField} {compared : Compared}
    (h : a.offset = b.offset ∨ compared.covers exclusive a b = true) :
    Searches s d exclusive (.compare a b) compared none compared []
  | own {exclusive : Bool} {a b : PlacedField} {compared : Compared} {reason : FieldConflict}
    (hne : a.offset ≠ b.offset) (hcovers : compared.covers exclusive a b = false)
    (h : ownConflict? s (exclusive || a.parentsDiffer b) a b = some reason) :
    Searches s d exclusive (.compare a b) compared (some reason) (compared.record exclusive a b) [⟨a, b, exclusive⟩]
  | deeper {exclusive : Bool} {a b : PlacedField} {compared compared' : Compared} {result : Option FieldConflict}
    {log : List Expansion} (hne : a.offset ≠ b.offset) (hcovers : compared.covers exclusive a b = false)
    (hown : ownConflict? s (exclusive || a.parentsDiffer b) a b = none)
    (h : Searches s d (exclusive || a.parentsDiffer b) (.first (subPairs s d a b)) (compared.record exclusive a b)
      result compared' log) :
    Searches s d exclusive (.compare a b) compared result compared' (⟨a, b, exclusive⟩ :: log)
  | nil {exclusive : Bool} {compared : Compared} : Searches s d exclusive (.first []) compared none compared []
  | found {exclusive : Bool} {p : FieldPair} {ps : List FieldPair} {compared compared' : Compared}
    {reason : FieldConflict} {log : List Expansion}
    (h : Searches s d exclusive (.compare p.left p.right) compared (some reason) compared' log) :
    Searches s d exclusive (.first (p :: ps)) compared (some (.subfields p.key reason)) compared' log
  | clear {exclusive : Bool} {p : FieldPair} {ps : List FieldPair} {c₁ c₂ c₃ : Compared}
    {result : Option FieldConflict} {log log' : List Expansion}
    (h : Searches s d exclusive (.compare p.left p.right) c₁ none c₂ log)
    (hrest : Searches s d exclusive (.first ps) c₂ result c₃ log') :
    Searches s d exclusive (.first (p :: ps)) c₁ result c₃ (log ++ log')

/-- The comparisons of pairs one after the other, without regard to conflicts that were found, come to an end: they
find these conflicts and expand these comparisons. -/
inductive SearchesAll (s : Schema) (d : Document) :
    List FieldPair → Compared → List (FieldPair × FieldConflict) → List Expansion → Prop where
  | nil {compared : Compared} : SearchesAll s d [] compared [] []
  | found {p : FieldPair} {ps : List FieldPair} {compared compared' : Compared} {reason : FieldConflict}
    {found : List (FieldPair × FieldConflict)} {log log' : List Expansion}
    (h : Searches s d false (.compare p.left p.right) compared (some reason) compared' log)
    (hrest : SearchesAll s d ps compared' found log') :
    SearchesAll s d (p :: ps) compared ((p, reason) :: found) (log ++ log')
  | clear {p : FieldPair} {ps : List FieldPair} {compared compared' : Compared}
    {found : List (FieldPair × FieldConflict)} {log log' : List Expansion}
    (h : Searches s d false (.compare p.left p.right) compared none compared' log)
    (hrest : SearchesAll s d ps compared' found log') : SearchesAll s d (p :: ps) compared found (log ++ log')

/-- The expansions between two records: each one makes the level of its place its own flag, and an earlier one at the
same place has exclusive parents, and a later one has not. -/
structure Expanded (compared compared' : Compared) (log : List Expansion) : Prop where
  level : ∀ q, compared'.level q ≤ compared.level q
  offsets : ∀ e ∈ log, e.left.offset ≠ e.right.offset
  between : ∀ e ∈ log, compared'.level e.place ≤ e.exclusive.toNat ∧ e.exclusive.toNat < compared.level e.place
  falling : log.Pairwise fun e e' => e.place = e'.place → e'.exclusive.toNat < e.exclusive.toNat

namespace Expanded

variable {compared compared' c₁ c₂ c₃ : Compared} {log log' : List Expansion}

private theorem nil (compared : Compared) : Expanded compared compared [] :=
  ⟨fun _ => Nat.le_refl _, by simp, by simp, .nil⟩

/-- Logs of searches that follow each other make one log. -/
private theorem append (h : Expanded c₁ c₂ log) (h' : Expanded c₂ c₃ log') : Expanded c₁ c₃ (log ++ log') where
  level q := Nat.le_trans (h'.level q) (h.level q)
  offsets e he := (List.mem_append.1 he).elim (h.offsets e) (h'.offsets e)
  between e he := by
    rcases List.mem_append.1 he with he | he
    · have hlevel := h'.level e.place
      have hbetween := h.between e he
      omega
    · have hlevel := h.level e.place
      have hbetween := h'.between e he
      omega
  falling := by
    refine List.pairwise_append.2 ⟨h.falling, h'.falling, fun e he e' he' hplace => ?_⟩
    have hbetween := h.between e he
    have hbetween' := h'.between e' he'
    rw [hplace] at hbetween
    omega

/-- One expansion enters its place into the record. -/
private theorem single {exclusive : Bool} {a b : PlacedField} (hne : a.offset ≠ b.offset)
    (hcovers : compared.covers exclusive a b = false) :
    Expanded compared (compared.record exclusive a b) [⟨a, b, exclusive⟩] where
  level := level_record_le hcovers
  offsets := by simpa using hne
  between e he := by
    obtain rfl := List.mem_singleton.1 he
    have hlevel := mt covers_iff.2 (Bool.eq_false_iff.1 hcovers)
    rw [level_record, Expansion.place, if_pos rfl]
    exact ⟨Nat.le_refl _, Nat.lt_of_not_le hlevel⟩
  falling := List.pairwise_singleton ..

end Expanded

section
variable {s : Schema} {d : Document}

/-- Every search only expands comparisons that its record does not cover yet. -/
private theorem Searches.expanded {exclusive : Bool} {task : SearchTask} {compared compared' : Compared}
    {result : Option FieldConflict} {log : List Expansion}
    (h : Searches s d exclusive task compared result compared' log) : Expanded compared compared' log := by
  induction h with
  | skipped | nil => exact .nil _
  | own hne hcovers => exact .single hne hcovers
  | deeper hne hcovers _ _ ih => exact (Expanded.single hne hcovers).append ih
  | found _ ih => exact ih
  | clear _ _ ih ih' => exact ih.append ih'

private theorem SearchesAll.expanded {ps : List FieldPair} {compared : Compared}
    {found : List (FieldPair × FieldConflict)}
    {log : List Expansion} (h : SearchesAll s d ps compared found log) :
    ∃ compared', Expanded compared compared' log := by
  induction h with
  | nil => exact ⟨_, .nil _⟩
  | found h _ ih | clear h _ ih =>
    obtain ⟨compared', ih⟩ := ih
    exact ⟨compared', h.expanded.append ih⟩

/-- The fields of a task are visited. -/
def SearchTask.Visited (s : Schema) (d : Document) : SearchTask → Prop
  | compare a b => a.Visited s d ∧ b.Visited s d
  | first pairs => ∀ p ∈ pairs, p.left.Visited s d ∧ p.right.Visited s d

/-- A search stays among the fields that the document visits. -/
private theorem Searches.visited {exclusive : Bool} {task : SearchTask} {compared compared' : Compared}
    {result : Option FieldConflict} {log : List Expansion}
    (h : Searches s d exclusive task compared result compared' log) (htask : task.Visited s d) :
    ∀ e ∈ log, e.left.Visited s d ∧ e.right.Visited s d := by
  induction h with
  | skipped | nil => simp
  | own => exact List.forall_mem_singleton.2 htask
  | deeper _ _ _ _ ih =>
    exact List.forall_mem_cons.2 ⟨htask, ih fun p hp => visited_of_mem_subPairs htask.1 htask.2 hp⟩
  | found _ ih => exact ih (htask _ (List.mem_cons_self ..))
  | clear _ _ ih ih' =>
    intro e he
    rcases List.mem_append.1 he with he | he
    · exact ih (htask _ (List.mem_cons_self ..)) e he
    · exact ih' (fun p hp => htask p (List.mem_cons_of_mem _ hp)) e he

private theorem SearchesAll.visited {ps : List FieldPair} {compared : Compared}
    {found : List (FieldPair × FieldConflict)}
    {log : List Expansion} (h : SearchesAll s d ps compared found log)
    (hps : ∀ p ∈ ps, p.left.Visited s d ∧ p.right.Visited s d) :
    ∀ e ∈ log, e.left.Visited s d ∧ e.right.Visited s d := by
  induction h with
  | nil => simp
  | found h _ ih | clear h _ ih =>
    obtain ⟨hp, hps⟩ := List.forall_mem_cons.1 hps
    intro e he
    exact (List.mem_append.1 he).elim (h.visited hp e) (ih hps e)

namespace Expanded

variable {compared compared' : Compared} {log : List Expansion}

/-- No two expansions have one place and one flag. -/
theorem nodup (h : Expanded compared compared' log) : (log.map fun e => (e.place, e.exclusive)).Nodup := by
  refine List.pairwise_map.2 (h.falling.imp fun hfalling heq => ?_)
  obtain ⟨hplace, hexclusive⟩ := Prod.mk.inj heq
  have hless := hfalling hplace
  rw [hexclusive] at hless
  omega

/-- Of two expansions of one place, the earlier one has exclusive parents, and the later one has not. -/
theorem exclusive_first (h : Expanded compared compared' log) :
    log.Pairwise fun e e' => e.place = e'.place → e.exclusive = true ∧ e'.exclusive = false := by
  refine h.falling.imp fun {e e'} hfalling hplace => ?_
  have hless := hfalling hplace
  cases he : e.exclusive <;> cases he' : e'.exclusive <;> simp [he, he'] at hless ⊢

private theorem count_key_le (h : Expanded compared compared' log) (key : (Nat × Nat) × Bool) :
    (log.map fun e => (e.place, e.exclusive)).count key ≤ 1 := List.nodup_iff_count.1 h.nodup key

private theorem count_place_eq (log : List Expansion) (q : Nat × Nat) :
    (log.map (·.place)).count q = (log.map fun e => (e.place, e.exclusive)).count (q, true) +
      (log.map fun e => (e.place, e.exclusive)).count (q, false) := by
  induction log with
  | nil => rfl
  | cons e log ih =>
    simp only [List.map_cons, List.count_cons, ih]
    by_cases hplace : e.place = q <;> cases e.exclusive <;> simp [hplace] <;> omega

/-- A place is expanded at most once with each flag. -/
private theorem count_place_le (h : Expanded compared compared' log) (q : Nat × Nat) :
    (log.map (·.place)).count q ≤ 2 := by
  have htrue := h.count_key_le (q, true)
  have hfalse := h.count_key_le (q, false)
  rw [count_place_eq]
  omega

/-- There are no more expansions than pairs of fields, in either order. -/
theorem length_le (h : Expanded compared compared' log)
    (hvisited : ∀ e ∈ log, e.left.Visited s d ∧ e.right.Visited s d) :
    log.length ≤ d.fieldStarts.length * d.fieldStarts.length := by
  have hsubset : (log.map fun e => (e.place, e.exclusive)) ⊆ fieldPlaces d ×ˢ [true, false] := by
    intro key hkey
    obtain ⟨e, he, rfl⟩ := List.mem_map.1 hkey
    obtain ⟨hleft, hright⟩ := hvisited e he
    exact List.mem_product.2 ⟨hleft.place_mem hright (h.offsets e he), by cases e.exclusive <;> simp⟩
  have hle := h.nodup.length_le_of_subset hsubset
  have hpairs := length_orderedPairs d.fieldStarts
  rw [List.length_map, List.length_product, fieldPlaces, List.length_map, List.length_cons, List.length_singleton]
    at hle
  omega

end Expanded

/-! ### The end of the search -/

/-- A run of comparisons ends if each comparison does, as long as enough depth is left. -/
theorem firstConflict_searches {check : PlacedField → PlacedField → Compared → Option FieldConflict × Compared}
    {exclusive : Bool} {depth : Nat} {ps : List FieldPair} {compared compared' : Compared}
    {result : Option FieldConflict} (hdepth : unsettled (fieldPlaces d) compared < depth)
    (hcheck : ∀ p ∈ ps, ∀ c₁ result c₂, unsettled (fieldPlaces d) c₁ < depth →
      check p.left p.right c₁ = (result, c₂) →
      ∃ log, Searches s d exclusive (.compare p.left p.right) c₁ result c₂ log)
    (h : firstConflict check ps compared = (result, compared')) :
    ∃ log, Searches s d exclusive (.first ps) compared result compared' log := by
  induction ps generalizing compared with
  | nil =>
    obtain ⟨rfl, rfl⟩ := Prod.mk.inj h
    exact ⟨[], .nil⟩
  | cons p ps ih =>
    obtain ⟨hp, hps⟩ := List.forall_mem_cons.1 hcheck
    rw [firstConflict] at h
    split at h
    · rename_i hrun
      obtain ⟨rfl, rfl⟩ := Prod.mk.inj h
      obtain ⟨log, hsearch⟩ := hp _ _ _ hdepth hrun
      exact ⟨log, .found hsearch⟩
    · rename_i hrun
      obtain ⟨log, hsearch⟩ := hp _ _ _ hdepth hrun
      obtain ⟨log', hrest⟩ := ih (Nat.lt_of_le_of_lt (unsettled_le hsearch.expanded.level) hdepth) hps h
      exact ⟨log ++ log', .clear hsearch hrest⟩

/-- The comparison of two fields ends, and a depth that exceeds what is left to compare does not cut it short. -/
theorem findConflict_searches {depth : Nat} {exclusive : Bool} {a b : PlacedField} {compared compared' : Compared}
    {result : Option FieldConflict} (ha : a.Visited s d) (hb : b.Visited s d)
    (hdepth : unsettled (fieldPlaces d) compared < depth)
    (h : findConflict s d depth exclusive a b compared = (result, compared')) :
    ∃ log, Searches s d exclusive (.compare a b) compared result compared' log := by
  induction depth generalizing exclusive a b compared compared' result with
  | zero => omega
  | succ depth ih =>
    rw [findConflict] at h
    split at h
    · rename_i hskip
      obtain ⟨rfl, rfl⟩ := Prod.mk.inj h
      simp only [Bool.or_eq_true, decide_eq_true_eq] at hskip
      exact ⟨[], .skipped hskip⟩
    · rename_i hskip
      simp only [Bool.or_eq_true, decide_eq_true_eq, not_or, Bool.not_eq_true] at hskip
      simp only at h
      split at h
      · rename_i hown
        obtain ⟨rfl, rfl⟩ := Prod.mk.inj h
        exact ⟨_, .own hskip.1 hskip.2 hown⟩
      · rename_i hown
        -- recording the pair leaves less to compare, so the depth that is left suffices below it
        have hlt := unsettled_record_lt hskip.2 (ha.place_mem hb hskip.1)
        obtain ⟨log, hsearch⟩ := firstConflict_searches (by omega)
          (fun p hp c₁ result c₂ hc hrun =>
            ih (visited_of_mem_subPairs ha hb hp).1 (visited_of_mem_subPairs ha hb hp).2 hc hrun) h
        exact ⟨_, .deeper hskip.1 hskip.2 hown hsearch⟩

private theorem conflictsAmong_searches {depth : Nat} {ps : List FieldPair} {compared : Compared}
    (hps : ∀ p ∈ ps, p.left.Visited s d ∧ p.right.Visited s d)
    (hdepth : unsettled (fieldPlaces d) compared < depth) :
    ∃ log, SearchesAll s d ps compared (conflictsAmong (findConflict s d depth false) ps compared) log := by
  induction ps generalizing compared with
  | nil => exact ⟨[], .nil⟩
  | cons p ps ih =>
    obtain ⟨hp, hps⟩ := List.forall_mem_cons.1 hps
    rw [conflictsAmong]
    split
    all_goals
      rename_i hrun
      obtain ⟨log, hsearch⟩ := findConflict_searches hp.1 hp.2 hdepth hrun
      obtain ⟨log', hrest⟩ := ih hps (Nat.lt_of_le_of_lt (unsettled_le hsearch.expanded.level) hdepth)
    · exact ⟨log ++ log', .found hsearch hrest⟩
    · exact ⟨log ++ log', .clear hsearch hrest⟩

end

/-- What is reported for a pair that shows a conflict. -/
def mergingFinding (p : FieldPair) (reason : FieldConflict) : Diagnostic :=
  Rule.fieldMerging.finding
    ("Fields " ++ quote p.key ++ " conflict because " ++ reason.message ++
      ". Use different aliases on the fields to fetch both if this was intentional.")
    [p.left.field.span, p.right.field.span]

/-- On any document the search for conflicts ends, with the conflicts that are reported, although nothing bounds how
far it goes down. It expands two fields that start at different places once at most with exclusive parents, and after
that once at most without them, so that there are no more expansions than pairs of fields. Each collection of fields
ends as well, with the fields of the expansion, and enters each name of a fragment once at most. -/
theorem comparisons_end (s : Schema) (d : Document) :
    (∃ found log, SearchesAll s d (documentPairs s d) ∅ found log ∧
      fieldMerging s d = found.map fun (p, reason) => mergingFinding p reason) ∧
    (∀ found log, SearchesAll s d (documentPairs s d) ∅ found log →
      (∀ e ∈ log, e.left.Visited s d ∧ e.right.Visited s d ∧ e.left.offset ≠ e.right.offset) ∧
      (∀ a b, (log.map (·.place)).count (place a b) ≤ 2 ∧
        ∀ exclusive, (log.map fun e => (e.place, e.exclusive)).count (place a b, exclusive) ≤ 1) ∧
      (log.Pairwise fun e e' => e.place = e'.place → e.exclusive = true ∧ e'.exclusive = false) ∧
      log.length ≤ d.fieldStarts.length * d.fieldStarts.length) ∧
    ∀ parent (set : SelectionSet),
      (∃ names, CollectsInto s d parent set.selections [] (s.topFields d parent set) names) ∧
      ∀ fields names, CollectsInto s d parent set.selections [] fields names →
        fields = s.topFields d parent set ∧ names.Nodup := by
  have hpairs : ∀ p ∈ documentPairs s d, p.left.Visited s d ∧ p.right.Visited s d :=
    fun p hp => (mem_documentPairs hp).1.visited
  refine ⟨?_, ?_, fun parent set => ⟨collectsInto_topFields s d parent set, fun fields names h =>
    ⟨h.eq_topFields, by simpa using h.nodup_append .nil⟩⟩⟩
  · obtain ⟨log, hrun⟩ := conflictsAmong_searches hpairs (unsettled_lt_comparisonDepth d)
    exact ⟨_, log, hrun, rfl⟩
  · intro found log hrun
    obtain ⟨compared', hexpanded⟩ := hrun.expanded
    have hvisited := hrun.visited hpairs
    exact ⟨fun e he => ⟨(hvisited e he).1, (hvisited e he).2, hexpanded.offsets e he⟩,
      fun a b => ⟨hexpanded.count_place_le _, fun _ => hexpanded.count_key_le _⟩, hexpanded.exclusive_first,
      hexpanded.length_le hvisited⟩

set_option maxRecDepth 20000 in
/-- A fragment with two fields under one key, each of which spreads it. -/
theorem comparisons_end_of_cycle :
    let s : Schema := ⟨[], [], "Query", none, none⟩
    ∃ d o found log names,
      Document.parse "{ ...F } fragment F on T { a { ...F } a { ...F } }" = .ok d ∧
      d.operations = [o] ∧ SearchesAll s d (documentPairs s d) ∅ found log ∧
      (∀ a b, (log.map (·.place)).count (place a b) ≤ 2) ∧ log.length ≤ 4 ∧
      CollectsInto s d none o.selectionSet.selections [] (s.topFields d none o.selectionSet) names ∧
      names.Nodup := by
  intro s
  obtain ⟨d, hd, hcheck⟩ : ∃ d,
      Document.parse "{ ...F } fragment F on T { a { ...F } a { ...F } }" = .ok d ∧
        (d.operations.length = 1 && d.fieldStarts.length = 2) :=
    Document.exists_of_run String.toList_ofList (by decide +kernel)
  rw [Bool.and_eq_true, decide_eq_true_eq, decide_eq_true_eq] at hcheck
  obtain ⟨o, ho⟩ := List.length_eq_one_iff.1 hcheck.1
  obtain ⟨⟨found, log, hrun, -⟩, hruns, hcollections⟩ := comparisons_end s d
  obtain ⟨-, hcount, -, hlength⟩ := hruns found log hrun
  obtain ⟨⟨names, hcollects⟩, hnames⟩ := hcollections none o.selectionSet
  rw [hcheck.2] at hlength
  exact ⟨d, o, found, log, names, hd, ho, hrun, fun a b => (hcount a b).1, hlength, hcollects,
    (hnames _ names hcollects).2⟩

end GraphQL
