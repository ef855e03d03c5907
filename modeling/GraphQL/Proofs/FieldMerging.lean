import GraphQL.Proofs.Evaluation
import GraphQL.Proofs.ValueEquality
import GraphQL.Proofs.Visits
import GraphQL.Validation.FieldConflict

/-!
# The search for conflicts between fields misses none

`Conflict` says when two fields conflict, whatever has been compared before. The search of `fieldMerging` compares
no pair of fields again that it has compared as strictly before, and it finds a conflict exactly when there is one.
Each place of the record of comparisons has a level that never rises, and where a search found nothing, all that was
recorded has been explored: the pair shows no conflict of its own, and the pairs below it have been recorded as
strictly (`Grows`). A conflict would lead from a recorded pair to another, and so on without end.
-/

namespace GraphQL

/-- Two fields conflict, where `exclusive` tells that their results cannot be of one object. -/
inductive Conflict (s : Schema) (d : Document) : PlacedField → PlacedField → Bool → Prop
  | fields {a b : PlacedField} {exclusive : Bool} (hexclusive : (exclusive || a.parentsDiffer b) = false)
      (h : a.field.name.value ≠ b.field.name.value) : Conflict s d a b exclusive
  | arguments {a b : PlacedField} {exclusive : Bool} (hexclusive : (exclusive || a.parentsDiffer b) = false)
      (h : argumentsEqual a.field.arguments b.field.arguments = false) : Conflict s d a b exclusive
  | types {a b : PlacedField} {exclusive : Bool} {f g : FieldDefinition} (ha : a.definition = some f)
      (hb : b.definition = some g) (h : typesConflict s f.type g.type = true) : Conflict s d a b exclusive
  | subfields {a b : PlacedField} {exclusive : Bool} {x y : SelectionSet} (ha : a.field.selectionSet = some x)
      (hb : b.field.selectionSet = some y) {p q : PlacedField} (hp : p ∈ a.topFields s d x)
      (hq : q ∈ b.topFields s d y) (hne : p ≠ q) (hkey : p.key = q.key)
      (h : Conflict s d p q (exclusive || a.parentsDiffer b)) : Conflict s d a b exclusive

/-- Two fields answer under one key of a selection set of the document. -/
def CollectedTogether (s : Schema) (d : Document) (a b : PlacedField) : Prop :=
  ∃ parent set, .selectionSet parent set ∈ s.visits d ∧ a ∈ s.topFields d parent set ∧
    b ∈ s.topFields d parent set ∧ a.key = b.key

/-- No argument list and no input object of a field of the document repeats a name. -/
def Document.FieldsDistinct (d : Document) : Prop := ∀ f ∈ d.selections.filterMap Selection.field?, f.Distinct

instance (d : Document) : Decidable d.FieldsDistinct := inferInstanceAs (Decidable (∀ f ∈ _, Field.Distinct f))

private theorem PlacedField.parentsDiffer_comm (a b : PlacedField) : a.parentsDiffer b = b.parentsDiffer a := by
  unfold parentsDiffer
  cases a.parent <;> cases b.parent <;> simp [Bool.and_right_comm, eq_comm]

/-- Types conflict both ways or not at all. -/
private theorem typesConflict_comm (s : Schema) (t u : TypeRef) : typesConflict s t u = typesConflict s u t := by
  induction t generalizing u with
  | named a n span => cases u <;> simp [typesConflict, eq_comm, Bool.or_comm]
  | list a n span ih => cases u <;> simp [typesConflict, eq_comm, ih]

/-- Two fields show no conflict of their own if they may answer under one key, the selections below them aside. -/
private theorem ownConflict?_eq_none_iff {s : Schema} {exclusive : Bool} {a b : PlacedField} :
    ownConflict? s exclusive a b = none ↔
      (exclusive = false → a.field.name.value = b.field.name.value ∧
        argumentsEqual a.field.arguments b.field.arguments = true) ∧
      ∀ f g, a.definition = some f → b.definition = some g → typesConflict s f.type g.type = false := by
  unfold ownConflict?
  split
  · rename_i hfields
    simp only [Bool.and_eq_true, Bool.not_eq_true', decide_eq_true_eq] at hfields
    exact ⟨(nomatch ·), fun h => absurd (h.1 hfields.1).1 hfields.2⟩
  · rename_i hfields
    split
    · rename_i harguments
      simp only [Bool.and_eq_true, Bool.not_eq_true'] at harguments
      refine ⟨(nomatch ·), ?_⟩
      intro h
      rw [(h.1 harguments.1).2] at harguments
      cases harguments.2
    · rename_i harguments
      have hown : exclusive = false → a.field.name.value = b.field.name.value ∧
          argumentsEqual a.field.arguments b.field.arguments = true := by
        rintro rfl
        simpa using And.intro hfields harguments
      split
      · rename_i f g ha hb
        split
        · rename_i htypes
          refine ⟨(nomatch ·), ?_⟩
          intro h
          rw [h.2 f g ha hb] at htypes
          cases htypes
        · rename_i htypes
          refine ⟨fun _ => ⟨hown, ?_⟩, fun _ => rfl⟩
          intro f' g' hf hg
          obtain rfl := Option.some.inj (ha.symm.trans hf)
          obtain rfl := Option.some.inj (hb.symm.trans hg)
          exact Bool.eq_false_iff.2 htypes
      · rename_i hnone
        exact ⟨fun _ => ⟨hown, fun f g hf hg => (hnone f g hf hg).elim⟩, fun _ => rfl⟩

private theorem ownConflict?_comm {s : Schema} {exclusive : Bool} {a b : PlacedField} (ha : a.field.Distinct)
    (hb : b.field.Distinct) (h : ownConflict? s exclusive a b = none) : ownConflict? s exclusive b a = none := by
  obtain ⟨hown, htypes⟩ := ownConflict?_eq_none_iff.1 h
  refine ownConflict?_eq_none_iff.2 ⟨?_, ?_⟩
  · intro he
    refine ⟨(hown he).1.symm, ?_⟩
    rw [argumentsEqual_comm hb ha, (hown he).2]
  · intro f g hf hg
    rw [typesConflict_comm, htypes g f hg hf]

/-- What shows as a conflict is one. -/
theorem Conflict.of_ownConflict? {s : Schema} {d : Document} {exclusive : Bool} {a b : PlacedField}
    {reason : FieldConflict} (h : ownConflict? s (exclusive || a.parentsDiffer b) a b = some reason) :
    Conflict s d a b exclusive := by
  unfold ownConflict? at h
  split at h
  · rename_i hfields
    simp only [Bool.and_eq_true, Bool.not_eq_true', decide_eq_true_eq] at hfields
    exact .fields hfields.1 hfields.2
  · split at h
    · rename_i harguments
      simp only [Bool.and_eq_true, Bool.not_eq_true'] at harguments
      exact .arguments harguments.1 harguments.2
    · split at h
      · rename_i f g ha hb
        split at h
        · rename_i htypes
          exact .types ha hb htypes
        · cases h
      · cases h

/-- The keys that are listed are those of the fields. -/
private theorem mem_responseKeys {fields : List PlacedField} {key : String} :
    key ∈ responseKeys fields ↔ ∃ a ∈ fields, a.key = key := by
  simp [responseKeys, List.mem_eraseDups]

private theorem mem_pairsBetween {as bs : List PlacedField} {p : FieldPair} :
    p ∈ pairsBetween as bs ↔ p.left ∈ as ∧ p.right ∈ bs ∧ p.left.key = p.key ∧ p.right.key = p.key := by
  obtain ⟨key, left, right⟩ := p
  simp only [pairsBetween, List.mem_flatMap, List.mem_map, List.mem_filter, mem_responseKeys, decide_eq_true_eq,
    FieldPair.mk.injEq]
  constructor
  · rintro ⟨key', -, a, ⟨ha, hak⟩, b, ⟨hb, hbk⟩, rfl, rfl, rfl⟩
    exact ⟨ha, hb, hak, hbk⟩
  · rintro ⟨ha, hb, hak, hbk⟩
    exact ⟨key, ⟨left, ha, hak⟩, left, ⟨ha, hak⟩, right, ⟨hb, hbk⟩, rfl, rfl, rfl⟩

/-- The pairs below two fields that share a key: a field from under each. -/
theorem mem_subPairs {s : Schema} {d : Document} {a b : PlacedField} {p : FieldPair} :
    p ∈ subPairs s d a b ↔ ∃ x y, a.field.selectionSet = some x ∧ b.field.selectionSet = some y ∧
      p.left ∈ a.topFields s d x ∧ p.right ∈ b.topFields s d y ∧ p.left.key = p.key ∧ p.right.key = p.key := by
  unfold subPairs
  split
  · rename_i x y ha hb
    simp [mem_pairsBetween, ha, hb]
  · rename_i hnone
    refine ⟨(nomatch ·), ?_⟩
    rintro ⟨x, y, ha, hb, -⟩
    exact (hnone x y ha hb).elim

private theorem mem_orderedPairs {α : Type} {l : List α} {a b : α} (h : (a, b) ∈ orderedPairs l) : a ∈ l ∧ b ∈ l := by
  induction l with
  | nil => cases h
  | cons x l ih =>
    rw [orderedPairs] at h
    rcases List.mem_append.1 h with h | h
    · obtain ⟨c, hc, heq⟩ := List.mem_map.1 h
      obtain ⟨rfl, rfl⟩ := Prod.mk.inj heq
      exact ⟨List.mem_cons_self .., List.mem_cons_of_mem _ hc⟩
    · exact ⟨List.mem_cons_of_mem _ (ih h).1, List.mem_cons_of_mem _ (ih h).2⟩

/-- Two entries of a list are a pair in one order or in the other. -/
theorem orderedPairs_of_ne {α : Type} {l : List α} {a b : α} (ha : a ∈ l) (hb : b ∈ l) (hne : a ≠ b) :
    (a, b) ∈ orderedPairs l ∨ (b, a) ∈ orderedPairs l := by
  induction l with
  | nil => cases ha
  | cons x l ih =>
    simp only [orderedPairs, List.mem_append, List.mem_map, Prod.mk.injEq]
    rcases List.mem_cons.1 ha with rfl | ha'
    · rcases List.mem_cons.1 hb with rfl | hb'
      · exact absurd rfl hne
      · exact .inl (.inl ⟨b, hb', rfl, rfl⟩)
    · rcases List.mem_cons.1 hb with rfl | hb'
      · exact .inr (.inl ⟨a, ha', rfl, rfl⟩)
      · exact (ih ha' hb').imp .inr .inr

private theorem mem_pairsWithin {fields : List PlacedField} {p : FieldPair} (h : p ∈ pairsWithin fields) :
    p.left ∈ fields ∧ p.right ∈ fields ∧ p.left.key = p.key ∧ p.right.key = p.key := by
  obtain ⟨key, -, h⟩ := List.mem_flatMap.1 h
  obtain ⟨⟨a, b⟩, hab, rfl⟩ := List.mem_map.1 h
  obtain ⟨ha, hb⟩ := mem_orderedPairs hab
  simp only [List.mem_filter, decide_eq_true_eq] at ha hb
  exact ⟨ha.1, hb.1, ha.2, hb.2⟩

/-- Two fields with one key make a pair, in one of the two orders. -/
private theorem pairsWithin_of_ne {fields : List PlacedField} {a b : PlacedField} (ha : a ∈ fields) (hb : b ∈ fields)
    (hne : a ≠ b) (hkey : a.key = b.key) :
    ⟨a.key, a, b⟩ ∈ pairsWithin fields ∨ ⟨a.key, b, a⟩ ∈ pairsWithin fields := by
  have hkeys := mem_responseKeys.2 ⟨a, ha, rfl⟩
  have hpair := orderedPairs_of_ne (l := fields.filter (·.key = a.key)) (by simp [ha]) (by simp [hb, hkey]) hne
  exact hpair.imp (fun h => List.mem_flatMap.2 ⟨_, hkeys, List.mem_map.2 ⟨_, h, rfl⟩⟩)
    fun h => List.mem_flatMap.2 ⟨_, hkeys, List.mem_map.2 ⟨_, h, rfl⟩⟩

/-! ### Levels of the record -/

namespace Compared

/-- How much is left to compare at a place: both ways, only without exclusion, or nothing. -/
def level (compared : Compared) (place : Nat × Nat) : Nat :=
  match compared[place]? with
  | none => 2
  | some before => before.toNat

private theorem level_empty (place : Nat × Nat) : level ∅ place = 2 := by
  simp [level]

/-- Recording a comparison sets the level of its place and no other. -/
theorem level_record (compared : Compared) (exclusive : Bool) (a b : PlacedField) (q : Nat × Nat) :
    (compared.record exclusive a b).level q = if place a b = q then exclusive.toNat else compared.level q := by
  by_cases hq : place a b = q <;> simp [level, getElem?_record, hq]

/-- A record covers a comparison if nothing that this one would find is left at the place. -/
theorem covers_iff {compared : Compared} {exclusive : Bool} {a b : PlacedField} :
    compared.covers exclusive a b = true ↔ compared.level (place a b) ≤ exclusive.toNat := by
  unfold covers level
  cases compared[place a b]? with
  | none => cases exclusive <;> simp
  | some before => cases before <;> cases exclusive <;> simp

/-- A place of a low level was recorded with a flag. -/
theorem exists_level_eq {compared : Compared} {exclusive : Bool} {place : Nat × Nat}
    (h : compared.level place ≤ exclusive.toNat) :
    ∃ before : Bool, compared.level place = before.toNat ∧ (before = true → exclusive = true) := by
  unfold level at h ⊢
  cases hplace : compared[place]? with
  | none =>
    rw [hplace] at h
    cases exclusive <;> simp at h
  | some before =>
    rw [hplace] at h
    refine ⟨before, rfl, ?_⟩
    intro hbefore
    subst hbefore
    cases exclusive
    · simp at h
    · rfl

/-- The place of two fields does not depend on their order. -/
private theorem place_comm (a b : PlacedField) : place a b = place b a := by
  rw [place, place, Nat.min_comm, Nat.max_comm]

/-- How much is left to compare at some places. -/
def unsettled : List (Nat × Nat) → Compared → Nat
  | [], _ => 0
  | q :: places, compared => compared.level q + unsettled places compared

private theorem unsettled_empty (places : List (Nat × Nat)) : unsettled places ∅ = 2 * places.length := by
  induction places with
  | nil => rfl
  | cons q places ih =>
    rw [unsettled, ih, level_empty, List.length_cons]
    omega

theorem unsettled_le {places : List (Nat × Nat)} {compared compared' : Compared}
    (h : ∀ q, compared'.level q ≤ compared.level q) : unsettled places compared' ≤ unsettled places compared := by
  induction places with
  | nil => exact Nat.le_refl _
  | cons q places ih =>
    have := h q
    rw [unsettled, unsettled]
    omega

/-- Recording a comparison never raises a level. -/
theorem level_record_le {compared : Compared} {exclusive : Bool} {a b : PlacedField}
    (h : compared.covers exclusive a b = false) (q : Nat × Nat) :
    (compared.record exclusive a b).level q ≤ compared.level q := by
  have hlevel := mt covers_iff.2 (Bool.eq_false_iff.1 h)
  rw [level_record]
  split
  · rename_i hq
    rw [← hq]
    omega
  · exact Nat.le_refl _

/-- A comparison that was not covered lowers what is left. -/
theorem unsettled_record_lt {places : List (Nat × Nat)} {compared : Compared} {exclusive : Bool}
    {a b : PlacedField} (h : compared.covers exclusive a b = false) (hmem : place a b ∈ places) :
    unsettled places (compared.record exclusive a b) < unsettled places compared := by
  induction places with
  | nil => cases hmem
  | cons q places ih =>
    have hhead := level_record_le h q
    have htail : unsettled places (compared.record exclusive a b) ≤ unsettled places compared :=
      unsettled_le (level_record_le h)
    rw [unsettled, unsettled]
    rcases List.mem_cons.1 hmem with rfl | hmem
    · have hlevel := mt covers_iff.2 (Bool.eq_false_iff.1 h)
      rw [level_record, if_pos rfl]
      omega
    · have := ih hmem
      omega

end Compared

open Compared

/-- The pairs of places at which two fields of the document start, the smaller place first. -/
def fieldPlaces (d : Document) : List (Nat × Nat) :=
  (orderedPairs d.fieldStarts).map fun (x, y) => (min x y, max x y)

theorem length_orderedPairs {α : Type} (l : List α) : 2 * (orderedPairs l).length ≤ l.length * l.length := by
  induction l with
  | nil => exact Nat.le_refl _
  | cons x l ih =>
    simp only [orderedPairs, List.length_append, List.length_map, List.length_cons]
    have : (l.length + 1) * (l.length + 1) = l.length * l.length + 2 * l.length + 1 := by
      rw [Nat.add_mul, Nat.mul_add, Nat.mul_one, Nat.one_mul]
      omega
    omega

private theorem length_filter_eq {p : Selection → Bool} (h : ∀ selection, p selection = selection.field?.isSome)
    (selections : List Selection) :
    (selections.filter p).length = (selections.filterMap Selection.field?).length := by
  induction selections with
  | nil => rfl
  | cons selection rest ih => cases hf : selection.field? <;> simp [h, hf, ih]

/-- There is less to be compared at the start than the search may go deep. -/
theorem unsettled_lt_comparisonDepth (d : Document) : unsettled (fieldPlaces d) ∅ < comparisonDepth d := by
  have hpairs := length_orderedPairs d.fieldStarts
  rw [Document.fieldStarts, List.length_map] at hpairs
  simp only [comparisonDepth]
  rw [unsettled_empty, fieldPlaces, Document.fieldStarts, List.length_map,
    length_filter_eq fun selection => by cases selection <;> rfl]
  omega

/-- A field that a walk visits where it is placed. -/
def PlacedField.Visited (s : Schema) (d : Document) (p : PlacedField) : Prop :=
  .field p.parent p.field p.definition ∈ s.visits d

/-- No two fields of the document start at one place, and none repeats a name. -/
structure Document.Orderly (d : Document) : Prop where
  starts : d.fieldStarts.Nodup
  distinct : d.FieldsDistinct

section
variable {s : Schema} {d : Document} {a b : PlacedField}

private theorem PlacedField.Visited.mem (ha : a.Visited s d) : a.field ∈ d.selections.filterMap Selection.field? :=
  List.mem_filterMap.2 ⟨_, Schema.field_mem_of_visits ha, rfl⟩

/-- Fields that start at one place are one field. -/
private theorem PlacedField.Visited.eq_of_offset_eq (hd : d.Orderly) (ha : a.Visited s d) (hb : b.Visited s d)
    (h : a.offset = b.offset) : a = b := by
  obtain ⟨parent, f, definition⟩ := a
  obtain ⟨parent', f', definition'⟩ := b
  obtain ⟨rfl, rfl, rfl⟩ := Schema.visit_eq_of_offset_eq hd.starts ha hb h
  rfl

theorem PlacedField.Visited.place_mem (ha : a.Visited s d) (hb : b.Visited s d) (h : a.offset ≠ b.offset) :
    place a b ∈ fieldPlaces d := by
  have hmem {p : PlacedField} (hp : p.Visited s d) : p.offset ∈ d.fieldStarts := List.mem_map_of_mem hp.mem
  rcases orderedPairs_of_ne (hmem ha) (hmem hb) h with hpair | hpair
  · exact List.mem_map.2 ⟨_, hpair, rfl⟩
  · rw [place_comm]
    exact List.mem_map.2 ⟨_, hpair, rfl⟩

theorem PlacedField.Visited.of_topFields (ha : a.Visited s d) {x : SelectionSet}
    (hx : a.field.selectionSet = some x) {p : PlacedField} (hp : p ∈ a.topFields s d x) : p.Visited s d :=
  Schema.visits_of_mem_topFields (Schema.visits_selectionSet ha hx) hp

theorem visited_of_mem_subPairs (ha : a.Visited s d) (hb : b.Visited s d) {p : FieldPair}
    (hp : p ∈ subPairs s d a b) : p.left.Visited s d ∧ p.right.Visited s d := by
  obtain ⟨x, y, hx, hy, hl, hr, -⟩ := mem_subPairs.1 hp
  exact ⟨ha.of_topFields hx hl, hb.of_topFields hy hr⟩

/-- The pair shows no conflict of its own, and the pairs below it have been compared as strictly. -/
structure Explored (s : Schema) (d : Document) (compared : Compared) (exclusive : Bool) (a b : PlacedField) :
    Prop where
  own : ownConflict? s (exclusive || a.parentsDiffer b) a b = none
  below : ∀ p ∈ subPairs s d a b,
    p.left = p.right ∨ compared.covers (exclusive || a.parentsDiffer b) p.left p.right = true

/-- The record has grown, and all that is new in it has been explored. -/
structure Grows (s : Schema) (d : Document) (compared compared' : Compared) : Prop where
  level : ∀ q, compared'.level q ≤ compared.level q
  explored : ∀ q (exclusive : Bool), compared'.level q = exclusive.toNat → compared.level q = exclusive.toNat ∨
    ∃ a b, a.Visited s d ∧ b.Visited s d ∧ place a b = q ∧ Explored s d compared' exclusive a b

private theorem covers_of_level_le {compared compared' : Compared} (h : ∀ q, compared'.level q ≤ compared.level q)
    {exclusive : Bool} (hcovers : compared.covers exclusive a b = true) : compared'.covers exclusive a b = true :=
  covers_iff.2 (Nat.le_trans (h _) (covers_iff.1 hcovers))

/-- What has been explored stays explored as the record grows. -/
private theorem Explored.mono {compared compared' : Compared} {exclusive : Bool}
    (h : Explored s d compared exclusive a b)
    (hlevel : ∀ q, compared'.level q ≤ compared.level q) : Explored s d compared' exclusive a b :=
  ⟨h.own, fun p hp => (h.below p hp).imp_right (covers_of_level_le hlevel)⟩

private theorem Grows.refl (compared : Compared) : Grows s d compared compared :=
  ⟨fun _ => Nat.le_refl _, fun _ _ h => .inl h⟩

private theorem Grows.trans {c₁ c₂ c₃ : Compared} (h : Grows s d c₁ c₂) (h' : Grows s d c₂ c₃) : Grows s d c₁ c₃ where
  level q := Nat.le_trans (h'.level q) (h.level q)
  explored q exclusive hq := by
    rcases h'.explored q exclusive hq with hq | hexplored
    · rcases h.explored q exclusive hq with hq | ⟨a, b, ha, hb, hplace, hexplored⟩
      · exact .inl hq
      · exact .inr ⟨a, b, ha, hb, hplace, hexplored.mono h'.level⟩
    · exact .inr hexplored

/-- A comparison whose pairs below have been compared is explored. -/
theorem Grows.of_record {compared compared' : Compared} {exclusive : Bool} (ha : a.Visited s d)
    (hb : b.Visited s d) (hcovers : compared.covers exclusive a b = false)
    (h : Grows s d (compared.record exclusive a b) compared')
    (hexplored : Explored s d compared' exclusive a b) : Grows s d compared compared' where
  level q := Nat.le_trans (h.level q) (level_record_le hcovers q)
  explored q exclusive' hq := by
    rcases h.explored q exclusive' hq with hq | hexplored'
    · rw [level_record] at hq
      split at hq
      · rename_i hplace
        -- the place of the pair holds the flag it was recorded with
        have heq : exclusive = exclusive' := by cases exclusive <;> cases exclusive' <;> first | rfl | cases hq
        exact .inr ⟨a, b, ha, hb, hplace, heq ▸ hexplored⟩
      · exact .inl hq
    · exact .inr hexplored'

/-! ### Runs of comparisons -/

/-- Comparing the pairs one after the other finds nothing. -/
inductive Clears (check : PlacedField → PlacedField → Compared → Option FieldConflict × Compared) :
    List FieldPair → Compared → Compared → Prop
  | nil {compared : Compared} : Clears check [] compared compared
  | cons {p : FieldPair} {ps : List FieldPair} {c₁ c₂ c₃ : Compared} (h : check p.left p.right c₁ = (none, c₂))
      (hrest : Clears check ps c₂ c₃) : Clears check (p :: ps) c₁ c₃

variable {check : PlacedField → PlacedField → Compared → Option FieldConflict × Compared}

/-- Where no first conflict is found, all pairs have been compared without one. -/
theorem clears_of_firstConflict {ps : List FieldPair} {compared compared' : Compared}
    (h : firstConflict check ps compared = (none, compared')) : Clears check ps compared compared' := by
  induction ps generalizing compared with
  | nil =>
    obtain ⟨-, rfl⟩ := Prod.mk.inj h
    exact .nil
  | cons p ps ih =>
    rw [firstConflict] at h
    split at h
    · cases h
    · rename_i hcheck
      exact .cons hcheck (ih h)

private theorem clears_of_conflictsAmong {ps : List FieldPair} {compared : Compared}
    (h : conflictsAmong check ps compared = []) : ∃ compared', Clears check ps compared compared' := by
  induction ps generalizing compared with
  | nil => exact ⟨compared, .nil⟩
  | cons p ps ih =>
    rw [conflictsAmong] at h
    split at h
    · cases h
    · rename_i hcheck
      obtain ⟨compared', hrest⟩ := ih h
      exact ⟨compared', .cons hcheck hrest⟩

/-- A first conflict comes from one of the pairs. -/
theorem exists_of_firstConflict {ps : List FieldPair} {compared compared' : Compared} {reason : FieldConflict}
    (h : firstConflict check ps compared = (some reason, compared')) :
    ∃ p ∈ ps, ∃ c₁ c₂ reason', check p.left p.right c₁ = (some reason', c₂) := by
  induction ps generalizing compared with
  | nil => cases h
  | cons p ps ih =>
    rw [firstConflict] at h
    split at h
    · rename_i hcheck
      exact ⟨p, List.mem_cons_self .., _, _, _, hcheck⟩
    · obtain ⟨q, hq, hcheck⟩ := ih h
      exact ⟨q, List.mem_cons_of_mem _ hq, hcheck⟩

private theorem exists_of_conflictsAmong {ps : List FieldPair} {compared : Compared} {p : FieldPair}
    {reason : FieldConflict} (h : (p, reason) ∈ conflictsAmong check ps compared) :
    p ∈ ps ∧ ∃ c₁ c₂, check p.left p.right c₁ = (some reason, c₂) := by
  induction ps generalizing compared with
  | nil => cases h
  | cons q ps ih =>
    rw [conflictsAmong] at h
    split at h
    · rename_i hcheck
      rcases List.mem_cons.1 h with heq | h
      · obtain ⟨rfl, rfl⟩ := Prod.mk.inj heq
        exact ⟨List.mem_cons_self .., _, _, hcheck⟩
      · exact ⟨List.mem_cons_of_mem _ (ih h).1, (ih h).2⟩
    · exact ⟨List.mem_cons_of_mem _ (ih h).1, (ih h).2⟩

/-- A run of comparisons grows the record, where each comparison does. -/
theorem Clears.grows {exclusive : Bool} {depth : Nat} {ps : List FieldPair} {compared compared' : Compared}
    (h : Clears check ps compared compared') (hdepth : unsettled (fieldPlaces d) compared < depth)
    (hcheck : ∀ p ∈ ps, ∀ c₁ c₂, unsettled (fieldPlaces d) c₁ < depth → check p.left p.right c₁ = (none, c₂) →
      Grows s d c₁ c₂ ∧ (p.left = p.right ∨ c₂.covers exclusive p.left p.right = true)) :
    Grows s d compared compared' ∧
      ∀ p ∈ ps, p.left = p.right ∨ compared'.covers exclusive p.left p.right = true := by
  induction h with
  | nil => exact ⟨.refl _, by simp⟩
  | cons hrun hrest ih =>
    obtain ⟨hgrows, hcovers⟩ := hcheck _ (List.mem_cons_self ..) _ _ hdepth hrun
    obtain ⟨hgrows', hcovers'⟩ := ih (Nat.lt_of_le_of_lt (unsettled_le hgrows.level) hdepth)
      fun p hp => hcheck p (List.mem_cons_of_mem _ hp)
    exact ⟨hgrows.trans hgrows', List.forall_mem_cons.2
      ⟨hcovers.imp_right (covers_of_level_le hgrows'.level), hcovers'⟩⟩

/-- A search that finds nothing, and goes down far enough, leaves the pair compared and all that is new
explored. -/
theorem findConflict_grows (hd : d.Orderly) {depth : Nat} {exclusive : Bool} {compared compared' : Compared}
    (ha : a.Visited s d) (hb : b.Visited s d) (hdepth : unsettled (fieldPlaces d) compared < depth)
    (h : findConflict s d depth exclusive a b compared = (none, compared')) :
    Grows s d compared compared' ∧ (a = b ∨ compared'.covers exclusive a b = true) := by
  induction depth generalizing exclusive a b compared compared' with
  | zero => omega
  | succ depth ih =>
    rw [findConflict] at h
    split at h
    · rename_i hskip
      obtain ⟨-, rfl⟩ := Prod.mk.inj h
      simp only [Bool.or_eq_true, decide_eq_true_eq] at hskip
      exact ⟨.refl _, hskip.imp_left (ha.eq_of_offset_eq hd hb)⟩
    · rename_i hskip
      simp only [Bool.or_eq_true, decide_eq_true_eq, not_or, Bool.not_eq_true] at hskip
      simp only at h
      split at h
      · cases h
      · rename_i hown
        -- recording the pair leaves less to compare, so the depth that is left suffices below it
        have hlt := unsettled_record_lt hskip.2 (ha.place_mem hb hskip.1)
        obtain ⟨hgrows, hbelow⟩ := (clears_of_firstConflict h).grows (s := s) (d := d) (by omega)
          fun p hp c₁ c₂ hc hcheck =>
            ih (visited_of_mem_subPairs ha hb hp).1 (visited_of_mem_subPairs ha hb hp).2 hc hcheck
        refine ⟨.of_record ha hb hskip.2 hgrows ⟨hown, hbelow⟩, .inr (covers_iff.2 ?_)⟩
        have hlevel := hgrows.level (place a b)
        rwa [level_record, if_pos rfl] at hlevel

/-- What the search finds is a conflict. -/
private theorem findConflict_sound {depth : Nat} {exclusive : Bool} {compared compared' : Compared}
    {reason : FieldConflict} (h : findConflict s d depth exclusive a b compared = (some reason, compared')) :
    a ≠ b ∧ Conflict s d a b exclusive := by
  induction depth generalizing exclusive a b compared compared' reason with
  | zero => cases h
  | succ depth ih =>
    rw [findConflict] at h
    split at h
    · cases h
    · rename_i hskip
      simp only [Bool.or_eq_true, decide_eq_true_eq, not_or] at hskip
      refine ⟨fun heq => hskip.1 (congrArg PlacedField.offset heq), ?_⟩
      simp only at h
      split at h
      · rename_i hown
        exact .of_ownConflict? hown
      · obtain ⟨p, hp, c₁, c₂, reason', hcheck⟩ := exists_of_firstConflict h
        obtain ⟨hne, hconflict⟩ := ih hcheck
        obtain ⟨x, y, hx, hy, hl, hr, hlkey, hrkey⟩ := mem_subPairs.1 hp
        exact .subfields hx hy hl hr hne (hlkey.trans hrkey.symm) hconflict

private theorem covers_comm {compared : Compared} {exclusive : Bool} :
    compared.covers exclusive a b = compared.covers exclusive b a :=
  Bool.eq_iff_iff.2 (by rw [covers_iff, covers_iff, place_comm])

private theorem Explored.swap {compared : Compared} {exclusive : Bool} (hd : d.FieldsDistinct) (ha : a.Visited s d)
    (hb : b.Visited s d) (h : Explored s d compared exclusive b a) : Explored s d compared exclusive a b where
  own := by
    rw [PlacedField.parentsDiffer_comm]
    exact ownConflict?_comm (hd _ hb.mem) (hd _ ha.mem) h.own
  below p hp := by
    obtain ⟨x, y, hx, hy, hl, hr, hlkey, hrkey⟩ := mem_subPairs.1 hp
    rw [PlacedField.parentsDiffer_comm, covers_comm]
    exact (h.below ⟨p.key, p.right, p.left⟩ (mem_subPairs.2 ⟨y, x, hy, hx, hr, hl, hrkey, hlkey⟩)).imp_left Eq.symm

/-- Fields at the same two places are the same two fields. -/
theorem eq_of_place_eq (hd : d.Orderly) {a' b' : PlacedField} (ha : a.Visited s d) (hb : b.Visited s d)
    (ha' : a'.Visited s d) (hb' : b'.Visited s d) (h : place a' b' = place a b) :
    (a' = a ∧ b' = b) ∨ (a' = b ∧ b' = a) := by
  simp only [place, Prod.mk.injEq] at h
  -- a place is the smaller offset and the larger one
  have hoffsets : (a'.offset = a.offset ∧ b'.offset = b.offset) ∨
      (a'.offset = b.offset ∧ b'.offset = a.offset) := by
    omega
  exact hoffsets.imp (fun h => ⟨ha'.eq_of_offset_eq hd ha h.1, hb'.eq_of_offset_eq hd hb h.2⟩)
    fun h => ⟨ha'.eq_of_offset_eq hd hb h.1, hb'.eq_of_offset_eq hd ha h.2⟩

/-- A record in which all is explored covers a pair only if the pair is explored as strictly. -/
theorem Grows.explored_of_covers (hd : d.Orderly) {compared : Compared} (h : Grows s d ∅ compared)
    (ha : a.Visited s d) (hb : b.Visited s d) {exclusive : Bool} (hcovers : compared.covers exclusive a b = true) :
    ∃ before : Bool, (before = true → exclusive = true) ∧ Explored s d compared before a b := by
  obtain ⟨before, hlevel, hbefore⟩ := exists_level_eq (covers_iff.1 hcovers)
  refine ⟨before, hbefore, ?_⟩
  rcases h.explored _ before hlevel with hempty | ⟨a', b', ha', hb', hplace, hexplored⟩
  · rw [level_empty] at hempty
    cases before <;> cases hempty
  · rcases eq_of_place_eq hd ha hb ha' hb' hplace with ⟨rfl, rfl⟩ | ⟨rfl, rfl⟩
    · exact hexplored
    · exact hexplored.swap hd.distinct ha hb

/-- Nothing that has been explored conflicts, for a conflict leads from an explored pair to another. -/
theorem Conflict.not_covers (hd : d.Orderly) {compared : Compared} (hgrows : Grows s d ∅ compared)
    {exclusive : Bool} (h : Conflict s d a b exclusive) (ha : a.Visited s d) (hb : b.Visited s d) :
    compared.covers exclusive a b = false := by
  -- the flag under which the pair was explored excludes less, so its own checks were as strict
  have hexplored {a b : PlacedField} (ha : a.Visited s d) (hb : b.Visited s d) {exclusive : Bool}
      (hcovers : compared.covers exclusive a b = true) : ∃ before : Bool,
      ((exclusive || a.parentsDiffer b) = false → before = false) ∧
      ((before || a.parentsDiffer b) = true → (exclusive || a.parentsDiffer b) = true) ∧
      Explored s d compared before a b := by
    obtain ⟨before, hbefore, hexplored⟩ := hgrows.explored_of_covers hd ha hb hcovers
    refine ⟨before, ?_, ?_, hexplored⟩ <;> cases before <;> simp_all
  induction h with
  | @fields a b exclusive hexclusive hname =>
    apply Bool.eq_false_iff.2
    intro hcovers
    obtain ⟨before, hbefore, -, hexplored⟩ := hexplored ha hb hcovers
    have hown := (ownConflict?_eq_none_iff.1 hexplored.own).1
    rw [hbefore hexclusive] at hown
    rw [Bool.or_eq_false_iff] at hexclusive
    exact hname (hown (by simp [hexclusive.2])).1
  | @arguments a b exclusive hexclusive harguments =>
    apply Bool.eq_false_iff.2
    intro hcovers
    obtain ⟨before, hbefore, -, hexplored⟩ := hexplored ha hb hcovers
    have hown := (ownConflict?_eq_none_iff.1 hexplored.own).1
    rw [hbefore hexclusive] at hown
    rw [Bool.or_eq_false_iff] at hexclusive
    rw [(hown (by simp [hexclusive.2])).2] at harguments
    cases harguments
  | @types a b exclusive f g hf hg htypes =>
    apply Bool.eq_false_iff.2
    intro hcovers
    obtain ⟨before, -, -, hexplored⟩ := hexplored ha hb hcovers
    rw [(ownConflict?_eq_none_iff.1 hexplored.own).2 f g hf hg] at htypes
    cases htypes
  | @subfields a b exclusive x y hx hy p q hp hq hne hkey h ih =>
    apply Bool.eq_false_iff.2
    intro hcovers
    obtain ⟨before, -, hbefore, hexplored⟩ := hexplored ha hb hcovers
    have hbelow := (hexplored.below ⟨p.key, p, q⟩
      (mem_subPairs.2 ⟨x, y, hx, hy, hp, hq, rfl, hkey.symm⟩)).resolve_left hne
    -- the pair below was compared at least as strictly, so it would be covered as well
    have hnot := ih (ha.of_topFields hx hp) (hb.of_topFields hy hq)
    have hle : (before || a.parentsDiffer b).toNat ≤ (exclusive || a.parentsDiffer b).toNat := by
      revert hbefore
      cases before || a.parentsDiffer b <;> cases exclusive || a.parentsDiffer b <;> simp
    exact absurd (covers_iff.2 (Nat.le_trans (covers_iff.1 hbelow) hle)) (Bool.eq_false_iff.1 hnot)

/-- The pairs of a document are of fields collected together under one key. -/
theorem mem_documentPairs {p : FieldPair} (h : p ∈ documentPairs s d) :
    CollectedTogether s d p.left p.right ∧ p.left.key = p.key := by
  obtain ⟨v, hv, hp⟩ := List.mem_flatMap.1 h
  split at hp
  · rename_i parent set
    obtain ⟨hl, hr, hlkey, hrkey⟩ := mem_pairsWithin hp
    exact ⟨⟨parent, set, hv, hl, hr, hlkey.trans hrkey.symm⟩, hlkey⟩
  · cases hp

theorem CollectedTogether.visited (h : CollectedTogether s d a b) : a.Visited s d ∧ b.Visited s d := by
  obtain ⟨parent, set, hset, ha, hb, -⟩ := h
  exact ⟨Schema.visits_of_mem_topFields hset ha, Schema.visits_of_mem_topFields hset hb⟩

/-- Fields that are collected together are compared in one order or in the other. -/
theorem CollectedTogether.mem_documentPairs (h : CollectedTogether s d a b) (hne : a ≠ b) :
    ⟨a.key, a, b⟩ ∈ documentPairs s d ∨ ⟨a.key, b, a⟩ ∈ documentPairs s d := by
  obtain ⟨parent, set, hset, ha, hb, hkey⟩ := h
  exact (pairsWithin_of_ne ha hb hne hkey).imp (fun h => List.mem_flatMap.2 ⟨_, hset, h⟩)
    fun h => List.mem_flatMap.2 ⟨_, hset, h⟩

/-- A reported pair is collected together and conflicts. -/
private theorem conflictsAmong_sound {p : FieldPair} {reason : FieldConflict}
    (h : (p, reason) ∈ conflictsAmong (findConflict s d (comparisonDepth d) false) (documentPairs s d) ∅) :
    CollectedTogether s d p.left p.right ∧ p.left ≠ p.right ∧ Conflict s d p.left p.right false ∧
      p.left.key = p.key := by
  obtain ⟨hmem, c₁, c₂, hcheck⟩ := exists_of_conflictsAmong h
  obtain ⟨hne, hconflict⟩ := findConflict_sound hcheck
  exact ⟨(mem_documentPairs hmem).1, hne, hconflict, (mem_documentPairs hmem).2⟩

/-- The search reports nothing exactly when no two fields collected together conflict. -/
theorem fieldMerging_eq_nil_iff (hd : d.Orderly) :
    fieldMerging s d = [] ↔ ∀ a b, CollectedTogether s d a b → a ≠ b → ¬Conflict s d a b false := by
  constructor
  · intro hnil a b hcollected hne hconflict
    obtain ⟨compared, hclears⟩ := clears_of_conflictsAmong (List.map_eq_nil_iff.1 hnil)
    obtain ⟨hgrows, hcovers⟩ := hclears.grows (s := s) (d := d) (unsettled_lt_comparisonDepth d)
      fun p hp c₁ c₂ hc hcheck =>
        findConflict_grows hd (mem_documentPairs hp).1.visited.1 (mem_documentPairs hp).1.visited.2 hc hcheck
    obtain ⟨ha, hb⟩ := hcollected.visited
    have hnot := hconflict.not_covers hd hgrows ha hb
    -- the run began with an empty record and has covered all pairs of the document
    have hcovered : compared.covers false a b = true := by
      rcases hcollected.mem_documentPairs hne with hmem | hmem
      · exact (hcovers _ hmem).resolve_left hne
      · rw [covers_comm]
        exact (hcovers _ hmem).resolve_left hne.symm
    rw [hnot] at hcovered
    cases hcovered
  · intro hnone
    rw [fieldMerging, List.map_eq_nil_iff]
    apply List.eq_nil_iff_forall_not_mem.2
    intro found hp
    obtain ⟨p, reason⟩ := found
    obtain ⟨hcollected, hne, hconflict, -⟩ := conflictsAmong_sound hp
    exact hnone _ _ hcollected hne hconflict

end

end GraphQL
