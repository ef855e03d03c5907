import GraphQL.Proofs.Restyle
import GraphQL.Syntax.Equality
import GraphQL.Syntax.Named
import GraphQL.Syntax.Walk
import Mathlib.Data.List.Nodup
import Mathlib.Data.List.Perm.Subperm

/-!
# Equality of values

The normal form of a value has no spans and no forms of strings, and the fields of its input objects stand in the
order of their names. The comparison of input objects looks for each field of the first object in the second. Where no
object repeats a name, this comes down to a permutation of the fields, so that values are equal exactly if they have
one normal form (`Value.equal_iff_normal_eq`). Hence equality is an equivalence there, and so is the comparison of
arguments (`equality_of_normal_forms`).
-/

namespace GraphQL

/-- The item of a list is determined by its name. -/
theorem eq_of_nameOf_eq {α : Type} [Named α] {items : List α} (h : (Named.names items).Nodup) {a b : α}
    (ha : a ∈ items) (hb : b ∈ items) (hname : Named.nameOf a = Named.nameOf b) : a = b := by
  induction items with
  | nil => cases ha
  | cons x items ih =>
    simp only [Named.names, List.map_cons, List.nodup_cons] at h
    rcases List.mem_cons.1 ha with rfl | ha'
    · rcases List.mem_cons.1 hb with rfl | hb'
      · rfl
      · exact absurd (hname ▸ List.mem_map_of_mem hb') h.1
    · rcases List.mem_cons.1 hb with rfl | hb'
      · exact absurd (hname ▸ List.mem_map_of_mem ha') h.1
      · exact ih h.2 ha' hb'

namespace Named

variable {α : Type} [Named α] {xs ys : List α}

/-- Items without repeated names are those of another list of the same length if they are among them. -/
theorem perm_iff_subset (h : (names xs).Nodup) : xs.Perm ys ↔ xs.length = ys.length ∧ xs ⊆ ys := by
  refine ⟨fun hperm => ⟨hperm.length_eq, hperm.subset⟩, ?_⟩
  rintro ⟨hlength, hsubset⟩
  exact (List.subperm_of_subset (List.Nodup.of_map nameOf h) hsubset).perm_of_length_le (Nat.le_of_eq hlength.symm)

/-- The items in the order of their names. -/
def sort (xs : List α) : List α := xs.mergeSort fun a b => nameOf a ≤ nameOf b

private theorem pairwise_sort (xs : List α) : (sort xs).Pairwise fun a b => nameOf a ≤ nameOf b := by
  have hsorted : (sort xs).Pairwise fun a b => decide (nameOf a ≤ nameOf b) = true := by
    refine List.pairwise_mergeSort (fun a b c hab hbc => ?_) (fun a b => ?_) xs
    · rw [decide_eq_true_eq] at hab hbc ⊢
      exact String.le_trans hab hbc
    · rw [Bool.or_eq_true, decide_eq_true_eq, decide_eq_true_eq]
      exact String.le_total ..
  exact hsorted.imp of_decide_eq_true

private theorem sort_eq_iff (h : (names xs).Nodup) : sort xs = sort ys ↔ xs.Perm ys := by
  constructor
  · intro hsort
    exact (List.mergeSort_perm xs _).symm.trans (.trans (.of_eq hsort) (List.mergeSort_perm ys _))
  · intro hperm
    have hsorts : (sort xs).Perm (sort ys) :=
      (List.mergeSort_perm xs _).trans (hperm.trans (List.mergeSort_perm ys _).symm)
    refine hsorts.eq_of_pairwise ?_ (pairwise_sort xs) (pairwise_sort ys)
    intro a b ha hb hab hba
    have hb' := hperm.symm.subset (List.mem_mergeSort.1 hb)
    exact eq_of_nameOf_eq h (List.mem_mergeSort.1 ha) hb' (String.le_antisymm hab hba)

end Named

/-- The fields of an input object. -/
def Value.fields? : Value → Option (List ObjectField)
  | .object fields _ => some fields
  | _ => none

/-- No input object in the value repeats a name. -/
def Value.Distinct (v : Value) : Prop :=
  ∀ fields span, Value.object fields span ∈ v.all → (Named.names fields).Nodup

theorem Value.mem_allOfItems {v : Value} {items : List Value} : v ∈ allOfItems items ↔ ∃ w ∈ items, v ∈ w.all := by
  induction items with
  | nil => simp [allOfItems]
  | cons w items ih => simp [allOfItems, ih]

theorem Value.mem_allOfFields {v : Value} {fields : List ObjectField} :
    v ∈ allOfFields fields ↔ ∃ f ∈ fields, v ∈ f.value.all := by
  induction fields with
  | nil => simp [allOfFields]
  | cons f fields ih => obtain ⟨name, w, span⟩ := f; simp [allOfFields, ih]

private theorem Value.Distinct.of_list {items : List Value} {span : Span} (h : (Value.list items span).Distinct) :
    ∀ v ∈ items, v.Distinct :=
  fun v hv fields span' hmem => h fields span' (List.mem_cons_of_mem _ (Value.mem_allOfItems.2 ⟨v, hv, hmem⟩))

private theorem Value.distinct_object_iff {fields : List ObjectField} {span : Span} :
    (Value.object fields span).Distinct ↔ (Named.names fields).Nodup ∧ ∀ f ∈ fields, f.value.Distinct := by
  constructor
  · intro h
    refine ⟨h fields span (List.mem_cons_self ..), fun f hf fields' span' hmem => ?_⟩
    exact h fields' span' (List.mem_cons_of_mem _ (Value.mem_allOfFields.2 ⟨f, hf, hmem⟩))
  · rintro ⟨hnames, hvalues⟩ fields' span' hmem
    rcases List.mem_cons.1 hmem with heq | hmem
    · cases heq
      exact hnames
    · obtain ⟨f, hf, hmem⟩ := Value.mem_allOfFields.1 hmem
      exact hvalues f hf fields' span' hmem

private theorem Value.distinct_iff {v : Value} : v.Distinct ↔
    ∀ w ∈ v.all, ∀ fields ∈ w.fields?, (Named.names fields).Nodup := by
  constructor
  · intro h w hw fields hfields
    cases w with
    | object fields' span => exact Option.some.inj hfields ▸ h fields' span hw
    | _ => cases hfields
  · exact fun h fields span hmem => h _ hmem fields rfl

instance (v : Value) : Decidable v.Distinct := decidable_of_iff _ Value.distinct_iff.symm

/-! ### Normal forms -/

mutual

/-- The value with the fields of its input objects in the order of their names. -/
def Value.sorted : Value → Value
  | .list items span => .list (sortedItems items) span
  | .object fields span => .object (Named.sort (sortedFields fields)) span
  | v => v

def sortedItems : List Value → List Value
  | [] => []
  | v :: vs => v.sorted :: sortedItems vs

def sortedFields : List ObjectField → List ObjectField
  | [] => []
  | ⟨name, v, span⟩ :: fs => ⟨name, v.sorted, span⟩ :: sortedFields fs

end

/-- The value without spans and forms of strings, with all fields in the order of their names. -/
def Value.normal (v : Value) : Value := (v.restyle .plain).sorted

def ObjectField.normal (f : ObjectField) : ObjectField := ⟨f.name.restyle .plain, f.value.normal, .nowhere⟩

private theorem sortedItems_eq (items : List Value) : sortedItems items = items.map (·.sorted) := by
  induction items with
  | nil => rfl
  | cons v vs ih => rw [sortedItems, List.map_cons, ih]

private theorem sortedFields_eq (fields : List ObjectField) :
    sortedFields fields = fields.map fun f => ⟨f.name, f.value.sorted, f.span⟩ := by
  induction fields with
  | nil => rfl
  | cons f fs ih => obtain ⟨name, v, span⟩ := f; rw [sortedFields, List.map_cons, ih]

namespace Value

private theorem normal_list (items : List Value) (span : Span) :
    (list items span).normal = list (items.map (·.normal)) .nowhere := by
  rw [normal, restyle_list, sorted, sortedItems_eq, List.map_map]
  rfl

private theorem normal_object (fields : List ObjectField) (span : Span) :
    (object fields span).normal = object (Named.sort (fields.map (·.normal))) .nowhere := by
  rw [normal, restyle_object, sorted, sortedFields_eq, List.map_map]
  rfl

end Value

private theorem ObjectField.normal_eq_iff {f g : ObjectField} :
    f.normal = g.normal ↔ Named.nameOf f = Named.nameOf g ∧ f.value.normal = g.value.normal := by
  simp [normal, Name.restyle, Named.nameOf]

private theorem names_map_normal (fields : List ObjectField) :
    Named.names (fields.map (·.normal)) = Named.names fields := by
  rw [Named.names, List.map_map]
  rfl

private theorem fieldsAmong_iff {as bs : List ObjectField} : fieldsAmong as bs = true ↔
    ∀ a ∈ as, ∃ b ∈ bs, Named.nameOf a = Named.nameOf b ∧ a.value.equal b.value = true := by
  induction as with
  | nil => simp [fieldsAmong]
  | cons a as ih => obtain ⟨name, v, span⟩ := a; simp [fieldsAmong, ih, Named.nameOf]

/-- Objects whose fields match both ways have the same sorted fields. -/
theorem sort_normal_eq_iff {as bs : List ObjectField} (has : (Named.names as).Nodup) :
    Named.sort (as.map (·.normal)) = Named.sort (bs.map (·.normal)) ↔ as.length = bs.length ∧
      ∀ a ∈ as, ∃ b ∈ bs, Named.nameOf a = Named.nameOf b ∧ a.value.normal = b.value.normal := by
  rw [← names_map_normal] at has
  rw [Named.sort_eq_iff has, Named.perm_iff_subset has, List.length_map, List.length_map]
  refine and_congr_right fun _ => ?_
  constructor
  · intro hsubset a ha
    obtain ⟨b, hb, heq⟩ := List.mem_map.1 (hsubset (List.mem_map_of_mem ha))
    exact ⟨b, hb, ObjectField.normal_eq_iff.1 heq.symm⟩
  · intro hmatch f hf
    obtain ⟨a, ha, rfl⟩ := List.mem_map.1 hf
    obtain ⟨b, hb, heq⟩ := hmatch a ha
    exact List.mem_map.2 ⟨b, hb, (ObjectField.normal_eq_iff.2 heq).symm⟩

mutual

theorem Value.equal_iff_normal_eq : (v w : Value) → v.Distinct → w.Distinct →
    (v.equal w = true ↔ v.normal = w.normal)
  | .list as _, w, hv, hw => by
    cases w with
    | list bs _ =>
      rw [Value.equal, itemsEqual_iff_normal_eq as bs hv.of_list hw.of_list, Value.normal_list, Value.normal_list]
      simp
    | _ => simp [Value.equal, Value.normal, Value.restyle, Value.sorted]
  | .object as _, w, hv, hw => by
    cases w with
    | object bs _ =>
      obtain ⟨has, hvalues⟩ := Value.distinct_object_iff.1 hv
      obtain ⟨-, hvalues'⟩ := Value.distinct_object_iff.1 hw
      rw [Value.normal_object, Value.normal_object, Value.object.injEq, sort_normal_eq_iff has, Value.equal,
        Bool.and_eq_true, decide_eq_true_eq, fieldsAmong_iff]
      simp only [and_true]
      refine and_congr_right fun _ => forall₂_congr fun a ha => exists_congr fun b => ?_
      exact and_congr_right fun hb => and_congr_right fun _ =>
        fieldEqual_iff_normal_eq as a ha b.value (hvalues a ha) (hvalues' b hb)
    | _ => simp [Value.equal, Value.normal, Value.restyle, Value.sorted]
  | .var _, w, _, _ | .int .., w, _, _ | .float .., w, _, _ | .string _, w, _, _ | .boolean .., w, _, _
  | .null _, w, _, _ | .enum .., w, _, _ => by
    cases w <;> simp [Value.equal, Value.normal, Value.restyle, Value.sorted, VariableUse.restyle, Name.restyle,
      StringLiteral.restyle]

private theorem itemsEqual_iff_normal_eq : (as bs : List Value) → (∀ v ∈ as, v.Distinct) → (∀ v ∈ bs, v.Distinct) →
    (itemsEqual as bs = true ↔ as.map (·.normal) = bs.map (·.normal))
  | [], [], _, _ | [], _ :: _, _, _ | _ :: _, [], _, _ => by simp [itemsEqual]
  | a :: as, b :: bs, ha, hb => by
    obtain ⟨ha, has⟩ := List.forall_mem_cons.1 ha
    obtain ⟨hb, hbs⟩ := List.forall_mem_cons.1 hb
    rw [itemsEqual, Bool.and_eq_true, Value.equal_iff_normal_eq a b ha hb, itemsEqual_iff_normal_eq as bs has hbs,
      List.map_cons, List.map_cons, List.cons.injEq]

private theorem fieldEqual_iff_normal_eq :
    (as : List ObjectField) → ∀ a ∈ as, ∀ w : Value, a.value.Distinct → w.Distinct →
    (a.value.equal w = true ↔ a.value.normal = w.normal)
  | [], _, ha => nomatch ha
  | ⟨name, v, span⟩ :: as, a, ha => by
    rcases List.mem_cons.1 ha with rfl | ha
    · exact fun w hv hw => v.equal_iff_normal_eq w hv hw
    · exact fieldEqual_iff_normal_eq as a ha

end

/-- Equality of values is an equivalence where no input object repeats a name. -/
theorem Value.equal_equivalence : Equivalence fun v w : {v : Value // v.Distinct} => v.1.equal w.1 = true where
  refl v := (v.1.equal_iff_normal_eq v.1 v.2 v.2).2 rfl
  symm {v w} h := (w.1.equal_iff_normal_eq v.1 w.2 v.2).2 ((v.1.equal_iff_normal_eq w.1 v.2 w.2).1 h).symm
  trans {u v w} huv hvw := (u.1.equal_iff_normal_eq w.1 u.2 w.2).2
    (((u.1.equal_iff_normal_eq v.1 u.2 v.2).1 huv).trans ((v.1.equal_iff_normal_eq w.1 v.2 w.2).1 hvw))

/-- No argument list and no input object of a field repeats a name. -/
structure Field.Distinct (f : Field) : Prop where
  arguments : (Named.names f.arguments).Nodup
  values : ∀ a ∈ f.arguments, a.value.Distinct

instance (f : Field) : Decidable f.Distinct :=
  decidable_of_iff ((Named.names f.arguments).Nodup ∧ ∀ a ∈ f.arguments, a.value.Distinct)
    ⟨fun h => ⟨h.1, h.2⟩, fun h => ⟨h.1, h.2⟩⟩

/-- No two arguments have one name, and no input object in them repeats a name. -/
def DistinctArguments (as : List Argument) : Prop := (Named.names as).Nodup ∧ ∀ a ∈ as, a.value.Distinct

/-- The input object with the arguments as its fields. -/
def argumentObject (as : List Argument) : Value := .object (as.map fun a => ⟨a.name, a.value, a.span⟩) .nowhere

private theorem argumentObject_distinct {as : List Argument} (h : DistinctArguments as) :
    (argumentObject as).Distinct := by
  rw [argumentObject, Value.distinct_object_iff, List.forall_mem_map, Named.names, List.map_map]
  exact h

/-- Arguments are compared as the fields of input objects. -/
theorem argumentsEqual_eq (as bs : List Argument) :
    argumentsEqual as bs = (argumentObject as).equal (argumentObject bs) := by
  rw [Bool.eq_iff_iff, argumentObject, argumentObject, Value.equal, Bool.and_eq_true, decide_eq_true_eq,
    fieldsAmong_iff]
  simp [argumentsEqual, Named.nameOf]

private theorem argumentsEqual_equivalence :
    Equivalence fun as bs : {as : List Argument // DistinctArguments as} => argumentsEqual as.1 bs.1 = true := by
  simp only [argumentsEqual_eq]
  exact InvImage.equivalence _ (fun as : {as : List Argument // DistinctArguments as} =>
    (⟨argumentObject as.1, argumentObject_distinct as.2⟩ : {v : Value // v.Distinct})) Value.equal_equivalence

/-- Equality of arguments is symmetric for fields that repeat no names. -/
theorem argumentsEqual_comm {f g : Field} (hf : f.Distinct) (hg : g.Distinct) :
    argumentsEqual f.arguments g.arguments = argumentsEqual g.arguments f.arguments := by
  have hsymm {f g : Field} (hf : f.Distinct) (hg : g.Distinct)
      (h : argumentsEqual f.arguments g.arguments = true) : argumentsEqual g.arguments f.arguments = true :=
    argumentsEqual_equivalence.symm (x := ⟨f.arguments, hf.arguments, hf.values⟩)
      (y := ⟨g.arguments, hg.arguments, hg.values⟩) h
  exact Bool.eq_iff_iff.2 ⟨hsymm hf hg, hsymm hg hf⟩

/-- Values in which no input object repeats a name are equal exactly if they are the same once spans and forms of
strings are dropped and all fields are sorted by name. On such values equality is reflexive, symmetric and transitive,
and so it is on lists of arguments with such values and without repeated names. -/
theorem equality_of_normal_forms :
    (∀ v w : Value, v.Distinct → w.Distinct → (v.equal w = true ↔ v.normal = w.normal)) ∧
    (Equivalence fun v w : {v : Value // v.Distinct} => v.1.equal w.1 = true) ∧
    Equivalence fun as bs : {as : List Argument // DistinctArguments as} => argumentsEqual as.1 bs.1 = true :=
  ⟨Value.equal_iff_normal_eq, Value.equal_equivalence, argumentsEqual_equivalence⟩

/-- Objects in another order inside a list, with a block string for a quoted one and other spans. -/
theorem equality_of_normal_forms_of_objects :
    let name (text : String) : Name := ⟨text, .nowhere⟩
    let there : Span := .emptyAt ⟨0, 4, 4, 4⟩
    let v : Value := .list [.object [⟨name "b", .string ⟨"x", false, there⟩, there⟩,
      ⟨name "a", .object [⟨name "c", .null there, there⟩] there, there⟩] there] there
    let w : Value := .list [.object [⟨name "a", .object [⟨name "c", .null .nowhere, .nowhere⟩] .nowhere, .nowhere⟩,
      ⟨name "b", .string ⟨"x", true, .nowhere⟩, .nowhere⟩] .nowhere] .nowhere
    v.Distinct ∧ w.Distinct ∧ v.equal w = true ∧ v.normal = w.normal := by
  intro name there v w
  have hv : v.Distinct := by decide
  have hw : w.Distinct := by decide
  have hequal : v.equal w = true := by decide
  exact ⟨hv, hw, hequal, (equality_of_normal_forms.1 v w hv hw).1 hequal⟩

/-- Objects that repeat a name may be equal in one order only. -/
example :
    let field (name : String) : ObjectField := ⟨⟨name, .nowhere⟩, .null .nowhere, .nowhere⟩
    let v : Value := .object [field "a", field "a"] .nowhere
    let w : Value := .object [field "a", field "b"] .nowhere
    v.equal w = true ∧ w.equal v = false := by decide

end GraphQL
