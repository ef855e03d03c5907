import GraphQL.Proofs.ValueEquality
import GraphQL.Validation.Uniqueness

/-!
# The order of named items

Two lists of named items agree if they mean the same item by each name (`Named.Agree`). The order of a list without
repeated names does not matter for that (`Named.Agree.of_perm`), and a list has no repeated names exactly where none
are reported (`repeatFindings_eq_nil_iff`).
-/

namespace GraphQL

/-- Two functions that find the same find nothing in the one order of a list if they find nothing in the other. -/
theorem flatMap_eq_nil_of_perm {α β : Type} {xs ys : List α} {f g : α → List β} (h : xs.Perm ys)
    (hfg : f = g) (hxs : xs.flatMap f = []) : ys.flatMap g = [] := by
  subst hfg
  exact ((h.flatMap_right f).symm.trans (.of_eq hxs)).eq_nil

/-- What is looked for is found in any order, if there is only one of it. -/
theorem find?_eq_of_perm {α : Type} {xs ys : List α} {p : α → Bool} (h : xs.Perm ys)
    (hp : ∀ a ∈ xs, ∀ b ∈ xs, p a → p b → a = b) : xs.find? p = ys.find? p := by
  cases hx : xs.find? p with
  | none =>
    have hnone := List.find?_eq_none.1 hx
    exact (List.find?_eq_none.2 fun a ha => hnone a (h.symm.subset ha)).symm
  | some a =>
    have ha := List.find?_some hx
    obtain ⟨b, hb⟩ := Option.isSome_iff_exists.1
      (List.find?_isSome.2 ⟨a, h.subset (List.mem_of_find?_eq_some hx), ha⟩)
    have heq := hp a (List.mem_of_find?_eq_some hx) b (h.symm.subset (List.mem_of_find?_eq_some hb)) ha
      (List.find?_some hb)
    rw [hb, heq]

namespace Named

variable {α : Type} [Named α] {xs ys : List α} {name : String}

/-- A name is in use if and only if the list contains an item called so. -/
theorem mem_names : name ∈ names xs ↔ contains xs name = true := by
  simp [names, contains]

theorem contains_eq_false_iff : contains xs name = false ↔ name ∉ names xs := by
  rw [mem_names, Bool.not_eq_true]

theorem nameOf_of_find? {x : α} (h : find? xs name = some x) : nameOf x = name := by
  simpa using List.find?_some h

/-- An item is found by its name if no other item has it. -/
theorem find?_of_mem (hnames : (names xs).Nodup) {x : α} (hx : x ∈ xs) : find? xs (nameOf x) = some x := by
  obtain ⟨y, hy⟩ := exists_find?_of_contains (mem_names.1 (List.mem_map_of_mem hx))
  obtain rfl := eq_of_nameOf_eq hnames (List.mem_of_find?_eq_some hy) hx (nameOf_of_find? hy)
  exact hy

private theorem contains_append :
    contains (xs ++ ys) name = (contains xs name || contains ys name) := List.any_append ..

/-- No name is repeated if and only if the names are distinct, and none of them is taken. -/
theorem repeats_eq_nil_iff {kept : List α} :
    repeats kept xs = [] ↔ (names xs).Nodup ∧ ∀ x ∈ xs, contains kept (nameOf x) = false := by
  induction xs generalizing kept with
  | nil => simp [repeats, names]
  | cons x xs ih =>
    have hnodup : (names (x :: xs)).Nodup ↔ contains xs (nameOf x) = false ∧ (names xs).Nodup := by
      rw [names, List.map_cons, List.nodup_cons, contains_eq_false_iff, names]
    rw [repeats, hnodup, List.forall_mem_cons]
    split
    · rename_i first hfirst
      have hkept : contains kept (nameOf x) ≠ false := fun h => by
        simp [find?_eq_none_iff.2 h] at hfirst
      simp [hkept]
    · rename_i hnone
      -- `x` is kept from here on, and so it must not come again
      have hagain : (∀ y ∈ xs, contains [x] (nameOf y) = false) ↔ contains xs (nameOf x) = false := by
        simp only [contains, List.any_cons, List.any_nil, Bool.or_false, List.any_eq_false, decide_eq_false_iff_not,
          decide_eq_true_eq]
        exact forall₂_congr fun y hy => not_congr eq_comm
      rw [ih, find?_eq_none_iff.1 hnone, ← hagain]
      simp only [contains_append, Bool.or_eq_false_iff, forall_and]
      exact ⟨fun h => ⟨⟨h.2.2, h.1⟩, trivial, h.2.1⟩, fun h => ⟨h.1.2, h.2.2, h.1.1⟩⟩

/-- The lists mean the same item by each name. -/
def Agree (xs ys : List α) : Prop := ∀ name, find? xs name = find? ys name

namespace Agree

/-- Permuted lists mean the same by each name, if the names are distinct. -/
theorem of_perm (h : xs.Perm ys) (hnames : (names xs).Nodup) : Agree xs ys := by
  refine fun name => find?_eq_of_perm h fun a ha b hb hname hname' => eq_of_nameOf_eq hnames ha hb ?_
  rw [of_decide_eq_true hname, of_decide_eq_true hname']

theorem contains (h : Agree xs ys) (name : String) : contains xs name = contains ys name := by
  rw [Bool.eq_iff_iff, ← Bool.not_eq_false, ← Bool.not_eq_false, ← find?_eq_none_iff, ← find?_eq_none_iff, h name]

theorem without (h : Agree xs ys) (name : String) : Agree (without xs name) (without ys name) := by
  intro other
  by_cases hne : other = name
  · rw [hne, find?_without_self, find?_without_self]
  · rw [find?_without hne, find?_without hne, h other]

end Agree

end Named

/-- The rules on repeated names are silent if and only if the names are distinct. -/
theorem repeatFindings_eq_nil_iff {α : Type} [Named α] {rule : Rule} {message : String → String} {items : List α} :
    repeatFindings rule message items = [] ↔ (Named.names items).Nodup := by
  rw [repeatFindings, List.map_eq_nil_iff, Named.repeats_eq_nil_iff]
  simp [Named.contains]

end GraphQL
