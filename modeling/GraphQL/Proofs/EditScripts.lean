import GraphQL.Grammar.TypeSystem
import Mathlib.Order.Bounds.Basic
import Mathlib.Order.MinMax

/-!
# The least number of edits

An edit inserts, deletes or replaces one element of a list. The table of `editDistance` has a row for each prefix of
the first list, with the least numbers of edits from it to the prefixes of the second (`EditRow`). Each entry comes
from three others because a run of edits between two lists either keeps or replaces the last element, or it deletes
the one or inserts the other (`EditsIn.cases_concat`). So the last entry is the least number of edits between the
lists, and the place suggested for an unknown one is the first that is one edit away from it at most
(`locations_suggested`).
-/

namespace GraphQL

variable {α : Type}

/-- One element is inserted, deleted or replaced by another one, in front or further on. -/
inductive Edit : List α → List α → Prop where
  | insert (b : α) (as : List α) : Edit as (b :: as)
  | delete (a : α) (as : List α) : Edit (a :: as) as
  | replace {a b : α} (h : a ≠ b) (as : List α) : Edit (a :: as) (b :: as)
  | behind (a : α) {as bs : List α} (h : Edit as bs) : Edit (a :: as) (a :: bs)

/-- So many edits lead from the one list to the other. -/
inductive EditsIn : Nat → List α → List α → Prop where
  | none (as : List α) : EditsIn 0 as as
  | first {n : Nat} {as bs cs : List α} (h : Edit as bs) (hrest : EditsIn n bs cs) : EditsIn (n + 1) as cs

/-- The least number of edits that lead from the one list to the other. -/
def LeastEdits (as bs : List α) (n : Nat) : Prop := IsLeast {n | EditsIn n as bs} n

namespace Edit

variable {as bs : List α}

/-- An edit stays one behind a longer text. -/
private theorem append_left (h : Edit as bs) (cs : List α) : Edit (cs ++ as) (cs ++ bs) := by
  induction cs with
  | nil => exact h
  | cons c cs ih => exact .behind c ih

private theorem append_right (h : Edit as bs) (cs : List α) : Edit (as ++ cs) (bs ++ cs) := by
  induction h with
  | insert b as => exact .insert b _
  | delete a as => exact .delete a _
  | replace h as => exact .replace h _
  | behind a _ ih => exact .behind a ih

/-- An edit read backwards is an edit. -/
private theorem reverse (h : Edit as bs) : Edit as.reverse bs.reverse := by
  induction h with
  | insert b as => simpa using (Edit.insert b []).append_left as.reverse
  | delete a as => simpa using (Edit.delete a []).append_left as.reverse
  | replace h as => simpa using (Edit.replace h []).append_left as.reverse
  | behind a _ ih => simpa using ih.append_right [a]

private theorem ne (h : Edit as bs) : as ≠ bs := by
  induction h with
  | insert b as => exact fun heq => absurd (congrArg List.length heq) (by simp)
  | delete a as => exact fun heq => absurd (congrArg List.length heq) (by simp)
  | replace h as => exact fun heq => h (List.cons.inj heq).1
  | behind a _ ih => exact fun heq => ih (List.cons.inj heq).2

/-- An edit changes the length by one at most. -/
private theorem length_le (h : Edit as bs) : as.length ≤ bs.length + 1 ∧ bs.length ≤ as.length + 1 := by
  induction h with
  | insert b as | delete a as | replace h as => simp only [List.length_cons]; omega
  | behind a _ ih => simp only [List.length_cons]; omega

end Edit

namespace EditsIn

variable {n : Nat} {a b : α} {as bs cs : List α}

private theorem last (h : EditsIn n as bs) (hedit : Edit bs cs) : EditsIn (n + 1) as cs := by
  induction h with
  | none as => exact .first hedit (.none _)
  | first h _ ih => exact .first h (ih hedit)

private theorem map {f : List α → List α} (hf : ∀ as bs, Edit as bs → Edit (f as) (f bs)) (h : EditsIn n as bs) :
    EditsIn n (f as) (f bs) := by
  induction h with
  | none as => exact .none _
  | first h _ ih => exact .first (hf _ _ h) ih

private theorem reverse (h : EditsIn n as bs) : EditsIn n as.reverse bs.reverse := h.map fun _ _ => Edit.reverse

private theorem append_right (h : EditsIn n as bs) (cs : List α) : EditsIn n (as ++ cs) (bs ++ cs) :=
  h.map (f := (· ++ cs)) fun _ _ hedit => hedit.append_right cs

/-- The difference of the lengths is a lower bound for the number of edits. -/
private theorem length_le (h : EditsIn n as bs) : as.length ≤ bs.length + n ∧ bs.length ≤ as.length + n := by
  induction h with
  | none as => simp
  | first h _ ih =>
    have hlength := h.length_le
    omega

private theorem delete_all (as : List α) : EditsIn as.length as [] := by
  induction as with
  | nil => exact .none []
  | cons a as ih => exact .first (.delete a as) ih

private theorem insert_all (bs : List α) : EditsIn bs.length [] bs := by
  induction bs with
  | nil => exact .none []
  | cons b bs ih => exact ih.last (.insert b bs)

private theorem eq_of_zero (h : EditsIn 0 as bs) : as = bs := by
  cases h
  rfl

/-- One step is one edit. -/
private theorem one_iff : EditsIn 1 as bs ↔ Edit as bs := by
  constructor
  · intro h
    cases h with
    | first h hrest => exact hrest.eq_of_zero ▸ h
  · exact fun h => .first h (.none bs)

end EditsIn

namespace LeastEdits

/-- From the empty list all elements are inserted. -/
private theorem nil_left (bs : List α) : LeastEdits [] bs bs.length :=
  ⟨EditsIn.insert_all bs, fun n hn => by simpa using (EditsIn.length_le hn).2⟩

private theorem nil_right (as : List α) : LeastEdits as [] as.length :=
  ⟨EditsIn.delete_all as, fun n hn => by simpa using (EditsIn.length_le hn).1⟩

private theorem concat_nil {as : List α} {n : Nat} (h : LeastEdits as [] n) (a : α) :
    LeastEdits (as ++ [a]) [] (n + 1) := by
  rw [h.unique (nil_right as)]
  simpa using nil_right (as ++ [a])

end LeastEdits

section
variable [DecidableEq α]

/-- The edits it takes to turn one element into another. -/
def replaceCost (a b : α) : Nat := if a = b then 0 else 1

private theorem replaceCost_le (a b : α) : replaceCost a b ≤ 1 := by
  unfold replaceCost
  split <;> omega

/-- A run of edits keeps or replaces the first element, or deletes the one, or inserts the other. -/
theorem EditsIn.cases_cons {n : Nat} {a b : α} {as bs : List α} (h : EditsIn n (a :: as) (b :: bs)) :
    (∃ m, EditsIn m as bs ∧ m + replaceCost a b ≤ n) ∨ (∃ m, EditsIn m as (b :: bs) ∧ m + 1 ≤ n) ∨
      ∃ m, EditsIn m (a :: as) bs ∧ m + 1 ≤ n := by
  induction n using Nat.strong_induction_on generalizing a as with
  | _ n ih =>
    generalize hcs : a :: as = cs at h
    cases h with
    | none =>
      obtain ⟨rfl, rfl⟩ := List.cons.inj hcs
      exact .inl ⟨0, .none as, by simp [replaceCost]⟩
    | @first n _ _ _ hedit hrest =>
      cases hedit with
      | insert c =>
        subst hcs
        rcases ih n (by omega) hrest with ⟨m, hm, hle⟩ | ⟨m, hm, hle⟩ | ⟨m, hm, hle⟩
        · exact .inr (.inr ⟨m, hm, by omega⟩)
        · -- the inserted element is deleted again, so fewer edits do the same
          rcases ih m (by omega) hm with ⟨k, hk, hle'⟩ | ⟨k, hk, hle'⟩ | ⟨k, hk, hle'⟩
          · exact .inl ⟨k, hk, by omega⟩
          · exact .inr (.inl ⟨k, hk, by omega⟩)
          · exact .inr (.inr ⟨k, hk, by omega⟩)
        · exact .inr (.inr ⟨m + 1, .first (.insert c _) hm, by omega⟩)
      | delete =>
        obtain ⟨rfl, rfl⟩ := List.cons.inj hcs
        exact .inr (.inl ⟨n, hrest, by omega⟩)
      | replace hne =>
        obtain ⟨rfl, rfl⟩ := List.cons.inj hcs
        rcases ih n (by omega) hrest with ⟨m, hm, hle⟩ | ⟨m, hm, hle⟩ | ⟨m, hm, hle⟩
        · have hcost := replaceCost_le a b
          exact .inl ⟨m, hm, by omega⟩
        · exact .inr (.inl ⟨m, hm, by omega⟩)
        · exact .inr (.inr ⟨m + 1, .first (.replace hne _) hm, by omega⟩)
      | behind _ h =>
        obtain ⟨rfl, rfl⟩ := List.cons.inj hcs
        rcases ih n (by omega) hrest with ⟨m, hm, hle⟩ | ⟨m, hm, hle⟩ | ⟨m, hm, hle⟩
        · exact .inl ⟨m + 1, .first h hm, by omega⟩
        · exact .inr (.inl ⟨m + 1, .first h hm, by omega⟩)
        · exact .inr (.inr ⟨m + 1, .first (.behind a h) hm, by omega⟩)

/-- Some edits that lead from one list to another either settle the last elements with each other, or delete or insert
one of them. -/
theorem EditsIn.cases_concat {n : Nat} {a b : α} {as bs : List α} (h : EditsIn n (as ++ [a]) (bs ++ [b])) :
    (∃ m, EditsIn m as bs ∧ m + replaceCost a b ≤ n) ∨ (∃ m, EditsIn m as (bs ++ [b]) ∧ m + 1 ≤ n) ∨
      ∃ m, EditsIn m (as ++ [a]) bs ∧ m + 1 ≤ n := by
  have hreverse := h.reverse
  rw [List.reverse_concat, List.reverse_concat] at hreverse
  rcases hreverse.cases_cons with ⟨m, hm, hle⟩ | ⟨m, hm, hle⟩ | ⟨m, hm, hle⟩
  · exact .inl ⟨m, by simpa using hm.reverse, hle⟩
  · exact .inr (.inl ⟨m, by simpa using hm.reverse, hle⟩)
  · exact .inr (.inr ⟨m, by simpa using hm.reverse, hle⟩)

private theorem EditsIn.concat_concat {n : Nat} {as bs : List α} (h : EditsIn n as bs) (a b : α) :
    EditsIn (n + replaceCost a b) (as ++ [a]) (bs ++ [b]) := by
  unfold replaceCost
  split
  · rename_i heq
    exact heq ▸ h.append_right [a]
  · rename_i hne
    exact (h.append_right [a]).last ((Edit.replace hne []).append_left bs)

/-- An entry of the table comes from its three neighbours. -/
theorem LeastEdits.concat {x y z : Nat} {a b : α} {as bs : List α} (hx : LeastEdits as bs x)
    (hy : LeastEdits as (bs ++ [b]) y) (hz : LeastEdits (as ++ [a]) bs z) :
    LeastEdits (as ++ [a]) (bs ++ [b]) (min (min (x + replaceCost a b) (y + 1)) (z + 1)) := by
  constructor
  · have hreplace : EditsIn (x + replaceCost a b) (as ++ [a]) (bs ++ [b]) := EditsIn.concat_concat hx.1 a b
    have hdelete : EditsIn (y + 1) (as ++ [a]) (bs ++ [b]) :=
      .first (by simpa using (Edit.delete a []).append_left as) hy.1
    have hinsert : EditsIn (z + 1) (as ++ [a]) (bs ++ [b]) :=
      EditsIn.last hz.1 (by simpa using (Edit.insert b []).append_left bs)
    rcases min_choice (min (x + replaceCost a b) (y + 1)) (z + 1) with h | h
    · rcases min_choice (x + replaceCost a b) (y + 1) with h' | h'
      · rwa [h, h']
      · rwa [h, h']
    · rwa [h]
  · intro n hn
    rcases EditsIn.cases_concat hn with ⟨m, hm, hle⟩ | ⟨m, hm, hle⟩ | ⟨m, hm, hle⟩
    · have hless := hx.2 hm
      omega
    · have hless := hy.2 hm
      omega
    · have hless := hz.2 hm
      omega

end

/-! ### Rows of the table -/

/-- The least numbers of edits from a list to the prefixes of another, longer and longer from the prefix `done` on. -/
inductive EditEntries (as : List α) : List α → List α → List Nat → Prop where
  | nil (done : List α) : EditEntries as done [] []
  | cons {done : List α} {b : α} {bs : List α} {n : Nat} {row : List Nat} (h : LeastEdits as (done ++ [b]) n)
    (hrest : EditEntries as (done ++ [b]) bs row) : EditEntries as done (b :: bs) (n :: row)

/-- The least numbers of edits from a list to all prefixes of another. -/
inductive EditRow (as bs : List α) : List Nat → Prop where
  | mk {corner : Nat} {above : List Nat} (hcorner : LeastEdits as [] corner) (h : EditEntries as [] bs above) :
    EditRow as bs (corner :: above)

private theorem editEntries_range' (done bs : List α) :
    EditEntries [] done bs (List.range' (done.length + 1) bs.length) := by
  induction bs generalizing done with
  | nil => exact .nil done
  | cons b bs ih =>
    rw [List.length_cons, List.range'_succ]
    exact .cons (by simpa using LeastEdits.nil_left (done ++ [b])) (by simpa using ih (done ++ [b]))

private theorem editRow_range (bs : List α) : EditRow [] bs (List.range (bs.length + 1)) := by
  rw [List.range_eq_range', List.range'_succ]
  exact ⟨LeastEdits.nil_left [], editEntries_range' [] bs⟩

/-- The last entry of a row is the least number of edits to the whole text. -/
private theorem EditEntries.last {as done bs : List α} {n : Nat} {row : List Nat} (h : EditEntries as done bs row)
    (hn : LeastEdits as done n) : LeastEdits as (done ++ bs) ((n :: row).getLastD 0) := by
  induction h generalizing n with
  | nil done => simpa using hn
  | cons h _ ih => simpa using ih h

private theorem EditRow.last {as bs : List α} {row : List Nat} (h : EditRow as bs row) :
    LeastEdits as bs (row.getLastD 0) := by
  obtain ⟨hcorner, h⟩ := h
  exact h.last hcorner

section
variable [DecidableEq α]

private theorem EditEntries.editRow {a : α} {as done bs : List α} {diagonal left : Nat} {above : List Nat}
    (h : EditEntries as done bs above) (hdiagonal : LeastEdits as done diagonal)
    (hleft : LeastEdits (as ++ [a]) done left) :
    EditEntries (as ++ [a]) done bs (editRow a diagonal left bs above) := by
  induction h generalizing diagonal left with
  | nil done => exact .nil done
  | cons h _ ih =>
    have hentry := hdiagonal.concat h hleft
    exact .cons hentry (ih h hentry)

/-- From the row of a list the next row is made, for the list with one element more. -/
private theorem EditRow.next {as bs : List α} {row : List Nat} (h : EditRow as bs row) (a : α) :
    EditRow (as ++ [a]) bs (nextEditRow bs row a) := by
  obtain ⟨hcorner, h⟩ := h
  exact ⟨hcorner.concat_nil a, h.editRow hcorner (hcorner.concat_nil a)⟩

private theorem EditRow.foldl {done bs : List α} {row : List Nat} (h : EditRow done bs row) (as : List α) :
    EditRow (done ++ as) bs (as.foldl (nextEditRow bs) row) := by
  induction as generalizing done row with
  | nil => rwa [List.append_nil]
  | cons a as ih =>
    rw [List.foldl_cons, List.append_cons]
    exact ih (h.next a)

/-- The table ends with the least number of edits. -/
theorem leastEdits_editDistance (as bs : List α) : LeastEdits as bs (editDistance as bs) := by
  have hrow := (editRow_range bs).foldl as
  rw [List.nil_append] at hrow
  exact hrow.last

/-- The distance is one where one edit leads from the one list to the other. -/
theorem editDistance_eq_one_iff {as bs : List α} : editDistance as bs = 1 ↔ Edit as bs := by
  have hleast := leastEdits_editDistance as bs
  constructor
  · intro h
    rw [h] at hleast
    exact EditsIn.one_iff.1 hleast.1
  · intro h
    have hle : editDistance as bs ≤ 1 := hleast.2 (EditsIn.one_iff.2 h)
    have hne : editDistance as bs ≠ 0 := by
      intro hzero
      rw [hzero] at hleast
      exact h.ne (EditsIn.eq_of_zero hleast.1)
    omega

end

namespace DirectiveLocation

private theorem mem_all (place : DirectiveLocation) : place ∈ all := by
  cases place <;> decide

/-- The name of the place is the text in upper case, or one edit away from it. -/
def Near (place : DirectiveLocation) (text : String) : Prop :=
  place.text.toList = text.toList.map Char.toUpper ∨ Edit place.text.toList (text.toList.map Char.toUpper)

private theorem near_iff {place : DirectiveLocation} {text : String} :
    (decide (place.text.toList = text.toList.map Char.toUpper) ||
      decide (editDistance place.text.toList (text.toList.map Char.toUpper) = 1)) = true ↔ place.Near text := by
  rw [Bool.or_eq_true, decide_eq_true_eq, decide_eq_true_eq, editDistance_eq_one_iff, Near]

private theorem suggest?_eq_some_iff {text : String} {place : DirectiveLocation} : suggest? text = some place ↔
    place.Near text ∧ ∃ before after, all = before ++ place :: after ∧ ∀ other ∈ before, ¬other.Near text := by
  unfold suggest?
  rw [List.find?_eq_some_iff_append, near_iff]
  simp only [Bool.not_eq_true', ← Bool.not_eq_true, near_iff]

private theorem suggest?_eq_none_iff {text : String} :
    suggest? text = none ↔ ∀ place : DirectiveLocation, ¬place.Near text := by
  unfold suggest?
  rw [List.find?_eq_none]
  simp only [near_iff, mem_all, forall_const]

end DirectiveLocation

/-- The distance between two texts is the least number of insertions, deletions and replacements of single characters
that turn the one into the other. For the name of a place, the first of the known places is suggested that has this
name in upper case or is one such edit away from it, and none if there is no such place. -/
theorem locations_suggested :
    (∀ a b : String, IsLeast {n | EditsIn n a.toList b.toList} (editDistance a.toList b.toList)) ∧
    (∀ text place, DirectiveLocation.suggest? text = some place ↔ place.Near text ∧
      ∃ before after, DirectiveLocation.all = before ++ place :: after ∧ ∀ other ∈ before, ¬other.Near text) ∧
    ∀ text, DirectiveLocation.suggest? text = none ↔ ∀ place : DirectiveLocation, ¬place.Near text :=
  ⟨fun a b => leastEdits_editDistance a.toList b.toList, fun _ _ => DirectiveLocation.suggest?_eq_some_iff,
    fun _ => DirectiveLocation.suggest?_eq_none_iff⟩

example : DirectiveLocation.suggest? "FIELDS" = some .field := by decide

end GraphQL
