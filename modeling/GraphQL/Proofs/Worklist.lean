import GraphQL.Syntax.Named
import Mathlib.Algebra.GroupWithZero.Nat
import Mathlib.Algebra.Order.BigOperators.Group.List
import Mathlib.Algebra.Order.Group.Nat

/-!
# Walks over lists of tasks

The walks over interfaces and over fragments take their tasks from the front of a list, where a task may put further
ones before the rest. Such a walk comes to its end if each task takes at least as much from the work that is left in
the state as it puts on the list: then it does no more tasks than the work and the list amount to
(`DoesTasks.walkWithin_eq`).
-/

namespace GraphQL

/-- What a walk does with one task: what it finds, the state after it, and the tasks that come next. -/
structure WalkStep (σ τ ω : Type) where
  found : List ω
  state : σ
  next : List τ

variable {σ τ ω : Type} {step : σ → τ → WalkStep σ τ ω}

/-- What a walk finds in at most `n` tasks, if none is left after these. -/
def walkWithin (step : σ → τ → WalkStep σ τ ω) : Nat → σ → List τ → Option (List ω)
  | _, _, [] => some []
  | 0, _, _ :: _ => none
  | n + 1, s, x :: xs =>
    (walkWithin step n (step s x).state ((step s x).next ++ xs)).map ((step s x).found ++ ·)

/-- The walk does the tasks one after the other, and those that come of a task before the rest. -/
structure DoesTasks (step : σ → τ → WalkStep σ τ ω) (walk : σ → List τ → List ω) : Prop where
  nil : ∀ s, walk s [] = []
  cons : ∀ s x xs, walk s (x :: xs) = (step s x).found ++ walk (step s x).state ((step s x).next ++ xs)

/-- A walk comes to its end within as many tasks as there are, and work in the state, if no task adds more to the
list than it takes from the work. -/
theorem DoesTasks.walkWithin_eq {walk : σ → List τ → List ω} (h : DoesTasks step walk) {work : σ → Nat}
    (hwork : ∀ s x, work (step s x).state + (step s x).next.length ≤ work s) {n : Nat} {s : σ} {tasks : List τ}
    (hn : tasks.length + work s ≤ n) : walkWithin step n s tasks = some (walk s tasks) := by
  induction n generalizing s tasks with
  | zero =>
    obtain rfl : tasks = [] := List.eq_nil_of_length_eq_zero (by omega)
    rw [walkWithin, h.nil]
  | succ n ih =>
    cases tasks with
    | nil => rw [walkWithin, h.nil]
    | cons x xs =>
      have hless := hwork s x
      rw [List.length_cons] at hn
      rw [walkWithin, ih (by rw [List.length_append]; omega), h.cons, Option.map_some]

/-- What is counted for an item is not counted any more when the items of its name are left out. -/
theorem Named.sum_without_le {α : Type} [Named α] (size : α → Nat) {xs : List α} {name : String} {x : α}
    (h : find? xs name = some x) : size x + ((without xs name).map size).sum ≤ (xs.map size).sum := by
  induction xs with
  | nil => cases h
  | cons y ys ih =>
    by_cases hy : nameOf y = name
    · have hxy : y = x := by simpa [find?, hy] using h
      have hys : without (y :: ys) name = without ys name := by simp [without, hy]
      have hless : ((without ys name).map size).sum ≤ (ys.map size).sum :=
        (List.filter_sublist.map size).sum_le_sum fun _ _ => Nat.zero_le _
      rw [hys, ← hxy, List.map_cons, List.sum_cons]
      omega
    · have hys : find? ys name = some x := by simpa [find?, hy] using h
      have hwithout : without (y :: ys) name = y :: without ys name := by simp [without, hy]
      have hless := ih hys
      rw [hwithout, List.map_cons, List.map_cons, List.sum_cons, List.sum_cons]
      omega

end GraphQL
