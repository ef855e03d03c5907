import GraphQL.Syntax.TypeSystem

/-!
# Named items

Lists of definitions, arguments and the like are looked up by name, where the first item with a name counts. The
later ones of a name are its repeats.
-/

namespace GraphQL

/-- Things that have a name, and a place in a document where a repeat of the name is pointed out. -/
class Named (α : Type) where
  nameOf : α → String
  spanOf : α → Span

instance : Named Name := ⟨Name.value, Name.span⟩

instance : Named Argument := ⟨(·.name.value), (·.name.span)⟩

instance : Named ObjectField := ⟨(·.name.value), (·.name.span)⟩

instance : Named Directive := ⟨(·.name.value), Directive.span⟩

instance : Named VariableDefinition := ⟨(·.name.value), VariableDefinition.variableSpan⟩

instance : Named Fragment := ⟨(·.name.value), Fragment.span⟩

instance : Named InputValueDefinition := ⟨(·.name.value), InputValueDefinition.span⟩

instance : Named FieldDefinition := ⟨(·.name.value), FieldDefinition.span⟩

instance : Named EnumValueDefinition := ⟨(·.name.value), EnumValueDefinition.span⟩

instance : Named TypeDefinition := ⟨(·.name.value), TypeDefinition.span⟩

instance : Named DirectiveDefinition := ⟨(·.name.value), DirectiveDefinition.span⟩

namespace Named

variable {α : Type} [Named α]

/-- The first item with the name. -/
def find? (xs : List α) (name : String) : Option α := xs.find? (nameOf · = name)

def contains (xs : List α) (name : String) : Bool := xs.any (nameOf · = name)

def names (xs : List α) : List String := xs.map nameOf

/-- The items that have another name. -/
def without (xs : List α) (name : String) : List α := xs.filter (nameOf · ≠ name)

theorem length_without_lt {xs : List α} {name : String} {x : α} (h : find? xs name = some x) :
    (without xs name).length < xs.length := by
  have hname := List.find?_some h
  refine List.length_filter_lt_length_iff_exists.2 ⟨x, List.mem_of_find?_eq_some h, ?_⟩
  simpa using hname

theorem find?_eq_none_iff {xs : List α} {name : String} : find? xs name = none ↔ contains xs name = false := by
  simp [find?, contains]

theorem exists_find?_of_contains {xs : List α} {name : String} (h : contains xs name) :
    ∃ x, find? xs name = some x := by
  cases hx : find? xs name with
  | some x => exact ⟨x, rfl⟩
  | none => simp [find?_eq_none_iff.1 hx] at h

theorem find?_without {xs : List α} {name other : String} (h : other ≠ name) :
    find? (without xs name) other = find? xs other := by
  rw [find?, find?, without, List.find?_filter]
  refine congrArg (List.find? · xs) (funext fun x => ?_)
  by_cases hx : nameOf x = other <;> simp [hx, h]

theorem contains_without {xs : List α} {name other : String} :
    contains (without xs name) other = (contains xs other && other ≠ name) := by
  rw [Bool.eq_iff_iff]
  simp only [contains, without, List.any_filter, List.any_eq_true, Bool.and_eq_true, decide_eq_true_eq]
  constructor
  · rintro ⟨x, hx, hne, rfl⟩
    exact ⟨⟨x, hx, rfl⟩, hne⟩
  · rintro ⟨⟨x, hx, rfl⟩, hne⟩
    exact ⟨x, hx, hne, rfl⟩

theorem find?_without_self (xs : List α) (name : String) : find? (without xs name) name = none := by
  rw [find?_eq_none_iff, contains_without]
  simp

theorem find?_of_without {xs : List α} {name other : String} {x : α} (h : find? (without xs name) other = some x) :
    other ≠ name ∧ find? xs other = some x := by
  have hne : other ≠ name := by
    rintro rfl
    rw [find?_without_self] at h
    cases h
  rw [find?_without hne] at h
  exact ⟨hne, h⟩

/-- The items of a list that are the first of their name, where `kept` has come before. -/
def fresh (kept : List α) : List α → List α
  | [] => []
  | x :: xs => if contains kept (nameOf x) then fresh kept xs else x :: fresh (kept ++ [x]) xs

/-- The other items, each with the first one of its name. -/
def repeats (kept : List α) : List α → List (α × α)
  | [] => []
  | x :: xs => match find? kept (nameOf x) with
    | some first => (x, first) :: repeats kept xs
    | none => repeats (kept ++ [x]) xs

end Named

end GraphQL
