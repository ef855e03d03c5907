import GraphQL.Validation.Visit

/-!
# Expansions of selection sets

The fields that a selection set selects at its top level are its own fields and those of its inline fragments and
of the fragments it spreads, at any depth of spreads. A fragment is entered at the first of its spreads only, so
that cyclic fragments do no harm.
-/

namespace GraphQL

/-- A field with the type it is selected on and its definition, where these are known. -/
structure PlacedField where
  parent : Option TypeDefinition
  field : Field
  definition : Option FieldDefinition

/-- What stands at the top level of a selection set once its inline fragments are opened. -/
inductive TopItem where
  | field (placed : PlacedField)
  | spread (name : String)

namespace Schema

mutual

def topItems (s : Schema) (parent : Option TypeDefinition) : List Selection → List TopItem
  | [] => []
  | selection :: rest => s.topItemsOf parent selection ++ s.topItems parent rest

def topItemsOf (s : Schema) (parent : Option TypeDefinition) : Selection → List TopItem
  | .field f => [.field ⟨parent, f, s.fieldOn? parent f.name.value⟩]
  | .spread spread => [.spread spread.name.value]
  | .inline ⟨condition, _, ⟨selections, _⟩, _⟩ => s.topItems (s.inlineType? parent condition) selections

end

def fragmentItems (s : Schema) (f : Fragment) : List TopItem :=
  s.topItems (s.conditionType? f.condition) f.selectionSet.selections

/-- Puts the items of fragments in the place of their first spreads; `unentered` holds the fragments not yet
entered. -/
def expand (s : Schema) (unentered : List Fragment) : List TopItem → List PlacedField
  | [] => []
  | .field placed :: items => placed :: s.expand unentered items
  | .spread name :: items =>
    match _h : Named.find? unentered name with
    | none => s.expand unentered items
    | some f => s.expand (Named.without unentered name) (s.fragmentItems f ++ items)
termination_by items => (unentered.length, items.length)
decreasing_by
  · exact Prod.Lex.right _ (by simp)
  · exact Prod.Lex.right _ (by simp)
  · exact Prod.Lex.left _ _ (Named.length_without_lt _h)

/-- The fields that a selection set on `parent` selects at its top level, fragments opened. -/
def topFields (s : Schema) (d : Document) (parent : Option TypeDefinition) (set : SelectionSet) : List PlacedField :=
  s.expand d.fragments (s.topItems parent set.selections)

end Schema

end GraphQL
