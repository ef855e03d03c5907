import GraphQL.Proofs.Arena
import GraphQL.Proofs.CompactSpans
import GraphQL.Proofs.Restyle
import GraphQL.Syntax.Print

/-!
# What the style of a document leaves alone

The canonical layout of a document does not depend on its style, as long as each string keeps the text that is
printed for it (`Document.text_restyle`). The compact form takes its spans from the document and depends on the style
through nothing else (`Compact.Document.ofDocument_restyle`).
-/

namespace GraphQL

open Layout

/-- Each string keeps the text that is printed for it. -/
def Restyle.KeepsText (r : Restyle) : Prop := ∀ l, literalText (l.restyle r) = literalText l

variable {r : Restyle}

mutual

/-- A value is printed the same in another style that keeps the text of strings. -/
theorem Value.text_restyle (hr : r.KeepsText) : (v : Value) → (v.restyle r).text literalText = v.text literalText
  | .string l => hr l
  | .list items _ => by simp only [Value.restyle, Value.text, Value.itemTexts_restyle hr items]
  | .object fields _ => by simp only [Value.restyle, Value.text, Value.fieldTexts_restyle hr fields]
  | .var _ | .int .. | .float .. | .boolean .. | .null _ | .enum .. => rfl

private theorem Value.itemTexts_restyle (hr : r.KeepsText) : (vs : List Value) →
    itemTexts literalText (restyleItems r vs) = itemTexts literalText vs
  | [] => rfl
  | v :: vs => by simp only [restyleItems, itemTexts, v.text_restyle hr, Value.itemTexts_restyle hr vs]

private theorem Value.fieldTexts_restyle (hr : r.KeepsText) : (fs : List ObjectField) →
    fieldTexts literalText (restyleFields r fs) = fieldTexts literalText fs
  | [] => rfl
  | ⟨name, v, span⟩ :: fs => by
    simp only [restyleFields, fieldTexts, v.text_restyle hr, Value.fieldTexts_restyle hr fs, Name.restyle]

end

private theorem TypeRef.print_restyle (t : TypeRef) : (t.restyle r).print = t.print := by
  induction t with
  | named => rfl
  | list element nullable span ih => rw [restyle, print, print, ih]

private theorem argumentTexts_restyle (hr : r.KeepsText) (arguments : List Argument) :
    (arguments.map (·.restyle r)).map (·.text) = arguments.map (·.text) := by
  rw [List.map_map]
  apply List.map_congr_left
  intro a _
  simp only [Function.comp_apply, Argument.text, Argument.restyle, a.value.text_restyle hr, Name.restyle]

private theorem directivesText_restyle (hr : r.KeepsText) (directives : List Directive) :
    directivesText (directives.map (·.restyle r)) = directivesText directives := by
  rw [directivesText, directivesText, List.map_map]
  refine congrArg _ (List.map_congr_left ?_)
  intro d _
  simp only [Function.comp_apply, Directive.text, Directive.restyle, argumentTexts_restyle hr, Name.restyle]

theorem VariableDefinition.text_restyle (hr : r.KeepsText) (v : VariableDefinition) :
    (v.restyle r).text = v.text := by
  simp only [text, restyle, TypeRef.print_restyle, directivesText_restyle hr, Name.restyle, Option.map_map,
    Function.comp_def, Value.text_restyle hr]

private theorem headText_restyle (hr : r.KeepsText) (aliasName : Option Name) (name : Name)
    (arguments : List Argument) :
    Field.headText (aliasName.map (·.restyle r)) (name.restyle r) (arguments.map (·.restyle r)) =
      Field.headText aliasName name arguments := by
  simp only [Field.headText, argumentTexts_restyle hr, Option.map_map, Function.comp_def, Name.restyle]

mutual

/-- A selection set is printed the same in another style that keeps the text of strings. -/
theorem SelectionSet.text_restyle (hr : r.KeepsText) : (set : SelectionSet) → (set.restyle r).text = set.text
  | ⟨selections, span⟩ => by
    simp only [SelectionSet.restyle, SelectionSet.text, selectionTexts_restyle hr selections]

private theorem selectionTexts_restyle (hr : r.KeepsText) : (selections : List Selection) →
    selectionTexts (restyleSelections r selections) = selectionTexts selections
  | [] => rfl
  | s :: rest => by
    simp only [restyleSelections, selectionTexts, s.text_restyle hr, selectionTexts_restyle hr rest]

theorem Selection.text_restyle (hr : r.KeepsText) : (s : Selection) → (s.restyle r).text = s.text
  | .field ⟨aliasName, name, arguments, directives, none, span⟩ => by
    simp only [Selection.restyle, Selection.text, headText_restyle hr, directivesText_restyle hr]
  | .field ⟨aliasName, name, arguments, directives, some set, span⟩ => by
    simp only [Selection.restyle, Selection.text, headText_restyle hr, directivesText_restyle hr,
      set.text_restyle hr]
  | .spread s => by
    simp only [Selection.restyle, Selection.text, FragmentSpread.restyle, directivesText_restyle hr, Name.restyle]
  | .inline ⟨condition, directives, set, span⟩ => by
    simp only [Selection.restyle, Selection.text, directivesText_restyle hr, set.text_restyle hr, Option.map_map,
      Function.comp_def, TypeCondition.restyle, Name.restyle]

end

/-- An operation is printed the same: whether it is a bare query is told from its parts. -/
theorem Operation.text_restyle (hr : r.KeepsText) (o : Operation) : (o.restyle r).text = o.text := by
  simp only [text, restyle, SelectionSet.text_restyle hr, directivesText_restyle hr, List.map_map, Option.map_map,
    Function.comp_def, VariableDefinition.text_restyle hr, Name.restyle]

theorem Fragment.text_restyle (hr : r.KeepsText) (f : Fragment) : (f.restyle r).text = f.text := by
  have hset := f.selectionSet.text_restyle hr
  have hdirectives := directivesText_restyle hr f.directives
  change _ ++ wrap [] (directivesText (f.directives.map (·.restyle r))) [' '] ++
    (f.selectionSet.restyle r).text = _
  rw [hset, hdirectives]
  rfl

theorem Definition.text_restyle (hr : r.KeepsText) (definition : Definition) :
    (definition.restyle r).text = definition.text := by
  cases definition with
  | operation o => exact o.text_restyle hr
  | fragment f => exact f.text_restyle hr

/-- A change of style that leaves the text of each string alone leaves the printed document alone. -/
theorem Document.text_restyle (hr : r.KeepsText) (d : Document) : (d.restyle r).text = d.text := by
  simp only [text, restyle, List.map_map, Function.comp_def, Definition.text_restyle hr]

variable (r)

mutual

/-- The words of a value do not depend on the style. -/
private theorem Value.words_restyle : (v : Value) → (v.restyle r).words = v.words
  | .list items _ => Value.wordsOfItems_restyle items
  | .object fields _ => Value.wordsOfFields_restyle fields
  | .var _ | .int .. | .float .. | .string _ | .boolean .. | .null _ | .enum .. => rfl

private theorem Value.wordsOfItems_restyle : (vs : List Value) → wordsOfItems (restyleItems r vs) = wordsOfItems vs
  | [] => rfl
  | v :: vs => by simp only [restyleItems, wordsOfItems, v.words_restyle, Value.wordsOfItems_restyle vs]

private theorem Value.wordsOfFields_restyle : (fs : List ObjectField) →
    wordsOfFields (restyleFields r fs) = wordsOfFields fs
  | [] => rfl
  | ⟨name, v, span⟩ :: fs => by
    simp only [restyleFields, wordsOfFields, v.words_restyle, Value.wordsOfFields_restyle fs, Name.restyle]

end

private theorem wordsOfArguments_restyle (arguments : List Argument) :
    wordsOfArguments (arguments.map (·.restyle r)) = wordsOfArguments arguments := by
  simp only [wordsOfArguments, List.flatMap_map, Argument.restyle, Value.words_restyle, Name.restyle]

private theorem wordsOfDirectives_restyle (directives : List Directive) :
    wordsOfDirectives (directives.map (·.restyle r)) = wordsOfDirectives directives := by
  simp only [wordsOfDirectives, List.flatMap_map, Directive.restyle, wordsOfArguments_restyle, Name.restyle]

private theorem TypeRef.innermost_restyle (t : TypeRef) : (t.restyle r).innermost = t.innermost.restyle r := by
  induction t with
  | named => rfl
  | list element nullable span ih => exact ih

private theorem VariableDefinition.words_restyle (v : VariableDefinition) : (v.restyle r).words = v.words := by
  cases hv : v.defaultValue <;>
    simp [words, restyle, TypeRef.innermost_restyle, wordsOfDirectives_restyle, Name.restyle, hv,
      Value.words_restyle]

private theorem Selection.ownWords_restyle (s : Selection) : (s.restyle r).ownWords = s.ownWords := by
  cases s with
  | field f =>
    rw [restyle_field]
    cases h : f.aliasName <;>
      simp [ownWords, Field.restyle, wordsOfArguments_restyle, wordsOfDirectives_restyle, Name.restyle, h]
  | spread s => simp [ownWords, restyle, FragmentSpread.restyle, wordsOfDirectives_restyle, Name.restyle]
  | inline i =>
    rw [restyle_inline]
    cases h : i.condition <;>
      simp [ownWords, InlineFragment.restyle, wordsOfDirectives_restyle, TypeCondition.restyle, Name.restyle, h]

mutual

/-- The words of a selection set do not depend on the style. -/
private theorem SelectionSet.words_restyle : (set : SelectionSet) → (set.restyle r).words = set.words
  | ⟨selections, span⟩ => by
    have hown : (restyleSelections r selections).flatMap (·.ownWords) = selections.flatMap (·.ownWords) := by
      simp only [restyleSelections_eq, List.flatMap_map, Selection.ownWords_restyle]
    simp only [SelectionSet.restyle, SelectionSet.words, nestedWords_restyle selections, hown]

private theorem nestedWords_restyle : (selections : List Selection) →
    nestedWords (restyleSelections r selections) = nestedWords selections
  | [] => rfl
  | s :: rest => by simp only [restyleSelections, nestedWords, s.nestedWords_restyle, nestedWords_restyle rest]

private theorem Selection.nestedWords_restyle : (s : Selection) → (s.restyle r).nestedWords = s.nestedWords
  | .field ⟨_, _, _, _, some set, _⟩ => set.words_restyle
  | .field ⟨_, _, _, _, none, _⟩ => rfl
  | .spread _ => rfl
  | .inline ⟨_, _, set, _⟩ => set.words_restyle

end

private theorem Definition.words_restyle (definition : Definition) :
    (definition.restyle r).words = definition.words := by
  cases definition with
  | operation o =>
    cases h : o.name <;>
      simp [words, restyle, Operation.restyle, wordsOfDirectives_restyle, SelectionSet.words_restyle,
        Name.restyle, h,
        List.flatMap_map, VariableDefinition.words_restyle]
  | fragment f =>
    simp [words, restyle, Fragment.restyle, wordsOfDirectives_restyle, SelectionSet.words_restyle, Name.restyle,
      TypeCondition.restyle]

/-- The words of a document do not depend on the style, nor do the numbers that they get. -/
private theorem Document.words_restyle (d : Document) : (d.restyle r).words = d.words := by
  simp only [words, restyle, List.flatMap_map, Definition.words_restyle]

mutual

private theorem SelectionSet.count_restyle : (set : SelectionSet) → (set.restyle r).count = set.count
  | ⟨selections, span⟩ => by
    have hlength : (restyleSelections r selections).length = selections.length := by
      rw [restyleSelections_eq, List.length_map]
    simp only [SelectionSet.restyle, SelectionSet.count, hlength, nestedCount_restyle selections]

private theorem nestedCount_restyle : (selections : List Selection) →
    nestedCount (restyleSelections r selections) = nestedCount selections
  | [] => rfl
  | s :: rest => by simp only [restyleSelections, nestedCount, s.nestedCount_restyle, nestedCount_restyle rest]

private theorem Selection.nestedCount_restyle : (s : Selection) → (s.restyle r).nestedCount = s.nestedCount
  | .field ⟨_, _, _, _, some set, _⟩ => set.count_restyle
  | .field ⟨_, _, _, _, none, _⟩ => rfl
  | .spread _ => rfl
  | .inline ⟨_, _, set, _⟩ => set.count_restyle

end

/-! ### The compact form -/

namespace Compact

section
variable (number : Numbering)

mutual

/-- The compact form of a restyled value has the spans of the style. -/
private theorem value_restyle : (v : GraphQL.Value) → value number (v.restyle r) = (value number v).mapSpans r.span
  | .list items _ => by simp only [GraphQL.Value.restyle, value, Value.mapSpans, valueItems_restyle items]
  | .object fields _ => by simp only [GraphQL.Value.restyle, value, Value.mapSpans, valueFields_restyle fields]
  | .var _ | .int .. | .float .. | .string _ | .boolean .. | .null _ | .enum .. => rfl

private theorem valueItems_restyle : (vs : List GraphQL.Value) →
    valueItems number (GraphQL.Value.restyleItems r vs) = Value.mapSpansItems r.span (valueItems number vs)
  | [] => rfl
  | v :: vs => by
    simp only [GraphQL.Value.restyleItems, valueItems, Value.mapSpansItems, value_restyle v, valueItems_restyle vs]

private theorem valueFields_restyle : (fs : List GraphQL.ObjectField) →
    valueFields number (GraphQL.Value.restyleFields r fs) = Value.mapSpansFields r.span (valueFields number fs)
  | [] => rfl
  | ⟨name, v, span⟩ :: fs => by
    simp only [GraphQL.Value.restyleFields, valueFields, Value.mapSpansFields, value_restyle v,
      valueFields_restyle fs]
    rfl

end

private theorem ident_restyle (n : Name) : ident number (n.restyle r) = (ident number n).mapSpans r.span := rfl

private theorem arguments_restyle (as : List GraphQL.Argument) :
    arguments number (as.map (·.restyle r)) = (arguments number as).map (·.mapSpans r.span) := by
  simp only [arguments, List.map_map]
  apply List.map_congr_left
  intro a _
  simp only [Function.comp_apply, Argument.mapSpans, GraphQL.Argument.restyle, value_restyle, ident_restyle]

private theorem directives_restyle (ds : List GraphQL.Directive) :
    directives number (ds.map (·.restyle r)) = (directives number ds).map (·.mapSpans r.span) := by
  simp only [directives, List.map_map]
  apply List.map_congr_left
  intro d _
  simp only [Function.comp_apply, Directive.mapSpans, GraphQL.Directive.restyle, arguments_restyle, ident_restyle]

private theorem typeRef_restyle (t : GraphQL.TypeRef) :
    typeRef number (t.restyle r) = (typeRef number t).mapSpans r.span := by
  induction t with
  | named => rfl
  | list element nullable span ih => simp only [GraphQL.TypeRef.restyle, typeRef, TypeRef.mapSpans, ih]

private theorem variableDefinition_restyle (v : GraphQL.VariableDefinition) :
    variableDefinition number (v.restyle r) = (variableDefinition number v).mapSpans r.span := by
  simp only [variableDefinition, VariableDefinition.mapSpans, GraphQL.VariableDefinition.restyle, typeRef_restyle,
    directives_restyle, Option.map_map, Function.comp_def, value_restyle, ident_restyle]

private theorem rangeAt_restyle (start : Nat) (set : SelectionSet) :
    rangeAt start (set.restyle r) = rangeAt start set := by
  rw [SelectionSet.restyle_eq, rangeAt, rangeAt, List.length_map]

/-- The compact form of a restyled selection has the spans of the style, and the same ranges. -/
private theorem selection_restyle (next : Nat) (s : GraphQL.Selection) :
    selection number next (s.restyle r) = (selection number next s).mapSpans r.span := by
  cases s with
  | field f =>
    simp only [Selection.restyle_field, selection, Selection.mapSpans, GraphQL.Field.restyle, arguments_restyle,
      directives_restyle, Option.map_map, Function.comp_def, rangeAt_restyle, ident_restyle]
  | spread s =>
    simp only [Selection.restyle_spread, selection, Selection.mapSpans, FragmentSpread.restyle, directives_restyle,
      ident_restyle]
  | inline i =>
    simp only [Selection.restyle_inline, selection, Selection.mapSpans, InlineFragment.restyle, directives_restyle,
      rangeAt_restyle, Option.map_map, Function.comp_def, TypeCondition.restyle, ident_restyle]

private theorem siblings_restyle (next : Nat) (selections : List GraphQL.Selection) :
    siblings number next (restyleSelections r selections) =
      (siblings number next selections).map (·.mapSpans r.span) := by
  induction selections generalizing next with
  | nil => rfl
  | cons s rest ih =>
    simp only [restyleSelections, siblings, List.map_cons, selection_restyle, Selection.nestedCount_restyle, ih]

mutual

/-- The arena of a restyled selection set has the spans of the style. -/
private theorem arena_restyle (start : Nat) : (set : SelectionSet) →
    arena number start (set.restyle r) = (arena number start set).map (·.mapSpans r.span)
  | ⟨selections, span⟩ => by
    have hlength : (restyleSelections r selections).length = selections.length := by
      rw [restyleSelections_eq, List.length_map]
    simp only [SelectionSet.restyle, arena, List.map_append, hlength, siblings_restyle,
      nestedArena_restyle _ selections]

private theorem nestedArena_restyle (next : Nat) : (selections : List GraphQL.Selection) →
    nestedArena number next (restyleSelections r selections) =
      (nestedArena number next selections).map (·.mapSpans r.span)
  | [] => rfl
  | s :: rest => by
    simp only [restyleSelections, nestedArena, List.map_append, selectionArena_restyle next s,
      Selection.nestedCount_restyle, nestedArena_restyle _ rest]

private theorem selectionArena_restyle (next : Nat) : (s : GraphQL.Selection) →
    selectionArena number next (s.restyle r) = (selectionArena number next s).map (·.mapSpans r.span)
  | .field ⟨_, _, _, _, some set, _⟩ => arena_restyle next set
  | .field ⟨_, _, _, _, none, _⟩ => rfl
  | .spread _ => rfl
  | .inline ⟨_, _, set, _⟩ => arena_restyle next set

end

private theorem operation_restyle (start : Nat) (o : GraphQL.Operation) :
    operation number start (o.restyle r) = (operation number start o).mapSpans r.span := by
  simp only [operation, Operation.mapSpans, GraphQL.Operation.restyle, directives_restyle, rangeAt_restyle,
    Option.map_map, List.map_map, Function.comp_def, variableDefinition_restyle, ident_restyle]

private theorem fragment_restyle (start : Nat) (f : GraphQL.Fragment) :
    fragment number start (f.restyle r) = (fragment number start f).mapSpans r.span := by
  simp only [fragment, Fragment.mapSpans, GraphQL.Fragment.restyle, directives_restyle, rangeAt_restyle,
    TypeCondition.restyle, ident_restyle]

/-- A definition in another style adds the same with its spans changed. -/
theorem addDefinition_restyle (d : Document) (definition : GraphQL.Definition) :
    addDefinition number (d.mapSpans r.span) (definition.restyle r) =
      (addDefinition number d definition).mapSpans r.span := by
  cases definition with
  | operation o =>
    rw [GraphQL.Definition.restyle, addDefinition_operation, addDefinition_operation, operation_restyle,
      GraphQL.Operation.restyle, arena_restyle]
    simp only [Document.mapSpans, List.map_append, List.map_cons, List.map_nil, List.length_map]
  | fragment f =>
    rw [GraphQL.Definition.restyle, addDefinition_fragment, addDefinition_fragment, fragment_restyle,
      GraphQL.Fragment.restyle, arena_restyle]
    simp only [Document.mapSpans, List.map_append, List.map_cons, List.map_nil, List.length_map]

end

/-- The compact form of a document in another style is the same with its spans changed. -/
theorem Document.ofDocument_restyle (d : GraphQL.Document) :
    ofDocument (d.restyle r) = (ofDocument d).mapSpans r.span := by
  have hall (number : Numbering) (definitions : List GraphQL.Definition) (c : Document) :
      (definitions.map (·.restyle r)).foldl (addDefinition number) (c.mapSpans r.span) =
        (definitions.foldl (addDefinition number) c).mapSpans r.span := by
    induction definitions generalizing c with
    | nil => rfl
    | cons definition rest ih =>
      rw [List.map_cons, List.foldl_cons, addDefinition_restyle, ih, List.foldl_cons]
  rw [ofDocument, ofDocument, GraphQL.Document.words_restyle, ← hall]
  rfl

/-- The compact form of a document depends on its style through its spans alone. -/
theorem eraseSpans_restyle (d : GraphQL.Document) :
    (Document.ofDocument (d.restyle r)).eraseSpans = (Document.ofDocument d).eraseSpans := by
  rw [Document.ofDocument_restyle, Document.eraseSpans_mapSpans]

end Compact

end GraphQL
