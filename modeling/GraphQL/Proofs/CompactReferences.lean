import GraphQL.Compact.Reference
import GraphQL.Proofs.Arena

/-!
# The strings that a compact document refers to

The nodes of a compact document refer to its strings, its definitions and its ranges, and to nothing else
(`Document.references_cases`). What a node is built from refers to the node's words under their numbers, in the order
of the words (`numbers_arena`, `numbers_operation`, `numbers_fragment`). The table holds each word once
(`nodup_table`), so that the numbers of the words are the places of the table (`mem_map_idxOf_table`).
-/

namespace GraphQL.Compact

/-- The number of the string that a reference is to. -/
def Reference.number? : Reference → Option Nat
  | .word number => some number
  | _ => none

/-- The numbers of the strings that references are to. -/
def numbersIn (references : List Reference) : List Nat := references.filterMap (·.number?)

/-- A number is listed if and only if there is a reference to its string. -/
theorem mem_numbersIn {n : Nat} {references : List Reference} :
    n ∈ numbersIn references ↔ .word n ∈ references := by
  constructor
  · intro hn
    obtain ⟨x, hx, hnumber⟩ := List.mem_filterMap.1 hn
    cases x with
    | word m => exact Option.some.inj hnumber ▸ hx
    | definition => cases hnumber
    | range => cases hnumber
  · exact fun hx => List.mem_filterMap.2 ⟨_, hx, rfl⟩

private theorem numbersIn_append (references references' : List Reference) :
    numbersIn (references ++ references') = numbersIn references ++ numbersIn references' :=
  List.filterMap_append

private theorem numbersIn_flatMap {α : Type} (as : List α) (f : α → List Reference) :
    numbersIn (as.flatMap f) = as.flatMap fun a => numbersIn (f a) :=
  List.filterMap_flatMap

/-- The references to the strings of words. -/
def wordReferences (number : Numbering) (words : List String) : List Reference :=
  words.map fun w => .word (number w)

private theorem numbersIn_wordReferences (number : Numbering) (words : List String) :
    numbersIn (wordReferences number words) = words.map number := by
  rw [numbersIn, wordReferences, List.filterMap_map]
  exact congrFun List.filterMap_eq_map words

private theorem numbersIn_ranges (ranges : List Range) (least : Nat) :
    numbersIn (ranges.map (.range · least)) = [] := by
  simp [numbersIn, Reference.number?]

section
variable (number : Numbering)

mutual

/-- The references of a value in compact form are those of its words, in order. -/
private theorem references_value : (v : GraphQL.Value) → (value number v).references = wordReferences number v.words
  | .list items _ => references_valueItems items
  | .object fields _ => references_valueFields fields
  | .var _ | .int .. | .float .. | .string _ | .boolean .. | .null _ | .enum .. => rfl

private theorem references_valueItems : (vs : List GraphQL.Value) →
    Value.referencesOfItems (valueItems number vs) = wordReferences number (GraphQL.Value.wordsOfItems vs)
  | [] => rfl
  | v :: vs => by
    rw [valueItems, Value.referencesOfItems, GraphQL.Value.wordsOfItems, references_value, references_valueItems]
    exact List.map_append.symm

private theorem references_valueFields : (fs : List GraphQL.ObjectField) →
    Value.referencesOfFields (valueFields number fs) = wordReferences number (GraphQL.Value.wordsOfFields fs)
  | [] => rfl
  | ⟨name, v, span⟩ :: fs => by
    rw [valueFields, Value.referencesOfFields, GraphQL.Value.wordsOfFields, references_value, references_valueFields]
    simp [wordReferences, ident, Ident.reference]

end

private theorem references_arguments (as : List GraphQL.Argument) :
    referencesOfArguments (arguments number as) = wordReferences number (wordsOfArguments as) := by
  simp [referencesOfArguments, arguments, wordReferences, wordsOfArguments, List.flatMap_map, List.map_flatMap,
    references_value, ident, Ident.reference]

private theorem references_directives (ds : List GraphQL.Directive) :
    referencesOfDirectives (directives number ds) = wordReferences number (wordsOfDirectives ds) := by
  simp [referencesOfDirectives, directives, references_arguments, wordReferences, wordsOfDirectives,
    List.flatMap_map, List.map_flatMap, ident, Ident.reference]

private theorem references_typeRef (t : GraphQL.TypeRef) :
    (typeRef number t).references = [.word (number t.innermost.value)] := by
  induction t with
  | named => rfl
  | list element nullable span ih => exact ih

private theorem references_variableDefinition (v : GraphQL.VariableDefinition) :
    (variableDefinition number v).references = wordReferences number v.words := by
  cases h : v.defaultValue <;>
    simp [VariableDefinition.references, variableDefinition, references_typeRef, references_directives,
      references_value, wordReferences, GraphQL.VariableDefinition.words, ident, Ident.reference, h]

private theorem references_name (name : Option Name) :
    (name.map (ident number)).toList.map (·.reference) = wordReferences number (name.toList.map (·.value)) := by
  cases name <;> rfl

/-- A selection in the arena refers to the selection's own words, wherever it stands. -/
theorem numbers_selection (index next : Nat) (s : GraphQL.Selection) :
    numbersIn ((selection number next s).references index) = s.ownWords.map number := by
  cases s with
  | field f =>
    have hname : [(ident number f.name).reference] = wordReferences number [f.name.value] := rfl
    simp only [Selection.references, selection, Selection.directives, Selection.children,
      GraphQL.Selection.ownWords, numbersIn_append, numbersIn_ranges, references_name, references_arguments,
      references_directives, numbersIn_wordReferences, List.map_append, List.map_cons, List.map_nil, hname,
      List.append_nil]
  | spread s =>
    have hname : [(ident number s.name).reference] = wordReferences number [s.name.value] := rfl
    simp only [Selection.references, selection, Selection.directives, Selection.children,
      GraphQL.Selection.ownWords, numbersIn_append, numbersIn_ranges, references_directives,
      numbersIn_wordReferences, List.map_cons, List.map_nil, hname, List.append_nil, List.cons_append,
      List.nil_append]
  | inline i =>
    have hcondition := references_name number (i.condition.map (·.typeName))
    simp only [Option.map_map, Function.comp_def] at hcondition
    simp only [Selection.references, selection, Selection.directives, Selection.children,
      GraphQL.Selection.ownWords, numbersIn_append, numbersIn_ranges, references_directives,
      numbersIn_wordReferences, List.map_append, hcondition, List.append_nil]
    cases i.condition <;> rfl

/-- The numbers of the strings that the selections of a part of the arena refer to. -/
def partNumbers (part : List Selection) : List Nat := part.flatMap fun s => numbersIn (s.references 0)

/-- Selections beside each other refer to their own words, in order. -/
private theorem numbers_siblings (next : Nat) (selections : List GraphQL.Selection) :
    partNumbers (siblings number next selections) = (selections.flatMap (·.ownWords)).map number := by
  induction selections generalizing next with
  | nil => rfl
  | cons s rest ih =>
    rw [siblings, partNumbers, List.flatMap_cons, numbers_selection, List.flatMap_cons, List.map_append, ← ih]
    rfl

mutual

/-- The part of a selection set refers to all its words, in the order of the text. -/
theorem numbers_arena (start : Nat) : (set : SelectionSet) →
    partNumbers (arena number start set) = set.words.map number
  | ⟨selections, span⟩ => by
    rw [arena, SelectionSet.words, List.map_append, ← numbers_siblings, ← numbers_nestedArena]
    exact List.flatMap_append

private theorem numbers_nestedArena (next : Nat) : (selections : List GraphQL.Selection) →
    partNumbers (nestedArena number next selections) = (nestedWords selections).map number
  | [] => rfl
  | s :: rest => by
    rw [nestedArena, nestedWords, List.map_append, ← numbers_selectionArena, ← numbers_nestedArena]
    exact List.flatMap_append

private theorem numbers_selectionArena (next : Nat) : (s : GraphQL.Selection) →
    partNumbers (selectionArena number next s) = s.nestedWords.map number
  | .field ⟨_, _, _, _, some set, _⟩ => numbers_arena next set
  | .field ⟨_, _, _, _, none, _⟩ => rfl
  | .spread _ => rfl
  | .inline ⟨_, _, set, _⟩ => numbers_arena next set

end

/-- An operation and its part of the arena refer to all words of the operation. -/
theorem numbers_operation (start : Nat) (o : GraphQL.Operation) :
    numbersIn (operation number start o).references ++ partNumbers (arena number start o.selectionSet) =
      (GraphQL.Definition.operation o).words.map number := by
  have hvariables : (o.variableDefinitions.map (variableDefinition number)).flatMap (·.references) =
      wordReferences number (o.variableDefinitions.flatMap (·.words)) := by
    simp only [List.flatMap_map, references_variableDefinition, wordReferences, List.map_flatMap]
  have hrange (r : Range) : numbersIn [.range r 0] = [] := rfl
  simp only [operation, Operation.references, GraphQL.Definition.words, numbersIn_append, references_name,
    references_directives, hvariables, hrange, numbersIn_wordReferences, numbers_arena, List.map_append,
    List.append_nil]

/-- A fragment and its part of the arena refer to all words of the fragment. -/
theorem numbers_fragment (start : Nat) (f : GraphQL.Fragment) :
    numbersIn (fragment number start f).references ++ partNumbers (arena number start f.selectionSet) =
      (GraphQL.Definition.fragment f).words.map number := by
  have hnames : [(ident number f.name).reference, (ident number f.condition.typeName).reference] =
      wordReferences number [f.name.value, f.condition.typeName.value] := rfl
  have hrange (r : Range) : numbersIn [.range r 0] = [] := rfl
  change numbersIn ([(ident number f.name).reference, (ident number f.condition.typeName).reference] ++
    (referencesOfDirectives (directives number f.directives) ++ [.range (rangeAt start f.selectionSet) 0])) ++
    partNumbers (arena number start f.selectionSet) =
      ([f.name.value, f.condition.typeName.value] ++ (wordsOfDirectives f.directives ++ f.selectionSet.words)).map
        number
  simp only [hnames, numbersIn_append, references_directives, hrange, numbersIn_wordReferences, numbers_arena,
    List.map_append, List.append_nil, List.append_assoc]

end

/-! ### The references of a document -/

/-- The references to strings are those of the operations, of the fragments and of the arena. -/
theorem numbersIn_references (c : Document) : numbersIn c.references =
    c.operations.flatMap (fun o => numbersIn o.references) ++ c.fragments.flatMap (fun f => numbersIn f.references) ++
      partNumbers c.selections := by
  have hdefinitions : numbersIn (c.definitions.map .definition) = [] := by
    simp [numbersIn, Reference.number?]
  have hindex (index : Nat) (s : Selection) : numbersIn (s.references index) = numbersIn (s.references 0) := by
    simp only [Selection.references, numbersIn_append, numbersIn_ranges]
  have hselections : numbersIn (c.selections.mapIdx Selection.references).flatten = partNumbers c.selections := by
    have hunzip : c.selections = c.selections.zipIdx.map (·.1) := (List.zipIdx_map_fst 0 _).symm
    rw [partNumbers, List.mapIdx_eq_zipIdx_map, ← List.flatMap_id', List.flatMap_map, numbersIn_flatMap]
    simp only [hindex]
    conv => rhs; rw [hunzip, List.flatMap_map]
  rw [Document.references, numbersIn_append, numbersIn_append, numbersIn_append, hdefinitions, hselections,
    numbersIn_flatMap, numbersIn_flatMap, List.nil_append]

/-- All references are to strings. -/
def OnlyWords (references : List Reference) : Prop := ∀ x ∈ references, ∃ n, x = .word n

private theorem OnlyWords.append {references references' : List Reference} (h : OnlyWords references)
    (h' : OnlyWords references') : OnlyWords (references ++ references') := by
  intro x hx
  rcases List.mem_append.1 hx with hx | hx
  · exact h x hx
  · exact h' x hx

private theorem OnlyWords.name (i : Ident) {references : List Reference} (h : OnlyWords references) :
    OnlyWords (i.reference :: references) := by
  intro x hx
  rcases List.mem_cons.1 hx with rfl | hx
  · exact ⟨i.word, rfl⟩
  · exact h x hx

private theorem OnlyWords.nil : OnlyWords [] := nofun

private theorem OnlyWords.names (is : List Ident) : OnlyWords (is.map (·.reference)) := by
  induction is with
  | nil => exact .nil
  | cons i is ih => exact .name i ih

private theorem OnlyWords.flatMap {α : Type} {as : List α} {f : α → List Reference} (h : ∀ a ∈ as, OnlyWords (f a)) :
    OnlyWords (as.flatMap f) := by
  intro x hx
  obtain ⟨a, ha, hx⟩ := List.mem_flatMap.1 hx
  exact h a ha x hx

mutual

/-- A value refers to strings alone. -/
private theorem onlyWords_value : (v : Value) → OnlyWords v.references
  | .var name _ => .name name .nil
  | .int w _ | .float w _ | .string w _ | .enum w _ => .name ⟨w, .nowhere⟩ .nil
  | .boolean .. | .null _ => .nil
  | .list items _ => onlyWords_items items
  | .object fields _ => onlyWords_fields fields

private theorem onlyWords_items : (vs : List Value) → OnlyWords (Value.referencesOfItems vs)
  | [] => .nil
  | v :: vs => (onlyWords_value v).append (onlyWords_items vs)

private theorem onlyWords_fields : (fs : List ObjectField) → OnlyWords (Value.referencesOfFields fs)
  | [] => .nil
  | ⟨name, v, _⟩ :: fs => .name name ((onlyWords_value v).append (onlyWords_fields fs))

end

private theorem onlyWords_arguments (arguments : List Argument) : OnlyWords (referencesOfArguments arguments) :=
  .flatMap fun a _ => .name a.name (onlyWords_value a.value)

private theorem onlyWords_directives (directives : List Directive) : OnlyWords (referencesOfDirectives directives) :=
  .flatMap fun d _ => .name d.name (onlyWords_arguments d.arguments)

private theorem onlyWords_typeRef (t : TypeRef) : OnlyWords t.references := by
  induction t with
  | named name => exact .name name .nil
  | list element nullable span ih => exact ih

private theorem onlyWords_variableDefinition (v : VariableDefinition) : OnlyWords v.references :=
  .name v.name (((onlyWords_typeRef v.type).append (.flatMap fun d _ => onlyWords_value d)).append
    (onlyWords_directives v.directives))

/-- A reference is to a string or a definition, or is the range of a selection set: that of a definition, or of a
selection that it may not start before. -/
theorem Document.references_cases {c : Document} {x : Reference} (hx : x ∈ c.references) :
    (∃ n, x = .word n) ∨ (∃ definition ∈ c.definitions, x = .definition definition) ∨
      (∃ r ∈ c.operations.map (·.selections) ++ c.fragments.map (·.selections), x = .range r 0) ∨
      ∃ (i : Nat) (s : Selection), c.selections[i]? = some s ∧ ∃ r ∈ s.children, x = .range r (i + 1) := by
  simp only [references, List.mem_append, List.mem_flatMap, or_assoc] at hx
  rcases hx with hx | ⟨o, ho, hx⟩ | ⟨f, hf, hx⟩ | hx
  · obtain ⟨definition, hdefinition, rfl⟩ := List.mem_map.1 hx
    exact .inr (.inl ⟨definition, hdefinition, rfl⟩)
  · rcases List.mem_append.1 hx with hx | hx
    · refine .inl (OnlyWords.append (.append (.names _) (.flatMap fun v _ => onlyWords_variableDefinition v))
        (onlyWords_directives _) x hx)
    · rw [List.mem_singleton] at hx
      exact .inr (.inr (.inl ⟨o.selections, List.mem_append_left _ (List.mem_map_of_mem ho), hx⟩))
  · rcases List.mem_append.1 hx with hx | hx
    · exact .inl (OnlyWords.name _ (.name _ (onlyWords_directives _)) x hx)
    · rw [List.mem_singleton] at hx
      exact .inr (.inr (.inl ⟨f.selections, List.mem_append_right _ (List.mem_map_of_mem hf), hx⟩))
  · obtain ⟨group, hgroup, hx⟩ := List.mem_flatten.1 hx
    obtain ⟨i, hi, rfl⟩ := List.mem_mapIdx.1 hgroup
    rcases List.mem_append.1 hx with hx | hx
    · left
      refine OnlyWords.append ?_ (onlyWords_directives _) x hx
      cases c.selections[i] with
      | field f => exact .append (.names _) (onlyWords_arguments _)
      | spread name => exact .name name .nil
      | inline condition => exact .names _
    · obtain ⟨r, hr, rfl⟩ := List.mem_map.1 hx
      exact .inr (.inr (.inr ⟨i, c.selections[i], List.getElem?_eq_getElem hi, r, by simpa using hr, rfl⟩))

/-- One step of `table`. -/
def intern (strings : List String) (w : String) : List String := if w ∈ strings then strings else strings ++ [w]

/-- A word that is entered joins the strings that are there. -/
theorem mem_intern {strings : List String} {v w : String} : v ∈ intern strings w ↔ v ∈ strings ∨ v = w := by
  unfold intern
  split
  · rename_i hw
    exact (or_iff_left_of_imp fun h => h ▸ hw).symm
  · rw [List.mem_append, List.mem_singleton]

/-- A word is entered only if it is not there yet. -/
private theorem nodup_intern {strings : List String} (h : strings.Nodup) (w : String) : (intern strings w).Nodup := by
  unfold intern
  split
  · exact h
  · rename_i hw
    refine List.nodup_append.2 ⟨h, by simp, ?_⟩
    intro v hv u hu heq
    rw [List.mem_singleton] at hu
    exact hw (hu ▸ heq ▸ hv)

private theorem mem_foldl_intern {strings words : List String} {v : String} :
    v ∈ words.foldl intern strings ↔ v ∈ strings ∨ v ∈ words := by
  induction words generalizing strings with
  | nil => simp
  | cons w words ih => rw [List.foldl_cons, ih, mem_intern, List.mem_cons, or_assoc]

private theorem nodup_foldl_intern {strings : List String} (h : strings.Nodup) (words : List String) :
    (words.foldl intern strings).Nodup := by
  induction words generalizing strings with
  | nil => exact h
  | cons w words ih => exact ih (nodup_intern h w)

/-- The table has all the words and no others. -/
theorem mem_table {words : List String} {w : String} : w ∈ table words ↔ w ∈ words :=
  mem_foldl_intern.trans (by simp)

/-- The table has each word once. -/
theorem nodup_table (words : List String) : (table words).Nodup := nodup_foldl_intern .nil words

/-- The numbers of the words are the places of the table. -/
theorem mem_map_idxOf_table {words : List String} {n : Nat} :
    n ∈ words.map (table words).idxOf ↔ n < (table words).length := by
  constructor
  · intro hn
    obtain ⟨w, hw, rfl⟩ := List.mem_map.1 hn
    exact List.idxOf_lt_length_of_mem (mem_table.2 hw)
  · intro hn
    refine List.mem_map.2 ⟨(table words)[n], mem_table.1 (List.getElem_mem hn), ?_⟩
    exact (nodup_table words).idxOf_getElem n hn

end GraphQL.Compact
