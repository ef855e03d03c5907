import GraphQL.Proofs.CompactReferences

/-!
# Compact documents lose only layout

A compact document can be expanded into a syntax tree again (`Document.expand`): numbers become the strings of the
table, ranges become selection sets. What comes back from the compact form of a document is the document without the
flags and places that the compact form has no room for (`Document.strip`): whether a string is a block and whether a
query is a shorthand, and the spans of selection sets, of `$name` in variable definitions and of type conditions. The
compact form depends on nothing else (`Document.expand_ofDocument`).

A selection set is expanded by the depth to which sets may be nested in it. The part of the arena that the set takes
up is longer than the set is deep, and `expand_arena` follows its layout.
-/

namespace GraphQL

mutual

/-- The same value, without the flag of block strings. -/
def Value.strip : Value → Value
  | .string l => .string { l with block := false }
  | .list items span => .list (Value.stripItems items) span
  | .object fields span => .object (Value.stripFields fields) span
  | v => v

def Value.stripItems : List Value → List Value
  | [] => []
  | v :: vs => v.strip :: Value.stripItems vs

def Value.stripFields : List ObjectField → List ObjectField
  | [] => []
  | ⟨name, v, span⟩ :: fs => ⟨name, v.strip, span⟩ :: Value.stripFields fs

end

def Argument.strip (a : Argument) : Argument := { a with value := a.value.strip }

def Directive.strip (d : Directive) : Directive := { d with arguments := d.arguments.map (·.strip) }

def VariableDefinition.strip (v : VariableDefinition) : VariableDefinition :=
  { v with
    variableSpan := .nowhere
    defaultValue := v.defaultValue.map (·.strip)
    directives := v.directives.map (·.strip) }

def TypeCondition.strip (c : TypeCondition) : TypeCondition := { c with span := .nowhere }

mutual

/-- The same selections, without the span of the set. -/
def SelectionSet.strip : SelectionSet → SelectionSet
  | ⟨selections, _⟩ => ⟨stripSelections selections, .nowhere⟩

def stripSelections : List Selection → List Selection
  | [] => []
  | s :: rest => s.strip :: stripSelections rest

def Selection.strip : Selection → Selection
  | .field ⟨aliasName, name, arguments, directives, some set, span⟩ =>
    .field ⟨aliasName, name, arguments.map (·.strip), directives.map (·.strip), some set.strip, span⟩
  | .field ⟨aliasName, name, arguments, directives, none, span⟩ =>
    .field ⟨aliasName, name, arguments.map (·.strip), directives.map (·.strip), none, span⟩
  | .spread ⟨name, directives, span⟩ => .spread ⟨name, directives.map (·.strip), span⟩
  | .inline ⟨condition, directives, set, span⟩ =>
    .inline ⟨condition.map (·.strip), directives.map (·.strip), set.strip, span⟩

end

def Operation.strip (o : Operation) : Operation :=
  { o with
    variableDefinitions := o.variableDefinitions.map (·.strip)
    directives := o.directives.map (·.strip)
    selectionSet := o.selectionSet.strip
    shorthand := false }

def Fragment.strip (f : Fragment) : Fragment :=
  { f with
    condition := f.condition.strip
    directives := f.directives.map (·.strip)
    selectionSet := f.selectionSet.strip }

def Definition.strip : Definition → Definition
  | .operation o => .operation o.strip
  | .fragment f => .fragment f.strip

/-- The same document, without the flags of block strings and shorthand queries and without the spans of selection
sets, of `$name` in variable definitions and of type conditions. -/
def Document.strip (d : Document) : Document := { d with definitions := d.definitions.map (·.strip) }

namespace Compact

section
variable (text : Nat → String)

def Ident.expand (i : Ident) : Name := ⟨text i.word, i.span⟩

mutual

/-- The value with the strings that its numbers stand for. -/
def Value.expand : Value → GraphQL.Value
  | .var name span => .var ⟨name.expand text, span⟩
  | .int word span => .int (text word) span
  | .float word span => .float (text word) span
  | .string word span => .string ⟨text word, false, span⟩
  | .boolean b span => .boolean b span
  | .null span => .null span
  | .enum word span => .enum (text word) span
  | .list items span => .list (Value.expandItems items) span
  | .object fields span => .object (Value.expandFields fields) span

def Value.expandItems : List Value → List GraphQL.Value
  | [] => []
  | v :: vs => v.expand :: Value.expandItems vs

def Value.expandFields : List ObjectField → List GraphQL.ObjectField
  | [] => []
  | ⟨name, v, span⟩ :: fs => ⟨name.expand text, v.expand, span⟩ :: Value.expandFields fs

end

def Argument.expand (a : Argument) : GraphQL.Argument := ⟨a.name.expand text, a.value.expand text, a.span⟩

def Directive.expand (d : Directive) : GraphQL.Directive :=
  ⟨d.name.expand text, d.arguments.map (·.expand text), d.span⟩

def TypeRef.expand : TypeRef → GraphQL.TypeRef
  | .named name nullable span => .named (name.expand text) nullable span
  | .list element nullable span => .list element.expand nullable span

def VariableDefinition.expand (v : VariableDefinition) : GraphQL.VariableDefinition where
  name := v.name.expand text
  variableSpan := .nowhere
  type := v.type.expand text
  defaultValue := v.defaultValue.map (·.expand text)
  directives := v.directives.map (·.expand text)
  span := v.span

/-- The selection with the selection sets that its ranges stand for. -/
def Selection.expand (set : Range → SelectionSet) : Selection → GraphQL.Selection
  | .field f => .field ⟨f.aliasName.map (·.expand text), f.name.expand text, f.arguments.map (·.expand text),
      f.directives.map (·.expand text), f.selections.map set, f.span⟩
  | .spread name directives span => .spread ⟨name.expand text, directives.map (·.expand text), span⟩
  | .inline condition directives range span => .inline ⟨condition.map fun i => ⟨i.expand text, .nowhere⟩,
      directives.map (·.expand text), set range, span⟩

/-- The selection set of a range of the arena, as many levels deep. -/
def expandRange (selections : List Selection) : Nat → Range → SelectionSet
  | 0, _ => ⟨[], .nowhere⟩
  | depth + 1, range =>
    ⟨((selections.drop range.start).take range.size).map (·.expand text (expandRange selections depth)), .nowhere⟩

def Operation.expand (set : Range → SelectionSet) (o : Operation) : GraphQL.Operation where
  kind := o.kind
  name := o.name.map (·.expand text)
  variableDefinitions := o.variableDefinitions.map (·.expand text)
  directives := o.directives.map (·.expand text)
  selectionSet := set o.selections
  shorthand := false
  span := o.span

def Fragment.expand (set : Range → SelectionSet) (f : Fragment) : GraphQL.Fragment where
  name := f.name.expand text
  condition := ⟨f.condition.expand text, .nowhere⟩
  directives := f.directives.map (·.expand text)
  selectionSet := set f.selections
  span := f.span

end

namespace Document

/-- The string with the number, empty when there is none. -/
def text (c : Document) (word : Nat) : String := (c.string? word).getD ""

/-- No selection set is nested deeper than there are selections. -/
def selectionSet (c : Document) : Range → SelectionSet := expandRange c.text c.selections (c.selections.length + 1)

/-- The operation or the fragment that a definition stands for. -/
def definition? (c : Document) : Definition → Option GraphQL.Definition
  | .operation index => c.operations[index]?.map fun o => .operation (o.expand c.text c.selectionSet)
  | .fragment index => c.fragments[index]?.map fun f => .fragment (f.expand c.text c.selectionSet)

/-- The syntax tree that a compact document stands for. -/
def expand (c : Document) : GraphQL.Document := ⟨c.definitions.filterMap c.definition?, c.span⟩

end Document

/-- The words are read back from their numbers. -/
def Recovers (text : Nat → String) (number : Numbering) (words : List String) : Prop :=
  ∀ w ∈ words, text (number w) = w

section
variable {text : Nat → String} {number : Numbering}

private theorem Recovers.mono {words words' : List String} (h : Recovers text number words) (hsub : words' ⊆ words) :
    Recovers text number words' := fun w hw => h w (hsub hw)

private theorem Recovers.left {words words' : List String} (h : Recovers text number (words ++ words')) :
    Recovers text number words := h.mono (List.subset_append_left _ _)

private theorem Recovers.right {words words' : List String} (h : Recovers text number (words ++ words')) :
    Recovers text number words' := h.mono (List.subset_append_right _ _)

/-- A name comes back from its number. -/
private theorem expand_ident {n : Name} (h : Recovers text number [n.value]) : (ident number n).expand text = n := by
  rw [ident, Ident.expand, h n.value (.head _)]

private theorem Recovers.head {w : String} {words : List String} (h : Recovers text number (w :: words)) :
    Recovers text number [w] := h.mono fun _ hv => List.mem_cons.2 (.inl (List.mem_singleton.1 hv))

private theorem Recovers.tail {w : String} {words : List String} (h : Recovers text number (w :: words)) :
    Recovers text number words := h.mono (List.subset_cons_self w words)

private theorem expand_name? {o : Option Name} (h : Recovers text number (o.toList.map (·.value))) :
    (o.map (ident number)).map (·.expand text) = o := by
  cases o with
  | none => rfl
  | some n => exact congrArg some (expand_ident h)

mutual

/-- A value comes back from the numbers of its strings, but for the flags of its block strings. -/
private theorem expand_value :
    {v : GraphQL.Value} → Recovers text number v.words → (value number v).expand text = v.strip
  | .var use, h => by
    rw [value, Value.expand, expand_ident h]
    rfl
  | .int raw _, h | .float raw _, h => by
    rw [value, Value.expand, h raw (.head _)]
    rfl
  | .string l, h => by
    rw [value, Value.expand, h l.value (.head _)]
    rfl
  | .enum w _, h => by
    rw [value, Value.expand, h w (.head _)]
    rfl
  | .boolean .., _ | .null _, _ => rfl
  | .list items _, h => by rw [value, Value.expand, expand_valueItems h, GraphQL.Value.strip]
  | .object fields _, h => by rw [value, Value.expand, expand_valueFields h, GraphQL.Value.strip]

private theorem expand_valueItems : {vs : List GraphQL.Value} → Recovers text number (GraphQL.Value.wordsOfItems vs) →
    Value.expandItems text (valueItems number vs) = GraphQL.Value.stripItems vs
  | [], _ => rfl
  | v :: vs, h => by
    rw [valueItems, Value.expandItems, expand_value h.left, expand_valueItems h.right, GraphQL.Value.stripItems]

private theorem expand_valueFields : {fs : List GraphQL.ObjectField} →
    Recovers text number (GraphQL.Value.wordsOfFields fs) →
    Value.expandFields text (valueFields number fs) = GraphQL.Value.stripFields fs
  | [], _ => rfl
  | ⟨name, v, span⟩ :: fs, h => by
    rw [valueFields, Value.expandFields, expand_ident h.head, expand_value h.tail.left,
      expand_valueFields h.tail.right, GraphQL.Value.stripFields]

end

/-- Arguments come back in their order. -/
private theorem expand_arguments {as : List GraphQL.Argument} (h : Recovers text number (wordsOfArguments as)) :
    (arguments number as).map (·.expand text) = as.map (·.strip) := by
  rw [arguments, List.map_map]
  refine List.map_congr_left fun a ha => ?_
  have hwords : Recovers text number (a.name.value :: a.value.words) :=
    h.mono fun w hw => List.mem_flatMap.2 ⟨a, ha, hw⟩
  simp only [Function.comp_apply, Argument.expand, expand_ident hwords.head, expand_value hwords.tail]
  rfl

private theorem expand_directives {ds : List GraphQL.Directive} (h : Recovers text number (wordsOfDirectives ds)) :
    (directives number ds).map (·.expand text) = ds.map (·.strip) := by
  rw [directives, List.map_map]
  refine List.map_congr_left fun d hd => ?_
  have hwords : Recovers text number (d.name.value :: wordsOfArguments d.arguments) :=
    h.mono fun w hw => List.mem_flatMap.2 ⟨d, hd, hw⟩
  simp only [Function.comp_apply, Directive.expand, expand_ident hwords.head, expand_arguments hwords.tail]
  rfl

/-- Type references come back as they are. -/
private theorem expand_typeRef {t : GraphQL.TypeRef} (h : Recovers text number [t.innermost.value]) :
    (typeRef number t).expand text = t := by
  induction t with
  | named name nullable span => rw [typeRef, TypeRef.expand, expand_ident (n := name) h]
  | list element nullable span ih => rw [typeRef, TypeRef.expand, ih h]

private theorem expand_variableDefinition {v : GraphQL.VariableDefinition} (h : Recovers text number v.words) :
    (variableDefinition number v).expand text = v.strip := by
  obtain ⟨name, variableSpan, type, defaultValue, ds, span⟩ := v
  have hdefault : (defaultValue.map (value number)).map (·.expand text) = defaultValue.map (·.strip) := by
    cases defaultValue with
    | none => rfl
    | some v => exact congrArg some (expand_value (h.tail.tail.left.mono (by simp)))
  simp only [variableDefinition, VariableDefinition.expand, expand_ident h.head, expand_typeRef h.tail.head, hdefault,
    expand_directives h.tail.tail.right]
  rfl

/-! ### The arena -/

/-- The part stands in the arena from the place on. -/
def StandsAt (selections : List Selection) (start : Nat) (part : List Selection) : Prop :=
  part <+: selections.drop start

/-- The first of two parts stands where both do. -/
private theorem StandsAt.left {selections part rest : List Selection} {start : Nat}
    (h : StandsAt selections start (part ++ rest)) : StandsAt selections start part :=
  (List.prefix_append part rest).trans h

/-- The second of two parts stands behind the first. -/
private theorem StandsAt.right {selections part rest : List Selection} {start : Nat}
    (h : StandsAt selections start (part ++ rest)) : StandsAt selections (start + part.length) rest := by
  obtain ⟨more, hmore⟩ := h
  refine ⟨more, ?_⟩
  rw [← List.drop_drop, ← hmore, List.append_assoc, List.drop_left']
  rfl

private theorem StandsAt.take {selections part : List Selection} {start : Nat} (h : StandsAt selections start part) :
    (selections.drop start).take part.length = part := (List.prefix_iff_eq_take.1 h).symm

section
variable {selections : List Selection}

mutual

/-- A set is expanded from its part of the arena, as deep as it has selections. -/
theorem expand_arena {depth start : Nat} : {set : SelectionSet} → set.count < depth →
    StandsAt selections start (arena number start set) → Recovers text number set.words →
    expandRange text selections depth (rangeAt start set) = set.strip
  | ⟨own, span⟩, hdepth, hplace, hwords => by
    obtain ⟨depth, rfl⟩ : ∃ k, depth = k + 1 := ⟨depth - 1, by omega⟩
    have hsiblings := hplace.left.take
    have hnested := hplace.right
    rw [length_siblings] at hsiblings hnested
    rw [SelectionSet.count] at hdepth
    rw [expandRange, rangeAt, hsiblings, SelectionSet.strip]
    rw [expand_siblings (by omega) hnested hwords.left hwords.right]

/-- Selections come back from the arena as long as the depth is not less than the number of selections below them. -/
private theorem expand_siblings {depth next : Nat} : {own : List GraphQL.Selection} →
    own.length + nestedCount own ≤ depth → StandsAt selections next (nestedArena number next own) →
    Recovers text number (own.flatMap (·.ownWords)) → Recovers text number (nestedWords own) →
    (siblings number next own).map (·.expand text (expandRange text selections depth)) = stripSelections own
  | [], _, _, _, _ => rfl
  | s :: rest, hdepth, hplace, hown, hnested => by
    have hrest := hplace.right
    rw [length_selectionArena] at hrest
    rw [List.length_cons, nestedCount] at hdepth
    rw [siblings, List.map_cons, stripSelections, expand_selection (by omega) hplace.left hown.left hnested.left,
      expand_siblings (by omega) hrest hown.right hnested.right]

private theorem expand_selection {depth next : Nat} : {s : GraphQL.Selection} → s.nestedCount < depth →
    StandsAt selections next (selectionArena number next s) → Recovers text number s.ownWords →
    Recovers text number s.nestedWords →
    (selection number next s).expand text (expandRange text selections depth) = s.strip
  | .field ⟨aliasName, name, arguments, directives, some set, span⟩, hdepth, hplace, hown, hnested => by
    have hnames := hown.left.left
    rw [List.map_append] at hnames
    have hset : expandRange text selections depth (rangeAt next set) = set.strip :=
      expand_arena hdepth hplace hnested
    simp only [selection, Selection.expand, GraphQL.Selection.strip, expand_name? hnames.left,
      expand_ident hnames.right, expand_arguments hown.left.right, expand_directives hown.right, Option.map_some,
      hset]
  | .field ⟨aliasName, name, arguments, directives, none, span⟩, _, _, hown, _ => by
    have hnames := hown.left.left
    rw [List.map_append] at hnames
    simp only [selection, Selection.expand, GraphQL.Selection.strip, expand_name? hnames.left,
      expand_ident hnames.right, expand_arguments hown.left.right, expand_directives hown.right, Option.map_none]
  | .spread ⟨name, directives, span⟩, _, _, hown, _ => by
    simp only [selection, Selection.expand, expand_ident hown.head, expand_directives hown.tail,
      GraphQL.Selection.strip]
  | .inline ⟨condition, directives, set, span⟩, hdepth, hplace, hown, hnested => by
    have hset : expandRange text selections depth (rangeAt next set) = set.strip :=
      expand_arena hdepth hplace hnested
    have hcondition :
        (condition.map (ident number ·.typeName)).map (fun i => TypeCondition.mk (i.expand text) .nowhere) =
          condition.map (·.strip) := by
      cases condition with
      | none => rfl
      | some c => exact congrArg some (congrArg (TypeCondition.mk · .nowhere) (expand_ident hown.left))
    simp only [selection, Selection.expand, GraphQL.Selection.strip, hcondition, expand_directives hown.right, hset]

end

end

/-- An operation comes back once its selection set does. -/
private theorem expand_operation {set : Range → SelectionSet} {start : Nat} {o : GraphQL.Operation}
    (hset : set (rangeAt start o.selectionSet) = o.selectionSet.strip)
    (h : Recovers text number (GraphQL.Definition.operation o).words) :
    (operation number start o).expand text set = o.strip := by
  have hvariables : (o.variableDefinitions.map (variableDefinition number)).map (·.expand text) =
      o.variableDefinitions.map (·.strip) := by
    rw [List.map_map]
    refine List.map_congr_left fun v hv => ?_
    exact expand_variableDefinition (h.left.left.right.mono fun w hw => List.mem_flatMap.2 ⟨v, hv, hw⟩)
  simp only [operation, Operation.expand, expand_name? h.left.left.left, hvariables, expand_directives h.left.right,
    hset]
  rfl

private theorem expand_fragment {set : Range → SelectionSet} {start : Nat} {f : GraphQL.Fragment}
    (hset : set (rangeAt start f.selectionSet) = f.selectionSet.strip)
    (h : Recovers text number (GraphQL.Definition.fragment f).words) :
    (fragment number start f).expand text set = f.strip := by
  simp only [fragment, Fragment.expand, expand_ident h.head, expand_ident h.tail.head,
    expand_directives h.tail.tail.left, hset]
  rfl

end

/-- The second document goes on where the first one ends. -/
structure Document.GoesOn (c c' : Document) : Prop where
  operations : c.operations <+: c'.operations
  fragments : c.fragments <+: c'.fragments
  selections : c.selections <+: c'.selections

section
variable {number : Numbering}

/-- A definition is added at the end, and changes nothing that is there. -/
private theorem goesOn_addDefinition (c : Document) (x : GraphQL.Definition) : c.GoesOn (addDefinition number c x) := by
  cases x with
  | operation o => exact ⟨List.prefix_append _ _, List.prefix_refl _, List.prefix_append _ _⟩
  | fragment f => exact ⟨List.prefix_refl _, List.prefix_append _ _, List.prefix_append _ _⟩

private theorem Document.GoesOn.trans {c c' c'' : Document} (h : c.GoesOn c') (h' : c'.GoesOn c'') : c.GoesOn c'' :=
  ⟨h.operations.trans h'.operations, h.fragments.trans h'.fragments, h.selections.trans h'.selections⟩

private theorem goesOn_addAll (c : Document) (definitions : List GraphQL.Definition) :
    c.GoesOn (definitions.foldl (addDefinition number) c) := by
  induction definitions generalizing c with
  | nil => exact ⟨List.prefix_refl _, List.prefix_refl _, List.prefix_refl _⟩
  | cons x rest ih => exact (goesOn_addDefinition c x).trans (ih _)

private theorem getElem?_of_append_prefix {α : Type} {as as' : List α} {a : α} (h : as ++ [a] <+: as') :
    as'[as.length]? = some a := by
  obtain ⟨more, rfl⟩ := h
  simp

/-- The definition that was added last is expanded to what it was built from, whatever is added after it. -/
theorem definition?_addDefinition {c c' : Document} {x : GraphQL.Definition}
    (h : (addDefinition number c x).GoesOn c') (hwords : Recovers c'.text number x.words) :
    ∃ y, (addDefinition number c x).definitions = c.definitions ++ [y] ∧ c'.definition? y = some x.strip := by
  have hplace : StandsAt c'.selections c.selections.length (arena number c.selections.length x.selectionSet) := by
    obtain ⟨more, hmore⟩ := h.selections
    rw [selections_addDefinition] at hmore
    refine ⟨more, ?_⟩
    rw [← hmore, List.append_assoc, List.drop_left']
    rfl
  have hdepth : x.selectionSet.count < c'.selections.length + 1 := by
    have hle := hplace.length_le
    rw [length_arena, List.length_drop] at hle
    omega
  cases x with
  | operation o =>
    refine ⟨.operation c.operations.length, rfl, ?_⟩
    have hget := getElem?_of_append_prefix h.operations
    have hset : c'.selectionSet (rangeAt c.selections.length o.selectionSet) = o.selectionSet.strip :=
      expand_arena hdepth hplace hwords.right
    rw [Document.definition?, hget, Option.map_some, expand_operation hset hwords]
    rfl
  | fragment f =>
    refine ⟨.fragment c.fragments.length, rfl, ?_⟩
    have hget := getElem?_of_append_prefix h.fragments
    have hset : c'.selectionSet (rangeAt c.selections.length f.selectionSet) = f.selectionSet.strip :=
      expand_arena hdepth hplace hwords.tail.tail.right
    rw [Document.definition?, hget, Option.map_some, expand_fragment hset hwords]
    rfl

/-- Every definition comes back, from any document that goes on where these have been added. -/
private theorem definitions_addAll {c c' : Document} {definitions : List GraphQL.Definition}
    (h : (definitions.foldl (addDefinition number) c).GoesOn c')
    (hwords : Recovers c'.text number (definitions.flatMap (·.words))) :
    ∃ ys, (definitions.foldl (addDefinition number) c).definitions = c.definitions ++ ys ∧
      ys.filterMap c'.definition? = definitions.map (·.strip) := by
  induction definitions generalizing c with
  | nil => exact ⟨[], (List.append_nil _).symm, rfl⟩
  | cons x rest ih =>
    have hfirst : (addDefinition number c x).GoesOn c' := (goesOn_addAll _ rest).trans h
    obtain ⟨y, hy, hexpand⟩ := definition?_addDefinition hfirst hwords.left
    obtain ⟨ys, hys, hrest⟩ := ih h hwords.right
    refine ⟨y :: ys, ?_, ?_⟩
    · rw [List.foldl_cons, hys, hy, List.append_assoc]
      rfl
    · rw [List.filterMap_cons_some hexpand, hrest, List.map_cons]

private theorem span_addAll (c : Document) (definitions : List GraphQL.Definition) :
    (definitions.foldl (addDefinition number) c).span = c.span := by
  induction definitions generalizing c with
  | nil => rfl
  | cons x rest ih =>
    rw [List.foldl_cons, ih]
    cases x <;> rfl

end

/-! ### What is stripped is not in the compact form -/

mutual

/-- Flags are not among the words of a value. -/
private theorem words_value_strip : (v : GraphQL.Value) → v.strip.words = v.words
  | .list items _ => wordsOfItems_strip items
  | .object fields _ => wordsOfFields_strip fields
  | .var _ | .int .. | .float .. | .string _ | .boolean .. | .null _ | .enum .. => rfl

private theorem wordsOfItems_strip : (vs : List GraphQL.Value) →
    GraphQL.Value.wordsOfItems (GraphQL.Value.stripItems vs) = GraphQL.Value.wordsOfItems vs
  | [] => rfl
  | v :: vs => by
    rw [GraphQL.Value.stripItems, GraphQL.Value.wordsOfItems, words_value_strip, wordsOfItems_strip,
      GraphQL.Value.wordsOfItems]

private theorem wordsOfFields_strip : (fs : List GraphQL.ObjectField) →
    GraphQL.Value.wordsOfFields (GraphQL.Value.stripFields fs) = GraphQL.Value.wordsOfFields fs
  | [] => rfl
  | ⟨name, v, span⟩ :: fs => by
    rw [GraphQL.Value.stripFields, GraphQL.Value.wordsOfFields, words_value_strip, wordsOfFields_strip,
      GraphQL.Value.wordsOfFields]

end

private theorem wordsOfArguments_strip (as : List GraphQL.Argument) :
    wordsOfArguments (as.map (·.strip)) = wordsOfArguments as := by
  simp only [wordsOfArguments, List.flatMap_map, GraphQL.Argument.strip, words_value_strip]

private theorem wordsOfDirectives_strip (ds : List GraphQL.Directive) :
    wordsOfDirectives (ds.map (·.strip)) = wordsOfDirectives ds := by
  simp only [wordsOfDirectives, List.flatMap_map, GraphQL.Directive.strip, wordsOfArguments_strip]

private theorem words_variableDefinition_strip (v : GraphQL.VariableDefinition) : v.strip.words = v.words := by
  simp only [GraphQL.VariableDefinition.words, GraphQL.VariableDefinition.strip, wordsOfDirectives_strip,
    Option.toList_map, List.flatMap_map, words_value_strip]

private theorem ownWords_strip (s : GraphQL.Selection) : s.strip.ownWords = s.ownWords := by
  match s with
  | .field ⟨_, _, _, _, some _, _⟩ | .field ⟨_, _, _, _, none, _⟩ =>
    simp only [GraphQL.Selection.strip, GraphQL.Selection.ownWords, wordsOfArguments_strip, wordsOfDirectives_strip]
  | .spread ⟨_, _, _⟩ => simp only [GraphQL.Selection.strip, GraphQL.Selection.ownWords, wordsOfDirectives_strip]
  | .inline ⟨condition, _, _, _⟩ =>
    simp only [GraphQL.Selection.strip, GraphQL.Selection.ownWords, wordsOfDirectives_strip, Option.toList_map,
      List.map_map, Function.comp_def, TypeCondition.strip]

private theorem stripSelections_eq (own : List GraphQL.Selection) : stripSelections own = own.map (·.strip) := by
  induction own with
  | nil => rfl
  | cons s rest ih => rw [stripSelections, List.map_cons, ih]

mutual

/-- Spans of selection sets count neither as words nor as selections. -/
private theorem words_set_strip : (set : SelectionSet) → set.strip.words = set.words ∧ set.strip.count = set.count
  | ⟨own, span⟩ => by
    obtain ⟨hwords, hcount⟩ := nestedWords_strip own
    rw [SelectionSet.strip, SelectionSet.words, SelectionSet.count, hwords, hcount]
    simp only [stripSelections_eq, List.flatMap_map, ownWords_strip, List.length_map]
    exact ⟨rfl, rfl⟩

private theorem nestedWords_strip : (own : List GraphQL.Selection) →
    nestedWords (stripSelections own) = nestedWords own ∧ nestedCount (stripSelections own) = nestedCount own
  | [] => ⟨rfl, rfl⟩
  | s :: rest => by
    obtain ⟨hwords, hcount⟩ := nestedWords_selection_strip s
    obtain ⟨hrest, hcounts⟩ := nestedWords_strip rest
    rw [stripSelections, nestedWords, nestedCount, hwords, hcount, hrest, hcounts]
    exact ⟨rfl, rfl⟩

private theorem nestedWords_selection_strip : (s : GraphQL.Selection) →
    s.strip.nestedWords = s.nestedWords ∧ s.strip.nestedCount = s.nestedCount
  | .field ⟨_, _, _, _, some set, _⟩ => words_set_strip set
  | .field ⟨_, _, _, _, none, _⟩ => ⟨rfl, rfl⟩
  | .spread _ => ⟨rfl, rfl⟩
  | .inline ⟨_, _, set, _⟩ => words_set_strip set

end

private theorem words_definition_strip (x : GraphQL.Definition) : x.strip.words = x.words := by
  cases x with
  | operation o =>
    simp only [GraphQL.Definition.strip, GraphQL.Definition.words, GraphQL.Operation.strip, List.flatMap_map,
      words_variableDefinition_strip, wordsOfDirectives_strip, words_set_strip]
  | fragment f =>
    simp only [GraphQL.Definition.strip, GraphQL.Definition.words, GraphQL.Fragment.strip, wordsOfDirectives_strip,
      words_set_strip, TypeCondition.strip]

section
variable (number : Numbering)

mutual

/-- The compact form of a value does not see its flags. -/
private theorem value_strip : (v : GraphQL.Value) → value number v.strip = value number v
  | .list items span => congrArg (Value.list · span) (valueItems_strip items)
  | .object fields span => congrArg (Value.object · span) (valueFields_strip fields)
  | .var _ | .int .. | .float .. | .string _ | .boolean .. | .null _ | .enum .. => rfl

private theorem valueItems_strip : (vs : List GraphQL.Value) →
    valueItems number (GraphQL.Value.stripItems vs) = valueItems number vs
  | [] => rfl
  | v :: vs => by rw [GraphQL.Value.stripItems, valueItems, value_strip, valueItems_strip, valueItems]

private theorem valueFields_strip : (fs : List GraphQL.ObjectField) →
    valueFields number (GraphQL.Value.stripFields fs) = valueFields number fs
  | [] => rfl
  | ⟨name, v, span⟩ :: fs => by
    rw [GraphQL.Value.stripFields, valueFields, value_strip, valueFields_strip, valueFields]

end

private theorem arguments_strip (as : List GraphQL.Argument) :
    arguments number (as.map (·.strip)) = arguments number as := by
  simp only [arguments, List.map_map, Function.comp_def, GraphQL.Argument.strip, value_strip]

private theorem directives_strip (ds : List GraphQL.Directive) :
    directives number (ds.map (·.strip)) = directives number ds := by
  simp only [directives, List.map_map, Function.comp_def, GraphQL.Directive.strip, arguments_strip]

private theorem variableDefinition_strip (v : GraphQL.VariableDefinition) :
    variableDefinition number v.strip = variableDefinition number v := by
  simp only [variableDefinition, GraphQL.VariableDefinition.strip, Option.map_map, Function.comp_def, value_strip,
    directives_strip]

private theorem rangeAt_strip (start : Nat) (set : SelectionSet) : rangeAt start set.strip = rangeAt start set := by
  obtain ⟨own, span⟩ := set
  simp only [rangeAt, SelectionSet.strip, stripSelections_eq, List.length_map]

private theorem selection_strip (next : Nat) (s : GraphQL.Selection) :
    selection number next s.strip = selection number next s := by
  match s with
  | .field ⟨_, _, _, _, some set, _⟩ =>
    simp only [GraphQL.Selection.strip, selection, arguments_strip, directives_strip, Option.map_some, rangeAt_strip]
  | .field ⟨_, _, _, _, none, _⟩ =>
    simp only [GraphQL.Selection.strip, selection, arguments_strip, directives_strip]
  | .spread ⟨_, _, _⟩ => simp only [GraphQL.Selection.strip, selection, directives_strip]
  | .inline ⟨_, _, _, _⟩ =>
    simp only [GraphQL.Selection.strip, selection, directives_strip, Option.map_map, Function.comp_def,
      TypeCondition.strip, rangeAt_strip]

private theorem siblings_strip (next : Nat) (own : List GraphQL.Selection) :
    siblings number next (stripSelections own) = siblings number next own := by
  induction own generalizing next with
  | nil => rfl
  | cons s rest ih =>
    rw [stripSelections, siblings, selection_strip, (nestedWords_selection_strip s).2, ih, siblings]

mutual

/-- The arena does not see the spans of selection sets. -/
private theorem arena_strip (start : Nat) : (set : SelectionSet) → arena number start set.strip = arena number start set
  | ⟨own, span⟩ => by
    rw [SelectionSet.strip, arena, siblings_strip, nestedArena_strip, arena, stripSelections_eq, List.length_map]

private theorem nestedArena_strip (next : Nat) : (own : List GraphQL.Selection) →
    nestedArena number next (stripSelections own) = nestedArena number next own
  | [] => rfl
  | s :: rest => by
    rw [stripSelections, nestedArena, selectionArena_strip, (nestedWords_selection_strip s).2, nestedArena_strip,
      nestedArena]

private theorem selectionArena_strip (next : Nat) : (s : GraphQL.Selection) →
    selectionArena number next s.strip = selectionArena number next s
  | .field ⟨_, _, _, _, some set, _⟩ => arena_strip next set
  | .field ⟨_, _, _, _, none, _⟩ => rfl
  | .spread _ => rfl
  | .inline ⟨_, _, set, _⟩ => arena_strip next set

end

private theorem addDefinition_strip (c : Document) (x : GraphQL.Definition) :
    addDefinition number c x.strip = addDefinition number c x := by
  cases x with
  | operation o =>
    simp only [GraphQL.Definition.strip, addDefinition_operation, operation, GraphQL.Operation.strip, arena_strip,
      List.map_map, Function.comp_def, variableDefinition_strip, directives_strip, rangeAt_strip]
  | fragment f =>
    simp only [GraphQL.Definition.strip, addDefinition_fragment, fragment, GraphQL.Fragment.strip, arena_strip,
      directives_strip, rangeAt_strip, TypeCondition.strip]

end

/-- The compact form does not see what is stripped. -/
private theorem ofDocument_strip (d : GraphQL.Document) : Document.ofDocument d.strip = Document.ofDocument d := by
  have hwords : d.strip.words = d.words := by
    simp only [GraphQL.Document.words, GraphQL.Document.strip, List.flatMap_map, words_definition_strip]
  rw [Document.ofDocument, Document.ofDocument, hwords]
  simp only [GraphQL.Document.strip, List.foldl_map, addDefinition_strip]

/-- What the compact form stands for is the document without what the form has no room for. -/
theorem Document.expand_eq_strip (d : GraphQL.Document) : (ofDocument d).expand = d.strip := by
  have hwords : Recovers (ofDocument d).text (table d.words).idxOf d.words := by
    intro w hw
    have hmem : w ∈ table d.words := mem_table.2 hw
    have hget : (table d.words)[(table d.words).idxOf w]? = some w := by
      rw [List.getElem?_eq_getElem (List.idxOf_lt_length_of_mem hmem), List.getElem_idxOf]
    rw [text, string?, ofDocument, strings_addAll, hget, Option.getD_some]
  have hself : (ofDocument d).GoesOn (ofDocument d) :=
    ⟨List.prefix_refl _, List.prefix_refl _, List.prefix_refl _⟩
  obtain ⟨ys, hys, hexpand⟩ := definitions_addAll hself hwords
  have hdefinitions : (ofDocument d).definitions = ys := hys
  rw [expand, hdefinitions, hexpand, ofDocument, span_addAll]
  rfl

/-- Expanding the compact form of a document gives the document back without the two flags and the three kinds of
spans that `strip` takes away, and the compact form does not depend on these. -/
theorem Document.expand_ofDocument (d : GraphQL.Document) :
    (ofDocument d).expand = d.strip ∧ ofDocument d.strip = ofDocument d :=
  ⟨expand_eq_strip d, ofDocument_strip d⟩

end Compact

end GraphQL
