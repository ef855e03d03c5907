import GraphQL.Proofs.SpanExact
import GraphQL.Proofs.Visits
import Mathlib.Data.List.Basic

/-!
# The order of a walk

A walk over a document comes to each selection set, selection, variable definition and list of directives once. What it
comes to does not depend on the types that it finds, so that the parts of one sort can be listed without a schema
(`Schema.filterMap_visits`). In a parsed document the parts start one after the other in the order of the walk
(`Schema.starts_visits_ordered`), since each node of the document has the span of its tokens.
-/

namespace GraphQL

/-- What is read off a visit depends on the part of the document alone, and not on the types. -/
structure Untyped {α : Type} (g : Visit → List α) (ofSet : SelectionSet → List α) (ofSelection : Selection → List α)
    (ofDirectives : List Directive → List α) : Prop where
  selectionSet : ∀ parent set, g (.selectionSet parent set) = ofSet set
  field : ∀ parent f definition, g (.field parent f definition) = ofSelection (.field f)
  spread : ∀ parent spread, g (.spread parent spread) = ofSelection (.spread spread)
  inline : ∀ parent i, g (.inline parent i) = ofSelection (.inline i)
  directives : ∀ place directives, g (.directives place directives) = ofDirectives directives

section
variable {α : Type} (g : Visit → List α) (ofSet : SelectionSet → List α) (ofSelection : Selection → List α)
  (ofDirectives : List Directive → List α)

/-- What is read off a selection, its directives and its own selection set. -/
def Selection.readOff (t : Selection) : List α :=
  ofSelection t ++ ofDirectives t.directives ++ t.children.toList.flatMap ofSet

/-- What is read off a selection set and the selections in it. -/
def SelectionSet.readOff (set : SelectionSet) : List α :=
  ofSet set ++ set.allSelections.flatMap (·.readOff ofSet ofSelection ofDirectives)

/-- What is read off a definition and its parts. -/
def Definition.readOff : Definition → List α
  | operation o => g (.operation o) ++
    (o.variableDefinitions.flatMap fun v => g (.variable v) ++ ofDirectives v.directives) ++
    (ofDirectives o.directives ++ o.selectionSet.readOff ofSet ofSelection ofDirectives)
  | fragment f => g (.fragment f) ++
    (ofDirectives f.directives ++ f.selectionSet.readOff ofSet ofSelection ofDirectives)

end

namespace Schema

variable {s : Schema} {α : Type} {g : Visit → List α} {ofSet : SelectionSet → List α}
  {ofSelection : Selection → List α} {ofDirectives : List Directive → List α}

mutual

/-- What is read off the visits of a selection set does not depend on the types. -/
private theorem flatMap_visitSet (hg : Untyped g ofSet ofSelection ofDirectives) (parent : Option TypeDefinition) :
    (set : SelectionSet) → (s.visitSet parent set).flatMap g = set.readOff ofSet ofSelection ofDirectives
  | ⟨items, span⟩ => by
    rw [visitSet, List.flatMap_cons, hg.selectionSet, flatMap_visitSelections hg parent items]
    rfl

private theorem flatMap_visitSelections (hg : Untyped g ofSet ofSelection ofDirectives)
    (parent : Option TypeDefinition) :
    (items : List Selection) → (s.visitSelections parent items).flatMap g =
      (allOfSelections items).flatMap (·.readOff ofSet ofSelection ofDirectives)
  | [] => rfl
  | selection :: rest => by
    rw [visitSelections, allOfSelections, List.flatMap_append, List.flatMap_append,
      flatMap_visitSelection hg parent selection, flatMap_visitSelections hg parent rest]

private theorem flatMap_visitSelection (hg : Untyped g ofSet ofSelection ofDirectives)
    (parent : Option TypeDefinition) :
    (selection : Selection) → (s.visitSelection parent selection).flatMap g =
      selection.allSelections.flatMap (·.readOff ofSet ofSelection ofDirectives)
  | .field ⟨_, _, _, directives, none, _⟩ => by
    simp [visitSelection, Selection.allSelections, hg.field, hg.directives, Selection.readOff, Selection.directives,
      Selection.children]
  | .field ⟨_, _, _, directives, some set, _⟩ => by
    simp [visitSelection, Selection.allSelections, hg.field, hg.directives, Selection.readOff, Selection.directives,
      Selection.children, flatMap_visitSet hg _ set, SelectionSet.readOff]
  | .spread spread => by
    simp [visitSelection, Selection.allSelections, hg.spread, hg.directives, Selection.readOff, Selection.directives,
      Selection.children]
  | .inline ⟨_, directives, set, _⟩ => by
    simp [visitSelection, Selection.allSelections, hg.inline, hg.directives, Selection.readOff, Selection.directives,
      Selection.children, flatMap_visitSet hg _ set, SelectionSet.readOff]

end

/-- What is read off the visits of a definition does not depend on the types. -/
private theorem flatMap_visitDefinition (hg : Untyped g ofSet ofSelection ofDirectives) (definition : Definition) :
    (s.visitDefinition definition).flatMap g = definition.readOff g ofSet ofSelection ofDirectives := by
  cases definition with
  | operation o =>
    rw [visitDefinition, List.flatMap_append, List.flatMap_cons, List.flatMap_cons, flatMap_visitSet hg,
      List.flatMap_assoc, hg.directives]
    simp only [List.flatMap_cons, List.flatMap_nil, List.append_nil, hg.directives, Definition.readOff]
  | fragment f =>
    rw [visitDefinition, List.flatMap_cons, List.flatMap_cons, flatMap_visitSet hg, hg.directives]
    rfl

/-- Parts of one sort are listed without a schema, definition by definition. -/
theorem filterMap_visits {part? : Visit → Option α}
    (hg : Untyped (fun v => (part? v).toList) ofSet ofSelection ofDirectives) {parts : Definition → List α}
    (hparts : ∀ definition : Definition,
      definition.readOff (fun v => (part? v).toList) ofSet ofSelection ofDirectives = parts definition)
    (d : Document) : (s.visits d).filterMap part? = d.definitions.flatMap parts := by
  rw [visits, List.filterMap_flatMap]
  refine congrArg (List.flatMap · d.definitions) (funext fun definition => ?_)
  rw [List.filterMap_eq_flatMap_toList, flatMap_visitDefinition hg, hparts]

end Schema

namespace Visit

def selectionSet? : Visit → Option SelectionSet
  | .selectionSet _ set => some set
  | _ => none

def variableDefinition? : Visit → Option VariableDefinition
  | .variable v => some v
  | _ => none

def directives? : Visit → Option (List Directive)
  | .directives _ uses => some uses
  | _ => none

end Visit

namespace Definition

def selectionSets (definition : Definition) : List SelectionSet :=
  definition.selectionSet :: definition.selectionSet.allSelections.filterMap Selection.children

def variableDefinitions : Definition → List VariableDefinition
  | operation o => o.variableDefinitions
  | fragment _ => []

def directiveLists : Definition → List (List Directive)
  | operation o => o.variableDefinitions.map (·.directives) ++
    o.directives :: o.selectionSet.allSelections.map (·.directives)
  | fragment f => f.directives :: f.selectionSet.allSelections.map (·.directives)

end Definition

namespace Document

/-- The selection sets of a document, each one before those inside it. -/
def selectionSets (d : Document) : List SelectionSet := d.definitions.flatMap (·.selectionSets)

def variableDefinitions (d : Document) : List VariableDefinition := d.definitions.flatMap (·.variableDefinitions)

/-- The lists of directives of a document, also those without a directive. -/
def directiveLists (d : Document) : List (List Directive) := d.definitions.flatMap (·.directiveLists)

end Document

namespace Schema

variable {s : Schema}

private theorem untyped_selectionSet? :
    Untyped (fun v => v.selectionSet?.toList) (fun set => [set]) (fun _ => []) fun _ => [] := by
  constructor <;> intros <;> rfl

private theorem untyped_variableDefinition? :
    Untyped (fun v => v.variableDefinition?.toList) (fun _ => []) (fun _ => []) fun _ => [] := by
  constructor <;> intros <;> rfl

private theorem untyped_directives? :
    Untyped (fun v => v.directives?.toList) (fun _ => []) (fun _ => []) fun directives => [directives] := by
  constructor <;> intros <;> rfl

/-- A walk comes to each selection set once, in order. -/
theorem visits_selectionSets (d : Document) : (s.visits d).filterMap Visit.selectionSet? = d.selectionSets := by
  refine filterMap_visits untyped_selectionSet? (fun definition => ?_) d
  cases definition <;> simp [Definition.readOff, SelectionSet.readOff, Selection.readOff, Definition.selectionSets,
    Definition.selectionSet, Visit.selectionSet?, List.filterMap_eq_flatMap_toList]

theorem visits_variableDefinitions (d : Document) :
    (s.visits d).filterMap Visit.variableDefinition? = d.variableDefinitions := by
  refine filterMap_visits untyped_variableDefinition? (fun definition => ?_) d
  cases definition <;> simp [Definition.readOff, SelectionSet.readOff, Selection.readOff,
    Definition.variableDefinitions, Visit.variableDefinition?]

/-- A walk comes to each list of directives once, in order. -/
theorem visits_directiveLists (d : Document) : (s.visits d).filterMap Visit.directives? = d.directiveLists := by
  -- selection sets have no directives of their own
  have hsets (t : Selection) : (t.children.toList.flatMap fun _ => ([] : List (List Directive))) = [] :=
    List.flatMap_eq_nil_iff.2 fun _ _ => rfl
  refine filterMap_visits untyped_directives? (fun definition => ?_) d
  cases definition <;> simp [Definition.readOff, SelectionSet.readOff, Selection.readOff, Definition.directiveLists,
    Visit.directives?, List.map_eq_flatMap, hsets]

end Schema

/-! ### Places in the source -/

/-- The byte at which the part starts that a visit comes to; for directives, at which the first of them does. -/
def Visit.start? : Visit → Option Nat
  | .operation o => some o.span.first.offset
  | .fragment f => some f.span.first.offset
  | .variable v => some v.span.first.offset
  | .selectionSet _ set => some set.span.first.offset
  | .field _ f _ => some f.span.first.offset
  | .spread _ s => some s.span.first.offset
  | .inline _ i => some i.span.first.offset
  | .directives _ uses => uses.head?.map (·.span.first.offset)

/-- Bytes in order, inside the span. -/
structure Span.Orders (span : Span) (ns : List Nat) : Prop where
  ordered : ns.Pairwise (· ≤ ·)
  inside : ∀ n ∈ ns, span.first.offset ≤ n ∧ n ≤ span.stop.offset

/-- Bytes in order inside each of the spans, one span after the other. -/
inductive Along : List Span → List Nat → Prop where
  | nil : Along [] []
  | cons {span : Span} {spans : List Span} {ns ms : List Nat} (hns : span.Orders ns) (hms : Along spans ms) :
    Along (span :: spans) (ns ++ ms)

namespace Along

variable {spans spans' : List Span} {ns ms : List Nat}

private theorem single {span : Span} (h : span.Orders ns) : Along [span] ns := by
  have := cons h .nil
  rwa [List.append_nil] at this

/-- Bytes in order in two parts of the source are in order together. -/
private theorem append (h : Along spans ns) (h' : Along spans' ms) : Along (spans ++ spans') (ns ++ ms) := by
  induction h with
  | nil => exact h'
  | cons hns _ ih =>
    rw [List.append_assoc]
    exact .cons hns ih

private theorem flatMap {α : Type} {spanOf : α → Span} {f : α → List Nat} {xs : List α}
    (h : ∀ x ∈ xs, (spanOf x).Orders (f x)) : Along (xs.map spanOf) (xs.flatMap f) := by
  induction xs with
  | nil => exact .nil
  | cons x xs ih =>
    obtain ⟨hx, hxs⟩ := List.forall_mem_cons.1 h
    exact .cons hx (ih hxs)

private theorem exists_span (h : Along spans ns) {n : Nat} (hn : n ∈ ns) :
    ∃ span ∈ spans, span.first.offset ≤ n ∧ n ≤ span.stop.offset := by
  induction h with
  | nil => cases hn
  | @cons span spans ns ms hns _ ih =>
    rcases List.mem_append.1 hn with hn | hn
    · exact ⟨span, List.mem_cons_self .., hns.inside n hn⟩
    · obtain ⟨span', hspan', h⟩ := ih hn
      exact ⟨span', List.mem_cons_of_mem _ hspan', h⟩

/-- Where spans stand one after the other, the bytes inside them are in order. -/
theorem ordered (h : Along spans ns) (hapart : spans.Pairwise fun a b => a.stop.offset ≤ b.first.offset) :
    ns.Pairwise (· ≤ ·) := by
  induction h with
  | nil => exact .nil
  | cons hns hms ih =>
    obtain ⟨hspan, hspans⟩ := List.pairwise_cons.1 hapart
    refine List.pairwise_append.2 ⟨hns.ordered, ih hspans, fun n hn m hm => ?_⟩
    obtain ⟨span', hspan', hfirst, -⟩ := hms.exists_span hm
    calc n ≤ _ := (hns.inside n hn).2
      _ ≤ span'.first.offset := hspan span' hspan'
      _ ≤ m := hfirst

/-- The start of a node and bytes along some of its parts are in order inside the node. -/
theorem orders_node {span : Span} {parts : List SyntaxTree} (hnode : (SyntaxTree.node span parts).Nested)
    (hspans : spans.Sublist (SyntaxTree.spans parts)) (h : Along spans ns) :
    span.Orders (span.first.offset :: ns) := by
  cases hnode with
  | node hproper hinside hapart _ =>
    have hmem (n : Nat) (hn : n ∈ ns) : span.first.offset ≤ n ∧ n ≤ span.stop.offset := by
      obtain ⟨part, hpart, hfirst, hstop⟩ := h.exists_span hn
      obtain ⟨hpartFirst, hpartStop⟩ := hinside part (hspans.subset hpart)
      exact ⟨Nat.le_trans hpartFirst hfirst, Nat.le_trans hstop hpartStop⟩
    refine ⟨List.pairwise_cons.2 ⟨fun n hn => (hmem n hn).1, h.ordered (hapart.sublist hspans)⟩, ?_⟩
    exact List.forall_mem_cons.2 ⟨⟨Nat.le_refl _, Nat.le_of_lt hproper⟩, hmem⟩

end Along

namespace SyntaxTree

private theorem spans_append (trees trees' : List SyntaxTree) : spans (trees ++ trees') = spans trees ++ spans trees' :=
  List.filterMap_append

private theorem spans_map {α : Type} {tree : α → SyntaxTree} {spanOf : α → Span}
    (h : ∀ a, ∃ parts, tree a = .node (spanOf a) parts) (items : List α) :
    spans (items.map tree) = items.map spanOf := by
  rw [spans, List.filterMap_map, ← List.filterMap_eq_map]
  refine congrArg (List.filterMap · items) (funext fun a => ?_)
  obtain ⟨parts, hparts⟩ := h a
  simp [hparts, span?]

private theorem spans_between (opening close : Punctuator) (trees : List SyntaxTree) :
    spans (between opening close trees) = spans trees := by
  rw [between, spans_append, spans_append]
  exact List.append_nil _

private theorem spans_group {α : Type} {tree : α → SyntaxTree} {spanOf : α → Span}
    (h : ∀ a, ∃ parts, tree a = .node (spanOf a) parts) (opening close : Punctuator) (items : List α) :
    spans (group opening close tree items) = items.map spanOf := by
  rw [group]
  split
  · next hnil => rw [hnil]; rfl
  · rw [spans_between, spans_map h]

/-- Each item of a group is one of its trees. -/
private theorem mem_group {α : Type} {opening close : Punctuator} {tree : α → SyntaxTree} {items : List α} {a : α}
    (ha : a ∈ items) : tree a ∈ group opening close tree items := by
  rw [group, if_neg (List.ne_nil_of_mem ha)]
  simp [between, List.mem_map_of_mem ha]

private theorem Nested.of_mem {span : Span} {parts : List SyntaxTree} (h : (SyntaxTree.node span parts).Nested)
    {part : SyntaxTree} (hpart : part ∈ parts) : part.Nested := by
  cases h with
  | node _ _ _ hnested => exact hnested part hpart

end SyntaxTree

open SyntaxTree

private theorem Selection.tree_eq (s : Selection) : ∃ parts, s.tree = .node s.span parts := by
  cases s with
  | field f => exact ⟨_, Selection.tree_field f⟩
  | spread s => exact ⟨_, rfl⟩
  | inline i => exact ⟨_, Selection.tree_inline i⟩

/-- The first directive starts in its own span, and the others are passed over. -/
theorem along_directives (place : DirectiveLocation) {directives : List Directive}
    (h : ∀ d ∈ directives, d.tree.Nested) {spans : List Span} {visits : List Visit}
    (hvisits : Along spans (visits.filterMap Visit.start?)) :
    Along (directives.map (·.span) ++ spans)
      ((Visit.directives place directives :: visits).filterMap Visit.start?) := by
  have hnone (directives : List Directive) : Along (directives.map (·.span)) [] := by
    induction directives with
    | nil => exact .nil
    | cons d directives ih => exact .cons ⟨.nil, by simp⟩ ih
  cases directives with
  | nil => exact hvisits
  | cons d directives =>
    have horders : d.span.Orders [d.span.first.offset] :=
      Along.orders_node (h d (List.mem_cons_self ..)) (List.nil_sublist _) .nil
    exact .cons horders ((hnone directives).append hvisits)

private theorem Directive.tree_eq (d : Directive) : ∃ parts, d.tree = .node d.span parts := ⟨_, rfl⟩

private theorem VariableDefinition.tree_eq (v : VariableDefinition) : ∃ parts, v.tree = .node v.span parts := ⟨_, rfl⟩

private theorem SelectionSet.exists_tree_eq (set : SelectionSet) : ∃ parts, set.tree = .node set.span parts :=
  ⟨_, set.tree_eq⟩

/-- In a node that ends with directives and selection sets, the bytes of these come in order after its own start. -/
theorem orders_directives {span : Span} {front : List SyntaxTree} {directives : List Directive}
    (sets : List SelectionSet)
    (h : (SyntaxTree.node span (front ++ directiveTrees directives ++ sets.map (·.tree))).Nested)
    (place : DirectiveLocation) {visits : List Visit}
    (hvisits : Along (sets.map (·.span)) (visits.filterMap Visit.start?)) :
    span.Orders (span.first.offset :: (Visit.directives place directives :: visits).filterMap Visit.start?) := by
  have hdirectives : ∀ d ∈ directives, d.tree.Nested := fun d hd =>
    h.of_mem (List.mem_append_left _ (List.mem_append_right _ (List.mem_map_of_mem hd)))
  refine Along.orders_node h ?_ (along_directives place hdirectives hvisits)
  rw [spans_append, spans_append, directiveTrees, spans_map Directive.tree_eq, spans_map SelectionSet.exists_tree_eq,
    List.append_assoc]
  exact List.sublist_append_right ..

namespace Schema

variable {s : Schema}

mutual

/-- A walk of a selection set comes to its parts in the order of the source. -/
private theorem orders_visitSet (parent : Option TypeDefinition) : (set : SelectionSet) → set.tree.Nested →
    set.span.Orders ((s.visitSet parent set).filterMap Visit.start?)
  | ⟨items, span⟩, h => by
    rw [SelectionSet.tree_eq] at h
    have hitems : ∀ t ∈ items, t.tree.Nested := fun t ht => h.of_mem (by simp [between, List.mem_map_of_mem ht])
    rw [visitSet]
    refine Along.orders_node h ?_ (along_visitSelections parent items hitems)
    rw [spans_between, spans_map Selection.tree_eq]

private theorem along_visitSelections (parent : Option TypeDefinition) : (items : List Selection) →
    (∀ t ∈ items, t.tree.Nested) →
      Along (items.map (·.span)) ((s.visitSelections parent items).filterMap Visit.start?)
  | [], _ => .nil
  | selection :: rest, h => by
    rw [visitSelections, List.filterMap_append]
    obtain ⟨hfirst, hrest⟩ := List.forall_mem_cons.1 h
    exact .cons (orders_visitSelection parent selection hfirst) (along_visitSelections parent rest hrest)

private theorem orders_visitSelection (parent : Option TypeDefinition) :
    (selection : Selection) → selection.tree.Nested →
    selection.span.Orders ((s.visitSelection parent selection).filterMap Visit.start?)
  | .field ⟨aliasName, name, arguments, directives, none, span⟩, h => by
    rw [Selection.tree_field] at h
    rw [visitSelection]
    exact orders_directives [] h .field .nil
  | .field ⟨aliasName, name, arguments, directives, some set, span⟩, h => by
    rw [Selection.tree_field] at h
    have hset : set.tree.Nested := h.of_mem (by simp [selectionSetTrees])
    rw [visitSelection]
    exact orders_directives [set] h .field (.single (orders_visitSet _ set hset))
  | .spread spread, h => by
    have hspread : (SyntaxTree.node spread.span ([sign .ellipsis] ++ [spread.name.tree] ++
        directiveTrees spread.directives ++ [])).Nested := by rwa [List.append_nil]
    exact orders_directives [] hspread .fragmentSpread .nil
  | .inline ⟨condition, directives, set, span⟩, h => by
    rw [Selection.tree_inline] at h
    have hset : set.tree.Nested := h.of_mem (by simp)
    rw [visitSelection]
    exact orders_directives [set] h .inlineFragment (.single (orders_visitSet _ set hset))

end

private theorem orders_visitVariable (v : VariableDefinition) (h : v.tree.Nested) :
    v.span.Orders ([Visit.variable v, .directives .variableDefinition v.directives].filterMap Visit.start?) := by
  have hv : (SyntaxTree.node v.span ([VariableUse.tree ⟨v.name, v.variableSpan⟩] ++ [sign .colon] ++ [v.type.tree] ++
      defaultTrees v.defaultValue ++ directiveTrees v.directives ++ [])).Nested := by rwa [List.append_nil]
  exact orders_directives [] hv .variableDefinition .nil

private theorem orders_visitOperation {o : Operation} (hfits : o.Fits) (h : o.tree.Nested) :
    o.span.Orders ((s.visitDefinition (.operation o)).filterMap Visit.start?) := by
  have hspan : spans [o.selectionSet.tree] = [o.selectionSet.span] :=
    spans_map SelectionSet.exists_tree_eq [o.selectionSet]
  -- with or without a keyword, these are parts of the operation
  obtain ⟨parts, htree, hparts, hspans⟩ : ∃ parts, o.tree = .node o.span parts ∧
      (o.variableDefinitions.map (·.tree) ++ directiveTrees o.directives ++ [o.selectionSet.tree] ⊆ parts) ∧
      (o.variableDefinitions.map (·.span) ++ (o.directives.map (·.span) ++ [o.selectionSet.span])).Sublist
        (spans parts) := by
    rw [Operation.tree]
    split
    · next hshorthand =>
      obtain ⟨-, -, hvariables, hdirectives⟩ := hfits.shorthand hshorthand
      refine ⟨_, rfl, ?_, ?_⟩
      · simp [hvariables, hdirectives, directiveTrees]
      · rw [hvariables, hdirectives, hspan]
        exact List.Sublist.refl _
    · refine ⟨_, rfl, fun t ht => ?_, ?_⟩
      · rw [List.append_assoc, List.mem_append] at ht
        rw [List.append_assoc, List.mem_append]
        refine ht.imp_left fun ht => List.mem_append_right _ ?_
        obtain ⟨v, hv, rfl⟩ := List.mem_map.1 ht
        exact mem_group hv
      · rw [spans_append, spans_append, spans_append, spans_group VariableDefinition.tree_eq, directiveTrees,
          spans_map Directive.tree_eq, hspan, List.append_assoc, List.append_assoc]
        exact List.sublist_append_right ..
  rw [htree] at h
  have hvariables : ∀ v ∈ o.variableDefinitions, v.tree.Nested := fun v hv =>
    h.of_mem (hparts (by simp [List.mem_map_of_mem hv]))
  have hdirectives : ∀ d ∈ o.directives, d.tree.Nested := fun d hd =>
    h.of_mem (hparts (by simp [directiveTrees, List.mem_map_of_mem hd]))
  have hset : o.selectionSet.tree.Nested := h.of_mem (hparts (by simp))
  have horders : o.selectionSet.span.Orders ((s.visitSet (s.root? o.kind) o.selectionSet).filterMap Visit.start?) :=
    orders_visitSet _ _ hset
  have halong := Along.flatMap fun v hv => orders_visitVariable v (hvariables v hv)
  rw [← List.filterMap_flatMap] at halong
  rw [visitDefinition, List.filterMap_append]
  exact Along.orders_node h hspans
    (halong.append (along_directives o.kind.location hdirectives (.single horders)))

/-- A walk of a fragment comes to its parts in the order of the source. -/
private theorem orders_visitFragment {f : Fragment} (h : f.tree.Nested) :
    f.span.Orders ((s.visitDefinition (.fragment f)).filterMap Visit.start?) := by
  have hset : f.selectionSet.tree.Nested := h.of_mem (by simp)
  exact orders_directives [f.selectionSet] h .fragmentDefinition (.single (orders_visitSet _ f.selectionSet hset))

/-- A walk over a parsed document comes to its parts in the order in which they start. -/
theorem starts_visits_ordered {source : String} {d : Document} (h : Document.parse source = .ok d) :
    ((s.visits d).filterMap Visit.start?).Pairwise (· ≤ ·) := by
  obtain ⟨⟨ts, e, -, -, -, hnested⟩, -⟩ := Document.exactIn_of_parse h
  obtain ⟨us, rest, -, hd⟩ := Document.parse_sound h
  have hdefinition (x : Definition) (hx : x ∈ d.definitions) :
      x.span.Orders ((s.visitDefinition x).filterMap Visit.start?) := by
    have hx' : x.tree.Nested := hnested.of_mem (List.mem_map_of_mem hx)
    cases x with
    | operation o => exact orders_visitOperation (hd.fits.definitions _ hx) hx'
    | fragment f => exact orders_visitFragment hx'
  have halong : Along (d.definitions.map (·.span)) ((s.visits d).filterMap Visit.start?) := by
    rw [visits, List.filterMap_flatMap]
    exact .flatMap hdefinition
  have hspans : (d.definitions.map (·.span)).Sublist (spans (d.definitions.map (·.tree))) := by
    rw [spans_map Definition.tree_eq]
  exact (List.pairwise_cons.1 (Along.orders_node hnested hspans halong).ordered).2

end Schema

end GraphQL
