import GraphQL.Proofs.SchemaTerminals

/-!
# Syntax trees over tokens

Every node of a document is built from a stretch of tokens: its own signs and words, and the stretches of its parts.
`Document.tree` and `SchemaDocument.tree` write a document out as such a tree, in which a node keeps nothing but its
span. A tree is located in a list of tokens when its leaves are these tokens and each node's span runs from the
start of its first token to the end of its last (`Located`). Tokens stand one after the other, so the spans of the
parts of a node lie inside its own, one after the other as well (`Located.nested`).
-/

namespace GraphQL

inductive SyntaxTree where
  | leaf (terminal : Terminal)
  /-- A sign that may be left out, such as the one in front of a list with separators. -/
  | optional (terminal : Terminal)
  | node (span : Span) (parts : List SyntaxTree)

/-- The span runs from the start of the first token to the end of the last. -/
def Span.Covers (span : Span) (ts : List Token) : Prop :=
  ∃ first ∈ ts.head?, ∃ last ∈ ts.getLast?, span = first.span.through last.span

/-- The leaves of the trees are the tokens, and each node's span covers the tokens that the node is built from. -/
inductive Located : List SyntaxTree → List Token → Prop where
  | nil : Located [] []
  | leaf {trees : List SyntaxTree} {ts : List Token} (t : Token) (rest : Located trees ts) :
    Located (.leaf t.terminal :: trees) (t :: ts)
  | taken {trees : List SyntaxTree} {ts : List Token} (t : Token) (rest : Located trees ts) :
    Located (.optional t.terminal :: trees) (t :: ts)
  | skipped {trees : List SyntaxTree} {ts : List Token} (terminal : Terminal) (rest : Located trees ts) :
    Located (.optional terminal :: trees) ts
  | node {span : Span} {parts trees : List SyntaxTree} {ts us : List Token} (body : Located parts ts)
    (covers : span.Covers ts) (rest : Located trees us) : Located (.node span parts :: trees) (ts ++ us)

/-- Each token that is not the end of the input has a text, and none starts before those in front of it have
ended. -/
structure InOrder (ts : List Token) : Prop where
  proper : ∀ t ∈ ts, t.kind ≠ .endOfInput → t.span.first.offset < t.span.stop.offset
  apart : ts.Pairwise fun t u => t.span.stop.offset ≤ u.span.first.offset

namespace InOrder

variable {ts us : List Token}

theorem sublist (h : InOrder ts) (hus : us.Sublist ts) : InOrder us :=
  ⟨fun t ht => h.proper t (hus.subset ht), h.apart.sublist hus⟩

/-- The first token starts before the others. -/
theorem first_le (h : InOrder ts) (hinput : ∀ t ∈ ts, t.kind ≠ .endOfInput) {first : Token}
    (hfirst : first ∈ ts.head?) : ∀ t ∈ ts, first.span.first.offset ≤ t.span.first.offset := by
  have hproper := h.proper first (List.mem_of_head? hfirst) (hinput first (List.mem_of_head? hfirst))
  obtain ⟨rest, rfl⟩ := List.head?_eq_some_iff.1 hfirst
  intro t ht
  rcases List.mem_cons.1 ht with rfl | ht
  · exact Nat.le_refl _
  · have := (List.pairwise_cons.1 h.apart).1 t ht
    omega

/-- The last token ends behind the others. -/
theorem le_stop (h : InOrder ts) (hinput : ∀ t ∈ ts, t.kind ≠ .endOfInput) {last : Token}
    (hlast : last ∈ ts.getLast?) : ∀ t ∈ ts, t.span.stop.offset ≤ last.span.stop.offset := by
  have hproper := h.proper last (List.mem_of_getLast? hlast) (hinput last (List.mem_of_getLast? hlast))
  obtain ⟨front, rfl⟩ := List.getLast?_eq_some_iff.1 hlast
  intro t ht
  rcases List.mem_append.1 ht with ht | ht
  · have := (List.pairwise_append.1 h.apart).2.2 t ht last (by simp)
    omega
  · obtain rfl : t = last := by simpa using ht
    exact Nat.le_refl _

end InOrder

namespace Span.Covers

variable {span : Span} {ts us : List Token}

theorem ne_nil (h : span.Covers ts) : ts ≠ [] := by
  rintro rfl
  obtain ⟨first, hfirst, -⟩ := h
  cases hfirst

/-- The span of tokens in order begins before it ends, and it lies around the span of each of them. -/
theorem around (h : span.Covers ts) (hts : InOrder ts) (hinput : ∀ t ∈ ts, t.kind ≠ .endOfInput) :
    span.first.offset < span.stop.offset ∧
      ∀ t ∈ ts, span.first.offset ≤ t.span.first.offset ∧ t.span.stop.offset ≤ span.stop.offset := by
  obtain ⟨first, hfirst, last, hlast, rfl⟩ := h
  have hmem : first ∈ ts := List.mem_of_head? hfirst
  have hbehind := hts.first_le hinput hfirst
  have hbefore := hts.le_stop hinput hlast
  refine ⟨?_, fun t ht => ⟨hbehind t ht, hbefore t ht⟩⟩
  calc first.span.first.offset < first.span.stop.offset := hts.proper first hmem (hinput first hmem)
    _ ≤ last.span.stop.offset := hbefore first hmem

/-- Stretches of tokens one after the other have spans one after the other. -/
theorem apart {span' : Span} (h : span.Covers ts) (h' : span'.Covers us)
    (hts : (ts ++ us).Pairwise fun t u => t.span.stop.offset ≤ u.span.first.offset) :
    span.stop.offset ≤ span'.first.offset := by
  obtain ⟨-, -, last, hlast, rfl⟩ := h
  obtain ⟨first, hfirst, -, -, rfl⟩ := h'
  exact (List.pairwise_append.1 hts).2.2 last (List.mem_of_getLast? hlast) first (List.mem_of_head? hfirst)

end Span.Covers

theorem Located.singleton (t : Token) : Located [.leaf t.terminal] [t] := .leaf t .nil

/-- Trees are located in tokens one after the other. -/
theorem Located.append {trees trees' : List SyntaxTree} {ts us : List Token} (h : Located trees ts)
    (h' : Located trees' us) : Located (trees ++ trees') (ts ++ us) := by
  induction h with
  | nil => exact h'
  | leaf t _ ih => exact .leaf t ih
  | taken t _ ih => exact .taken t ih
  | skipped terminal _ ih => exact .skipped terminal ih
  | node body covers _ _ ih =>
    rw [List.append_assoc]
    exact .node body covers ih

/-- A single node, with the stretch that it covers. -/
theorem located_node {span : Span} {parts : List SyntaxTree} {ts : List Token} :
    Located [.node span parts] ts ↔ Located parts ts ∧ span.Covers ts := by
  constructor
  · intro h
    cases h with
    | node body covers rest =>
      cases rest
      rw [List.append_nil]
      exact ⟨body, covers⟩
  · intro h
    have := Located.node h.1 h.2 .nil
    rwa [List.append_nil] at this

/-- A tree that is not optional takes a token. -/
def SyntaxTree.TakesToken : SyntaxTree → Prop
  | optional _ => False
  | _ => True

/-- Trees of which the first is not optional take tokens. -/
theorem Located.ne_nil {tree : SyntaxTree} {trees : List SyntaxTree} {ts : List Token} (h : Located (tree :: trees) ts)
    (htree : tree.TakesToken) : ts ≠ [] := by
  cases h with
  | leaf => simp
  | taken | skipped => exact htree.elim
  | node body covers rest => simp [covers.ne_nil]

namespace SyntaxTree

def span? : SyntaxTree → Option Span
  | node span _ => some span
  | _ => none

/-- The spans of the nodes among the trees. -/
def spans (trees : List SyntaxTree) : List Span := trees.filterMap span?

/-- Every node begins before it ends, its parts lie inside it, and none of them starts before the ones in front of it
have ended. -/
inductive Nested : SyntaxTree → Prop where
  | leaf (terminal : Terminal) : Nested (.leaf terminal)
  | optional (terminal : Terminal) : Nested (.optional terminal)
  | node {span : Span} {parts : List SyntaxTree} (proper : span.first.offset < span.stop.offset)
    (inside : ∀ s ∈ spans parts, span.first.offset ≤ s.first.offset ∧ s.stop.offset ≤ span.stop.offset)
    (apart : (spans parts).Pairwise fun a b => a.stop.offset ≤ b.first.offset)
    (nested : ∀ part ∈ parts, Nested part) : Nested (.node span parts)

end SyntaxTree

open SyntaxTree

/-- The span of a located node covers a stretch of the tokens. -/
theorem Located.exists_infix {trees : List SyntaxTree} {ts : List Token} (h : Located trees ts) :
    ∀ s ∈ spans trees, ∃ us, us <:+: ts ∧ s.Covers us := by
  induction h with
  | nil => simp [spans]
  | leaf t _ ih | taken t _ ih =>
    intro s hs
    obtain ⟨us, hus, hcovers⟩ := ih s hs
    exact ⟨us, hus.trans (List.suffix_cons _ _).isInfix, hcovers⟩
  | skipped _ _ ih => exact ih
  | @node span parts trees ts us body covers rest _ ih =>
    intro s hs
    rcases List.mem_cons.1 hs with rfl | hs
    · exact ⟨ts, (List.prefix_append _ _).isInfix, covers⟩
    · obtain ⟨vs, hvs, hcovers⟩ := ih s hs
      exact ⟨vs, hvs.trans (List.suffix_append _ _).isInfix, hcovers⟩

/-- The spans of located nodes stand one after the other. -/
theorem Located.apart {trees : List SyntaxTree} {ts : List Token} (h : Located trees ts) (hts : InOrder ts) :
    (spans trees).Pairwise fun a b => a.stop.offset ≤ b.first.offset := by
  induction h with
  | nil => exact .nil
  | leaf t _ ih | taken t _ ih => exact ih (hts.sublist (List.sublist_cons_self _ _))
  | skipped _ _ ih => exact ih hts
  | @node span parts trees ts us body covers rest _ ih =>
    refine List.pairwise_cons.2 ⟨fun s hs => ?_, ih (hts.sublist (List.sublist_append_right _ _))⟩
    obtain ⟨vs, hvs, hcovers⟩ := rest.exists_infix s hs
    exact covers.apart hcovers (hts.apart.sublist (hvs.sublist.append_left ts))

/-- The nodes of a located tree are nested as their tokens stand. -/
theorem Located.nested {trees : List SyntaxTree} {ts : List Token} (h : Located trees ts) (hts : InOrder ts)
    (hinput : ∀ t ∈ ts, t.kind ≠ .endOfInput) : ∀ tree ∈ trees, tree.Nested := by
  induction h with
  | nil => simp
  | leaf t _ ih | taken t _ ih =>
    have hrest := ih (hts.sublist (List.sublist_cons_self _ _)) fun u hu => hinput u (by simp [hu])
    exact List.forall_mem_cons.2 ⟨by constructor, hrest⟩
  | skipped terminal _ ih => exact List.forall_mem_cons.2 ⟨.optional terminal, ih hts hinput⟩
  | @node span parts trees ts us body covers rest ihparts ih =>
    have hbody : InOrder ts := hts.sublist (List.sublist_append_left _ _)
    have hinner (t : Token) (ht : t ∈ ts) : t.kind ≠ .endOfInput := hinput t (by simp [ht])
    obtain ⟨hproper, haround⟩ := covers.around hbody hinner
    refine List.forall_mem_cons.2 ⟨.node hproper (fun s hs => ?_) (body.apart hbody) (ihparts hbody hinner), ?_⟩
    · obtain ⟨vs, hvs, first, hfirst, last, hlast, rfl⟩ := body.exists_infix s hs
      have hmem := haround first (hvs.sublist.subset (List.mem_of_head? hfirst))
      have hmem' := haround last (hvs.sublist.subset (List.mem_of_getLast? hlast))
      exact ⟨hmem.1, hmem'.2⟩
    · exact ih (hts.sublist (List.sublist_append_right _ _)) fun u hu => hinput u (by simp [hu])

namespace SyntaxTree

def sign (p : Punctuator) : SyntaxTree := leaf (Terminal.sign p)

def word (w : String) : SyntaxTree := leaf (Terminal.word w)

/-- Trees between two signs. -/
def between (opening close : Punctuator) (trees : List SyntaxTree) : List SyntaxTree :=
  [sign opening] ++ trees ++ [sign close]

/-- Items between two signs, or nothing where there is no item. -/
def group {α : Type} (opening close : Punctuator) (tree : α → SyntaxTree) (items : List α) : List SyntaxTree :=
  if items = [] then [] else between opening close (items.map tree)

/-- Items after a separator that may stand in front of them, with the separator between each two. -/
def listed {α : Type} (separator : Punctuator) (tree : α → SyntaxTree) : List α → List SyntaxTree
  | [] => [optional (Terminal.sign separator)]
  | a :: as => [optional (Terminal.sign separator)] ++ [tree a] ++ as.flatMap fun b => [sign separator, tree b]

end SyntaxTree

/-! ### Values and types -/

def Name.tree (n : Name) : SyntaxTree := .node n.span [word n.value]

def StringLiteral.tree (l : StringLiteral) : SyntaxTree := .node l.span [.leaf (.string l.value l.block)]

def VariableUse.tree (use : VariableUse) : SyntaxTree := .node use.span ([sign .dollar] ++ [use.name.tree])

mutual

def Value.tree : Value → SyntaxTree
  | .var use => use.tree
  | .int raw span => .node span [.leaf (.plain (.int raw))]
  | .float raw span => .node span [.leaf (.plain (.float raw))]
  | .string l => l.tree
  | .boolean b span => .node span [word (if b then "true" else "false")]
  | .null span => .node span [word "null"]
  | .enum value span => .node span [word value]
  | .list items span => .node span (between .openBracket .closeBracket (Value.itemTrees items))
  | .object fields span => .node span (between .openBrace .closeBrace (Value.fieldTrees fields))

def Value.itemTrees : List Value → List SyntaxTree
  | [] => []
  | v :: vs => v.tree :: Value.itemTrees vs

def Value.fieldTrees : List ObjectField → List SyntaxTree
  | [] => []
  | ⟨name, v, span⟩ :: fs => .node span ([name.tree] ++ [sign .colon] ++ [v.tree]) :: Value.fieldTrees fs

end

def ObjectField.tree (f : ObjectField) : SyntaxTree :=
  .node f.span ([f.name.tree] ++ [sign .colon] ++ [f.value.tree])

theorem Value.itemTrees_eq (items : List Value) : itemTrees items = items.map (·.tree) := by
  induction items with
  | nil => rfl
  | cons v vs ih => rw [itemTrees, List.map_cons, ih]

theorem Value.fieldTrees_eq (fields : List ObjectField) : fieldTrees fields = fields.map (·.tree) := by
  induction fields with
  | nil => rfl
  | cons f fs ih =>
    obtain ⟨name, v, span⟩ := f
    rw [fieldTrees, List.map_cons, ih]
    rfl

def Argument.tree (a : Argument) : SyntaxTree := .node a.span ([a.name.tree] ++ [sign .colon] ++ [a.value.tree])

def argumentTrees (arguments : List Argument) : List SyntaxTree :=
  group .openParen .closeParen Argument.tree arguments

def Directive.tree (d : Directive) : SyntaxTree :=
  .node d.span ([sign .atSign] ++ [d.name.tree] ++ argumentTrees d.arguments)

def directiveTrees (directives : List Directive) : List SyntaxTree := directives.map (·.tree)

/-- The sign of a type that is not nullable. -/
def bangTrees (nullable : Bool) : List SyntaxTree := if nullable then [] else [sign .bang]

def TypeRef.tree : TypeRef → SyntaxTree
  | named name nullable span => .node span ([name.tree] ++ bangTrees nullable)
  | list element nullable span =>
    .node span ([sign .openBracket] ++ [element.tree] ++ [sign .closeBracket] ++ bangTrees nullable)

/-- A value behind its sign, if there is one. -/
def defaultTrees (defaultValue : Option Value) : List SyntaxTree :=
  defaultValue.toList.flatMap fun v => [sign .equals] ++ [v.tree]

def TypeCondition.tree (c : TypeCondition) : SyntaxTree := .node c.span ([word "on"] ++ [c.typeName.tree])

def conditionTrees (condition : Option TypeCondition) : List SyntaxTree := condition.toList.map (·.tree)

/-- The alias of a field, with the colon after it. -/
def aliasTrees (aliasName : Option Name) : List SyntaxTree :=
  aliasName.toList.flatMap fun a => [a.tree] ++ [sign .colon]

def FragmentSpread.tree (s : FragmentSpread) : SyntaxTree :=
  .node s.span ([sign .ellipsis] ++ [s.name.tree] ++ directiveTrees s.directives)

mutual

def SelectionSet.tree : SelectionSet → SyntaxTree
  | ⟨selections, span⟩ => .node span (between .openBrace .closeBrace (selectionTrees selections))

def selectionTrees : List Selection → List SyntaxTree
  | [] => []
  | s :: rest => s.tree :: selectionTrees rest

def Selection.tree : Selection → SyntaxTree
  | .field ⟨aliasName, name, arguments, directives, none, span⟩ =>
    .node span (aliasTrees aliasName ++ [name.tree] ++ argumentTrees arguments ++ directiveTrees directives)
  | .field ⟨aliasName, name, arguments, directives, some set, span⟩ =>
    .node span (aliasTrees aliasName ++ [name.tree] ++ argumentTrees arguments ++ directiveTrees directives ++
      [set.tree])
  | .spread s => s.tree
  | .inline ⟨condition, directives, set, span⟩ =>
    .node span ([sign .ellipsis] ++ conditionTrees condition ++ directiveTrees directives ++ [set.tree])

end

private theorem selectionTrees_eq (selections : List Selection) :
    selectionTrees selections = selections.map (·.tree) := by
  induction selections with
  | nil => rfl
  | cons s rest ih => rw [selectionTrees, List.map_cons, ih]

/-- The node of a selection set is made of its selections between the braces. -/
theorem SelectionSet.tree_eq (set : SelectionSet) :
    set.tree = .node set.span (between .openBrace .closeBrace (set.selections.map (·.tree))) := by
  obtain ⟨selections, span⟩ := set
  rw [tree, selectionTrees_eq]

def selectionSetTrees (set : Option SelectionSet) : List SyntaxTree := set.toList.map (·.tree)

theorem Selection.tree_field (f : Field) : (field f).tree =
    .node f.span (aliasTrees f.aliasName ++ [f.name.tree] ++ argumentTrees f.arguments ++
      directiveTrees f.directives ++ selectionSetTrees f.selectionSet) := by
  obtain ⟨_, _, _, _, set, _⟩ := f
  cases set <;> simp [Selection.tree, selectionSetTrees]

theorem Selection.tree_inline (i : InlineFragment) : (inline i).tree =
    .node i.span ([sign .ellipsis] ++ conditionTrees i.condition ++ directiveTrees i.directives ++
      [i.selectionSet.tree]) := by
  obtain ⟨_, _, _, _⟩ := i
  rfl

/-- The variable is a node of its own, which covers its `$`. -/
def VariableDefinition.tree (v : VariableDefinition) : SyntaxTree :=
  .node v.span ([VariableUse.tree ⟨v.name, v.variableSpan⟩] ++ [sign .colon] ++ [v.type.tree] ++
    defaultTrees v.defaultValue ++ directiveTrees v.directives)

/-- An operation without keyword has the span of its selection set. -/
def Operation.tree (o : Operation) : SyntaxTree :=
  if o.shorthand then .node o.span [o.selectionSet.tree]
  else .node o.span ([word o.kind.keyword] ++ o.name.toList.map (·.tree) ++
    group .openParen .closeParen VariableDefinition.tree o.variableDefinitions ++ directiveTrees o.directives ++
    [o.selectionSet.tree])

def Fragment.tree (f : Fragment) : SyntaxTree :=
  .node f.span ([word "fragment"] ++ [f.name.tree] ++ [f.condition.tree] ++ directiveTrees f.directives ++
    [f.selectionSet.tree])

def Definition.tree : Definition → SyntaxTree
  | operation o => o.tree
  | fragment f => f.tree

def Document.tree (d : Document) : SyntaxTree := .node d.span (d.definitions.map (·.tree))

def descriptionTrees (description : Option StringLiteral) : List SyntaxTree := description.toList.map (·.tree)

def InputValueDefinition.tree (v : InputValueDefinition) : SyntaxTree :=
  .node v.span (descriptionTrees v.description ++ [v.name.tree] ++ [sign .colon] ++ [v.type.tree] ++
    defaultTrees v.defaultValue ++ directiveTrees v.directives)

def argumentDefinitionTrees (arguments : List InputValueDefinition) : List SyntaxTree :=
  group .openParen .closeParen InputValueDefinition.tree arguments

def FieldDefinition.tree (f : FieldDefinition) : SyntaxTree :=
  .node f.span (descriptionTrees f.description ++ [f.name.tree] ++ argumentDefinitionTrees f.arguments ++
    [sign .colon] ++ [f.type.tree] ++ directiveTrees f.directives)

def EnumValueDefinition.tree (v : EnumValueDefinition) : SyntaxTree :=
  .node v.span (descriptionTrees v.description ++ [v.name.tree] ++ directiveTrees v.directives)

def interfaceTrees (interfaces : List Name) : List SyntaxTree :=
  if interfaces = [] then [] else [word "implements"] ++ listed .ampersand Name.tree interfaces

def memberTrees (members : List Name) : List SyntaxTree :=
  if members = [] then [] else [sign .equals] ++ listed .pipe Name.tree members

/-- What follows the name in the definition of a type. -/
def TypeBody.trees (directives : List Directive) : TypeBody → List SyntaxTree
  | scalar => directiveTrees directives
  | object interfaces fields | interface interfaces fields =>
    interfaceTrees interfaces ++ directiveTrees directives ++ group .openBrace .closeBrace FieldDefinition.tree fields
  | union members => directiveTrees directives ++ memberTrees members
  | enum values => directiveTrees directives ++ group .openBrace .closeBrace EnumValueDefinition.tree values
  | inputObject fields => directiveTrees directives ++ group .openBrace .closeBrace InputValueDefinition.tree fields

def RootOperation.tree (o : RootOperation) : SyntaxTree :=
  .node o.span ([word o.kind.keyword] ++ [sign .colon] ++ [o.typeName.tree])

def LocatedPlace.tree (p : LocatedPlace) : SyntaxTree := .node p.span [word p.place.text]

/-- A definition of a type behind its description, or behind the word that makes it an extension. -/
def TypeDefinition.tree (front : List SyntaxTree) (t : TypeDefinition) : SyntaxTree :=
  .node t.span (front ++ [word t.body.keyword] ++ [t.name.tree] ++ t.body.trees t.directives)

def SchemaDefinition.tree (front : List SyntaxTree) (s : SchemaDefinition) : SyntaxTree :=
  .node s.span (front ++ [word "schema"] ++ directiveTrees s.directives ++
    group .openBrace .closeBrace RootOperation.tree s.rootOperations)

def DirectiveDefinition.tree (front : List SyntaxTree) (d : DirectiveDefinition) : SyntaxTree :=
  .node d.span (front ++ [word "directive"] ++ [sign .atSign] ++ [d.name.tree] ++
    argumentDefinitionTrees d.arguments ++ (if d.repeatable then [word "repeatable"] else []) ++ [word "on"] ++
    listed .pipe LocatedPlace.tree d.locations)

def TypeSystemDefinition.tree : TypeSystemDefinition → SyntaxTree
  | schema s => s.tree (descriptionTrees s.description)
  | schemaExtension s => s.tree [word "extend"]
  | type t => t.tree (descriptionTrees t.description)
  | typeExtension t => t.tree [word "extend"]
  | directive d => d.tree (descriptionTrees d.description)

def SchemaDocument.tree (d : SchemaDocument) : SyntaxTree := .node d.span (d.definitions.map (·.tree))

end GraphQL
