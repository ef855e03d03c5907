import GraphQL.Proofs.SpanSteps

/-!
# The spans of executable documents

Each routine of the grammar takes tokens in which its result is located: the node that it returns has the span from
the first of these tokens to the last (`definition_takes`). Where a routine gets the start of its node from a token
that was looked at before, the statement is about inputs that show this token (`keywordOperation_takesAt`).
-/

namespace GraphQL.Parse

open SyntaxTree

theorem stringLiteral_takes : Takes stringLiteral fun l => [l.tree] := by
  refine .peek fun t => ?_
  cases hkind : t.kind with
  | string raw =>
    simp only [pure_bind]
    split
    · rename_i value hcook
      exact token_takes (by simp [hkind]) rfl fun _ => by simp [Token.terminal, hkind, Token.Kind.terminal, hcook]
    · exact .of (.fail _ _)
  | blockString raw =>
    simp only [pure_bind]
    split
    · rename_i value hcook
      exact token_takes (by simp [hkind]) rfl fun _ => by simp [Token.terminal, hkind, Token.Kind.terminal, hcook]
    · exact .of (.fail _ _)
  | _ => exact .of (.fail_bind _ _)

private theorem objectField_takes {value : Parse Value} (h : Takes value fun v => [v.tree]) :
    Takes (objectField value) fun f => [f.tree] :=
  name_takes.bind fun _ _ hname => (Part.of_node hname).next (expect_takes .colon) fun _ _ hcolon =>
    hcolon.next h fun _ _ hvalue => hvalue.node fun _ hnode => hnode

private theorem Value.tree_takesToken (v : Value) : v.tree.TakesToken := by
  cases v <;> trivial

/-- The span of a value covers its tokens, and so at each level below. -/
private theorem value_takes (place : ValuePlace) (n : Nat) : Takes (value place n) fun v => [v.tree] := by
  induction n with
  | zero => exact .tooDeep
  | succ n ih =>
    refine .peek fun t => ?_
    split
    · rename_i hkind
      split
      · exact .of (.fail _ _)
      · exact .advance (by simp [hkind]) fun _ => variable_after hkind fun _ _ hvar => .pure hvar.located
    · rename_i raw hkind
      exact token_takes (by simp [hkind]) rfl fun _ => by simp [Token.terminal, hkind, Token.Kind.terminal]
    · rename_i raw hkind
      exact token_takes (by simp [hkind]) rfl fun _ => by simp [Token.terminal, hkind, Token.Kind.terminal]
    · exact .of (stringLiteral_takes.bind fun _ _ hstring => .pure hstring)
    · exact .of (stringLiteral_takes.bind fun _ _ hstring => .pure hstring)
    · rename_i hkind
      exact token_takes (by simp [hkind]) rfl fun _ => by rw [Token.terminal, hkind]; rfl
    · rename_i hkind
      exact token_takes (by simp [hkind]) rfl fun _ => by rw [Token.terminal, hkind]; rfl
    · rename_i hkind
      exact token_takes (by simp [hkind]) rfl fun _ => by rw [Token.terminal, hkind]; rfl
    · rename_i text hkind
      refine token_takes (by simp [hkind]) rfl fun hgenuine => ?_
      -- a genuine name is none of the words `true`, `false` and `null`
      have hword : t.kind = wordKind text := hgenuine.eq_wordKind (by rw [hkind]; rfl)
      rw [Token.terminal, hword, terminal_wordKind]
    · refine .of ((delimited_takes ih Value.tree_takesToken).bind fun r ts hr => ?_)
      obtain ⟨items, span⟩ := r
      exact .pure (by simpa [Value.tree, Value.itemTrees_eq] using hr.1)
    · refine .of ((delimited_takes (objectField_takes ih) fun _ => trivial).bind fun r ts hr => ?_)
      obtain ⟨fields, span⟩ := r
      exact .pure (by simpa [Value.tree, Value.fieldTrees_eq] using hr.1)
    · exact .of (.unexpected _ _)

private theorem argument_takes (place : ValuePlace) (n : Nat) : Takes (argument place n) fun a => [a.tree] :=
  name_takes.bind fun _ _ hname => (Part.of_node hname).next (expect_takes .colon) fun _ _ hcolon =>
    hcolon.next (value_takes place n) fun _ _ hvalue => hvalue.node fun _ hnode => hnode

private theorem arguments_takes (place : ValuePlace) (n : Nat) : Takes (arguments place n) argumentTrees :=
  delimitedIf_takes (argument_takes place n) fun _ => trivial

private theorem directive?_takes (place : ValuePlace) (n : Nat) : After [] (directive? place n)
    (Consumes.StepOf (fun ts d => Located [d.tree] ts) (Located [])) := by
  refine (accept_taken .atSign).bind fun o ts ho => ?_
  cases o with
  | none =>
    obtain rfl : ts = [] := ho
    exact .pure .nil
  | some sign =>
    obtain ⟨rfl, hsign⟩ := ho
    refine (part_sign hsign).next name_takes fun name us hname => hname.next (arguments_takes place n)
      fun arguments vs hargs => hargs.node fun span hnode => ⟨hnode.ne_nil trivial, hnode⟩

theorem directives_takes (place : ValuePlace) (n : Nat) : Takes (directives place n) directiveTrees :=
  (repeated_takes (directive?_takes place n)).mono fun ts ds hds => by
    simpa [directiveTrees, List.map_eq_flatMap] using hds

private theorem nullable_takes : Takes nullable bangTrees := by
  refine (accept_takes .bang).bind fun o ts ho => .pure ?_
  cases o with
  | none => exact ho
  | some _ => exact ho

/-- The span of a type reference covers its tokens, the mark of a type without null included. -/
theorem typeRef_takes (n : Nat) : Takes (typeRef n) fun t => [t.tree] := by
  induction n with
  | zero => exact .tooDeep
  | succ n ih =>
    refine .peek fun t => ?_
    split
    · rename_i hkind
      refine .advance (by simp [hkind]) fun _ => (part_sign hkind).next ih fun element us helement =>
        .peek fun close => ?_
      split
      · rename_i hclose
        have hbracket := helement.append (part_sign hclose).located
        exact .advance (by simp [hclose]) fun _ => hbracket.next nullable_takes fun _ _ hbang =>
          hbang.node fun _ hnode => hnode
      · split
        · exact .of (.fail_bind _ _)
        · exact .of (.fail_bind _ _)
    · split
      · exact .of (name_takes.bind fun _ _ hname => (Part.of_node hname).next nullable_takes fun _ _ hbang =>
          hbang.node fun _ hnode => hnode)
      · exact .of (.unexpected _ _)

/-! ### Selections -/

private theorem typeCondition_takes : Takes typeCondition fun c => [c.tree] :=
  (keyword_starts rfl).bind fun _ _ hon => hon.next name_takes fun _ _ hname => hname.node fun _ hnode => hnode

private theorem Selection.tree_takesToken (s : Selection) : s.tree.TakesToken := by
  cases s with
  | field f =>
    rw [Selection.tree_field]
    trivial
  | spread => trivial
  | inline i =>
    rw [Selection.tree_inline]
    trivial

section
variable {n : Nat} {set : Parse SelectionSet}

/-- The node of an inline fragment starts at its dots. -/
private theorem inlineRest_takes (h : Takes set fun set => [set.tree]) {start : Span} {condition : Option TypeCondition}
    {us : List Token} (hstart : Part start ([.sign .ellipsis] ++ conditionTrees condition) us) :
    After us (inlineRest n set start condition) fun vs s => Located [s.tree] vs :=
  hstart.next (directives_takes .anywhere n) fun _ _ hdirs => hdirs.next h fun _ _ hset =>
    hset.node fun _ hnode => hnode

private theorem fragmentSelection_takes (h : Takes set fun set => [set.tree]) :
    Takes (fragmentSelection n set) fun s => [s.tree] := by
  refine (expect_starts .ellipsis).bind fun dots ts hdots => .peek fun t => ?_
  split
  · exact .of (hdots.next typeCondition_takes fun condition us hcond => inlineRest_takes h hcond)
  · split
    · exact .of (inlineRest_takes h hdots)
    · split
      · exact .of (hdots.next name_takes fun _ _ hname => hname.next (directives_takes .anywhere n)
          fun _ _ hdirs => hdirs.node fun _ hnode => hnode)
      · exact .of (.unexpected _ _)

/-- The alias belongs to the node of the field, as the name does. -/
private theorem fieldNames_takes {first : Name} {us : List Token} (hfirst : Part first.span [first.tree] us) :
    After us (fieldNames first) fun vs names => Part first.span (aliasTrees names.1 ++ [names.2.tree]) vs := by
  refine hfirst.next (accept_takes .colon) fun o vs ho => ?_
  cases o with
  | none => exact .pure ho
  | some colon => exact ho.next name_takes fun name ws hname => .pure hname

private theorem selectionSet?_takes (h : Takes set fun set => [set.tree]) :
    Takes (selectionSet? set) selectionSetTrees := by
  refine nextIs_bind fun b => ?_
  split
  · exact h.map fun ts set hset => hset
  · exact .pure .nil

/-- The span of a field covers its tokens. -/
private theorem field_takes (h : Takes set fun set => [set.tree]) :
    Takes (field n set) fun f => [(Selection.field f).tree] := by
  rw [field_eq]
  refine name_takes.bind fun first ts hfirst => (fieldNames_takes (Part.of_node hfirst)).bind fun names us hnames =>
    hnames.next (arguments_takes .anywhere n) fun arguments vs hargs => hargs.next (directives_takes .anywhere n)
      fun directives ws hdirs => hdirs.next (selectionSet?_takes h) fun set xs hset =>
        hset.node fun span hnode => ?_
  simpa only [Selection.tree_field] using hnode

private theorem selection_takes (h : Takes set fun set => [set.tree]) : Takes (selection n set) fun s => [s.tree] := by
  refine .peek fun t => ?_
  split
  · exact .of (fragmentSelection_takes h)
  · split
    · exact .of ((field_takes h).bind fun f ts hf => .pure hf)
    · exact .of (.unexpected _ _)

end

/-- The span of a selection set covers its tokens, and so at each level below. -/
private theorem selectionSet_takes (n : Nat) : Takes (selectionSet n) fun set => [set.tree] := by
  induction n with
  | zero => exact .tooDeep
  | succ n ih =>
    refine (delimited_takes (selection_takes ih) Selection.tree_takesToken).bind fun r ts hr => ?_
    obtain ⟨selections, span⟩ := r
    exact .pure (by simpa [SelectionSet.tree_eq] using hr.1)

theorem default_takes (place : ValuePlace) : Takes (behind? .equals (value place maxDepth)) defaultTrees :=
  behind?_takes (value_takes place maxDepth) .equals

private theorem variableDefinition_takes : Takes variableDefinition fun v => [v.tree] := by
  have hdefault : Takes defaultValue? defaultTrees := default_takes .variableDefault
  rw [variableDefinition_eq]
  refine (expect_taken .dollar).bind fun dollar ts hdollar => ?_
  obtain ⟨rfl, hdollar⟩ := hdollar
  exact variable_after hdollar fun name us hname => hname.next (expect_takes .colon) fun _ vs hcolon =>
    hcolon.next (typeRef_takes maxDepth) fun type ws htype => htype.next hdefault fun default xs hdefault =>
      hdefault.next (directives_takes .constDirective maxDepth) fun directives ys hdirs =>
        hdirs.node fun span hnode => hnode

private theorem operationName?_takes : Takes operationName? fun o => o.toList.map (·.tree) := by
  refine .peek fun t => ?_
  split
  · exact .of (name_takes.map fun ts n hn => hn)
  · exact .of (.pure .nil)

/-- The span of an operation covers its tokens from the keyword on. -/
theorem keywordOperation_takesAt {kind : OperationKind} {t : Token} (ht : t.kind = .name kind.keyword) :
    AfterAt [] t (keywordOperation kind) fun ts o => Located [o.tree] ts := by
  have hkeyword : Part t.span [.word kind.keyword] [t] := part_word ht (by cases kind <;> rfl)
  have hvariables : Takes (delimitedIf .openParen .closeParen "variable definitions" variableDefinition)
      (group .openParen .closeParen VariableDefinition.tree) :=
    delimitedIf_takes variableDefinition_takes fun _ => trivial
  rw [keywordOperation_eq]
  exact .peek (.advance (by simp [ht]) fun _ => hkeyword.next operationName?_takes fun name us hname =>
    hname.next hvariables fun definitions vs hdefs => hdefs.next (directives_takes .anywhere maxDepth)
      fun directives ws hdirs => hdirs.next (selectionSet_takes maxDepth) fun set xs hset =>
        hset.node fun span hnode => hnode)

/-- The span of a bare query is that of its selection set. -/
private theorem shorthandQuery_takes : Takes shorthandQuery fun o => [o.tree] := by
  refine (selectionSet_takes maxDepth).bind fun set ts hset => .pure ?_
  -- the operation has the span of its only part
  have hspan : set.span.Covers ts := by
    simp only [set.tree_eq] at hset
    exact (located_node.1 hset).2
  exact located_node.2 ⟨hset, hspan⟩

private theorem fragmentDefinition_takes : Takes fragmentDefinition fun f => [f.tree] := by
  refine (keyword_starts rfl).bind fun start ts hstart => .peek fun t => ?_
  split
  · exact .of (.fail_bind _ _)
  · exact .of (hstart.next name_takes fun name us hname => hname.next typeCondition_takes fun condition vs hcond =>
      hcond.next (directives_takes .anywhere maxDepth) fun directives ws hdirs =>
        hdirs.next (selectionSet_takes maxDepth) fun set xs hset => hset.node fun span hnode => hnode)

/-- The span of a definition covers its tokens. -/
theorem definition_takes : Takes definition fun x => [x.tree] := by
  refine .peek fun t => ?_
  split
  · exact .of (shorthandQuery_takes.bind fun o ts ho => .pure ho)
  · exact .of (.fail _ _)
  · exact .of (.fail _ _)
  · rename_i w hkind
    split
    · rename_i kind hword
      have ht : t.kind = .name kind.keyword := by rw [hkind, keyword_of_ofKeyword? hword]
      exact (keywordOperation_takesAt ht).bind fun o ts ho => .pure ho
    · split
      · exact .of (fragmentDefinition_takes.bind fun f ts hf => .pure hf)
      · split
        · exact .of (.fail _ _)
        · exact .of (.unexpected _ _)
  · exact .of (.unexpected _ _)

/-- The loop over definitions takes a stretch of tokens for each of them, and the document runs from the first to the
last. -/
theorem definitions_after {α : Type} {kind : DocumentKind} {p : Parse α} {tree : α → SyntaxTree}
    {P : List Token → α → Prop} (h : After [] p fun ts a => Located [tree a] ts ∧ P ts a)
    (htree : ∀ a, (tree a).TakesToken) : After [] (definitions kind p) fun ts r =>
      Located [.node r.2 (r.1.map tree)] ts ∧
        ∀ a ∈ r.1, ∃ before us after, ts = before ++ us ++ after ∧ Located [tree a] us ∧ P us a := by
  refine .peek fun start => (AfterAt.head (After.repeated
    (Q := fun ts a => Located [tree a] ts ∧ P ts a) (N := (· = [])) ?_)).bind fun items ts hitems => ?_
  · refine .peek fun t => ?_
    split
    · exact .of (.pure rfl)
    · exact .of (h.map fun ts a ha => ⟨ha.1.ne_nil (htree a), ha⟩)
  · obtain ⟨hsequence, hhead⟩ := hitems
    have hlocated : Located (items.map tree) ts := by
      have := hsequence.located (g := fun a => [tree a]) (e := []) (fun _ _ h => h.1) fun us hus => hus ▸ .nil
      rwa [List.append_nil, ← List.map_eq_flatMap] at this
    split
    · exact .fail_bind _ _
    · rename_i hempty
      -- there is a first definition, which starts with the token that the loop was shown
      have hfirst : ts ≠ [] := by
        obtain ⟨a, items, rfl⟩ := List.exists_cons_of_ne_nil (by simpa using hempty)
        exact Located.ne_nil hlocated (htree a)
      obtain ⟨first, rest, rfl⟩ := List.exists_cons_of_ne_nil hfirst
      obtain rfl : first = start := hhead first rfl
      exact Part.node ⟨hlocated, first, rfl, rfl⟩ fun span hnode => ⟨hnode, hsequence.exists_stretch⟩

end GraphQL.Parse
