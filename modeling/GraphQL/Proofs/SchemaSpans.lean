import GraphQL.Proofs.SpanGrammar

/-!
# The spans of schema documents

As in executable documents, the result of each routine is located in the tokens that it takes
(`typeSystemDefinition_takes`). A described node starts with its description (`Part.described`). The routines for
whole definitions are given the start of their node, so they are told what is in front: the description, or the word
that makes the definition an extension.
-/

namespace GraphQL.Parse

open SyntaxTree

variable {α β : Type}

private theorem description_takes : Takes description descriptionTrees := by
  have hstring : Takes (some <$> stringLiteral) descriptionTrees := stringLiteral_takes.map fun ts l hl => hl
  refine .peek fun t => ?_
  split
  · exact .of hstring
  · exact .of hstring
  · exact .of (.pure .nil)

/-- A node starts with its description, or else with what is behind. -/
theorem Part.described {description : Option StringLiteral} {start : Span} {trees : List SyntaxTree}
    {ts us : List Token} (hd : Located (descriptionTrees description) ts) (h : Part start trees us) :
    Part ((description.map (·.span)).getD start) (descriptionTrees description ++ trees) (ts ++ us) := by
  cases description with
  | none =>
    cases hd
    exact h
  | some l => exact (Part.of_node hd).append h.located

/-- A keyword that was looked at before is the next token. -/
theorem keyword_takenAt {w : String} {t : Token} (ht : t.kind = .name w) (us : List Token) :
    AfterAt us t (keyword w) fun vs _ => vs = us ++ [t] := by
  refine .peek ?_
  rw [if_pos ht]
  exact .advance (by simp [ht]) fun _ => .pure rfl

/-- What an extension has to add takes no tokens by itself. -/
private theorem requireAddition_after {isExtension nothing : Bool} {t : Token} {additions : String} {us : List Token}
    {f : Unit → Parse β} {Q : List Token → β → Prop} (h : After us (f ()) Q) :
    After us (requireAddition isExtension t nothing additions >>= f) Q := by
  unfold requireAddition
  split
  · exact .fail_bind _ _
  · exact h

/-- A name behind its description, with which a part of a definition begins. -/
theorem describedName_after {p : Parse Name} (hp : Takes p fun n => [n.tree])
    {f : Option StringLiteral → Name → Parse β} {Q : List Token → β → Prop}
    (hf : ∀ d n vs, Part ((d.map (·.span)).getD n.span) (descriptionTrees d ++ [n.tree]) vs → After vs (f d n) Q) :
    After [] (description >>= fun d => p >>= f d) Q := by
  refine description_takes.bind fun d ts hd => ?_
  have hname : After ts p fun vs n =>
      Part ((d.map (·.span)).getD n.span) (descriptionTrees d ++ [n.tree]) vs :=
    hp.of_afresh fun n us hn => .described hd (Part.of_node hn)
  exact hname.bind fun n vs hn => hf d n vs hn

private theorem constDirectives_takes :
    Takes constDirectives directiveTrees := directives_takes .constDirective maxDepth

/-- The span of a parameter or an input field covers its tokens, its description first. -/
private theorem inputValueDefinition_takes : Takes inputValueDefinition fun v => [v.tree] := by
  rw [inputValueDefinition_eq]
  exact describedName_after name_takes fun description name us hname => hname.next (expect_takes .colon)
    fun _ vs hcolon => hcolon.next (typeRef_takes maxDepth) fun type ws htype =>
      htype.next (default_takes .inputDefault) fun default xs hdefault => hdefault.next constDirectives_takes
        fun directives ys hdirs => hdirs.node fun span hnode => hnode

private theorem argumentDefinitions_takes : Takes argumentDefinitions argumentDefinitionTrees :=
  delimitedIf_takes inputValueDefinition_takes fun _ => trivial

private theorem fieldDefinition_takes : Takes fieldDefinition fun f => [f.tree] :=
  describedName_after name_takes fun _ _ _ hname => hname.next argumentDefinitions_takes fun _ _ hargs =>
    hargs.next (expect_takes .colon) fun _ _ hcolon => hcolon.next (typeRef_takes maxDepth) fun _ _ htype =>
      htype.next constDirectives_takes fun _ _ hdirs => hdirs.node fun _ hnode => hnode

private theorem fieldDefinitions_takes :
    Takes fieldDefinitions (SyntaxTree.group .openBrace .closeBrace FieldDefinition.tree) :=
  delimitedIf_takes fieldDefinition_takes fun _ => trivial

private theorem enumValueName_takes : Takes enumValueName fun n => [n.tree] := by
  refine .peek fun t => ?_
  split
  · exact .of (.fail _ _)
  · exact .of name_takes

private theorem enumValueDefinition_takes : Takes enumValueDefinition fun v => [v.tree] := by
  rw [enumValueDefinition_eq]
  exact describedName_after enumValueName_takes fun description name us hname => hname.next constDirectives_takes
    fun directives vs hdirs => hdirs.node fun span hnode => hnode

private theorem interfaces_takes : Takes interfaces interfaceTrees := by
  rw [interfaces_eq]
  refine nextIsKeyword_after (fun t ht => ?_) (.pure .nil)
  refine .advance (by simp [ht]) fun _ => (listed_takes name_takes .ampersand).of_afresh fun is ts his => ?_
  rw [interfaceTrees, if_neg his.1]
  exact (part_word ht rfl).located.append his.2

private theorem unionMembers_takes : Takes unionMembers memberTrees := by
  rw [unionMembers_eq]
  refine (accept_taken .equals).bind fun o ts ho => ?_
  cases o with
  | none =>
    obtain rfl : ts = [] := ho
    exact .pure .nil
  | some t =>
    obtain ⟨rfl, ht⟩ := ho
    refine (listed_takes name_takes .pipe).of_afresh fun ms us hms => ?_
    rw [memberTrees, if_neg hms.1]
    exact (part_sign ht).located.append hms.2

section
variable {kind : TypeKind} {isExtension : Bool} {t : Token} {start : Span} {trees : List SyntaxTree}
  {us : List Token}

/-- What follows the name of a type of the kind goes on with the parts of the node. -/
def BodyAfter (start : Span) (trees : List SyntaxTree) (kind : TypeKind) (ts : List Token)
    (r : List Directive × TypeBody) : Prop :=
  r.2.kind = kind ∧ Part start (trees ++ r.2.trees r.1) ts

private theorem fieldsBody_after {make : List Name → List FieldDefinition → TypeBody} (h : Part start trees us)
    (hkind : ∀ is fs, (make is fs).kind = kind)
    (htrees : ∀ is fs ds, (make is fs).trees ds =
      interfaceTrees is ++ directiveTrees ds ++ group .openBrace .closeBrace FieldDefinition.tree fs) :
    After us (fieldsBody make isExtension t) (BodyAfter start trees kind) :=
  h.next interfaces_takes fun is vs his => his.next constDirectives_takes fun ds ws hds =>
    hds.next fieldDefinitions_takes fun fs xs hfs => requireAddition_after (.pure
      ⟨hkind is fs, by simpa [htrees, List.append_assoc] using hfs⟩)

private theorem partsBody_after {make : List α → TypeBody} {parts : Parse (List α)} {g : List α → List SyntaxTree}
    {additions : String} (h : Part start trees us) (hparts : Takes parts g) (hkind : ∀ as, (make as).kind = kind)
    (htrees : ∀ as ds, (make as).trees ds = directiveTrees ds ++ g as) :
    After us (partsBody make parts additions isExtension t) (BodyAfter start trees kind) :=
  h.next constDirectives_takes fun ds vs hds => hds.next hparts fun as ws has => requireAddition_after (.pure
    ⟨hkind as, by simpa [htrees, List.append_assoc] using has⟩)

/-- What follows the name of a type goes on with the parts of its node. -/
private theorem typeBody_after (h : Part start trees us) :
    After us (typeBody kind isExtension t) (BodyAfter start trees kind) := by
  rw [typeBody_eq]
  cases kind with
  | scalar => exact h.next constDirectives_takes fun ds vs hds => requireAddition_after (.pure ⟨rfl, hds⟩)
  | object => exact fieldsBody_after h (fun _ _ => rfl) fun _ _ _ => rfl
  | interface => exact fieldsBody_after h (fun _ _ => rfl) fun _ _ _ => rfl
  | union => exact partsBody_after h unionMembers_takes (fun _ => rfl) fun _ _ => rfl
  | enum =>
    exact partsBody_after h (delimitedIf_takes enumValueDefinition_takes fun _ => trivial) (fun _ => rfl)
      fun _ _ => rfl
  | inputObject =>
    exact partsBody_after h (delimitedIf_takes inputValueDefinition_takes fun _ => trivial) (fun _ => rfl)
      fun _ _ => rfl

/-- The node of a type starts at its description, or at the word that makes it an extension. -/
private theorem typeDefinition_takesAt {description : Option StringLiteral} {front : List SyntaxTree}
    (ht : t.kind = .name kind.keyword) (hfront : Part start (front ++ [.word kind.keyword]) (us ++ [t])) :
    AfterAt us t (typeDefinition kind isExtension description start) fun vs d =>
      Located [d.tree front] vs ∧ d.description = description := by
  refine .peek (.advance (by simp [ht]) fun _ => hfront.next name_takes fun name vs hname =>
    (typeBody_after hname).bind fun r ws hr => ?_)
  obtain ⟨directives, body⟩ := r
  obtain ⟨rfl, hbody⟩ := hr
  exact hbody.node fun span hnode => ⟨hnode, rfl⟩

end

private theorem rootOperation_takes : Takes rootOperation fun o => [o.tree] := by
  refine .peek fun t => ?_
  split
  · rename_i kind hkind
    obtain ⟨w, hw, hkeyword⟩ := Option.bind_eq_some_iff.1 hkind
    have hne : t.kind ≠ .endOfInput := by
      intro hend
      rw [hend] at hw
      cases hw
    refine .advance hne fun hgenuine => ?_
    have ht : t.terminal = Terminal.word kind.keyword := by
      rw [Token.terminal, hgenuine.eq_wordKind hw, terminal_wordKind, keyword_of_ofKeyword? hkeyword]
    exact (part_leaf ht).next (expect_takes .colon) fun _ us hcolon => hcolon.next name_takes
      fun name vs hname => hname.node fun span hnode => hnode
  · exact .of (.unexpected _ _)

private theorem rootOperations_takes (isExtension : Bool) :
    Takes (rootOperations isExtension) (SyntaxTree.group .openBrace .closeBrace RootOperation.tree) := by
  cases isExtension with
  | true => exact delimitedIf_takes rootOperation_takes fun _ => trivial
  | false =>
    refine (delimited_takes rootOperation_takes fun _ => trivial).map fun ts r hr => ?_
    rw [SyntaxTree.group, if_neg (hr.2 rfl)]
    exact (located_node.1 hr.1).1

private theorem directiveLocation_takes : Takes directiveLocation fun p => [p.tree] := by
  refine .peek fun t => ?_
  split
  · exact .of (.unexpected _ _)
  · rename_i w hw
    split
    · exact .of (.fail _ _)
    · rename_i place hplace
      have hne : t.kind ≠ .endOfInput := by
        intro hend
        rw [hend] at hw
        cases hw
      refine token_takes hne rfl fun hgenuine => ?_
      rw [Token.terminal, hgenuine.eq_wordKind hw, terminal_wordKind, DirectiveLocation.text_of_ofText? hplace]

private theorem repeatable_takes : Takes repeatable fun b => if b then [.word "repeatable"] else [] :=
  nextIsKeyword_after (fun _ ht => .advance (by simp [ht]) fun _ => .pure (part_word ht rfl).located) (.pure .nil)

section
variable {t : Token} {start : Span} {us : List Token} {description : Option StringLiteral} {front : List SyntaxTree}

private theorem schemaDefinition_takesAt {isExtension : Bool} (ht : t.kind = .name "schema")
    (hfront : Part start (front ++ [.word "schema"]) (us ++ [t])) :
    AfterAt us t (schemaDefinition isExtension description start) fun vs s =>
      Located [s.tree front] vs ∧ s.description = description := by
  rw [schemaDefinition_eq]
  refine (keyword_takenAt ht us).bind fun _ vs hvs => ?_
  subst hvs
  exact hfront.next constDirectives_takes fun ds ws hds => hds.next (rootOperations_takes isExtension)
    fun os xs hos => requireAddition_after (hos.node fun span hnode => ⟨hnode, rfl⟩)

/-- The node of a directive starts at its description. -/
private theorem directiveDefinition_takesAt (ht : t.kind = .name "directive")
    (hfront : Part start (front ++ [.word "directive"]) (us ++ [t])) :
    AfterAt us t (directiveDefinition description start) fun vs d =>
      Located [d.tree front] vs ∧ d.description = description := by
  have hplaces : Takes (Parse.listed .pipe directiveLocation) (SyntaxTree.listed .pipe LocatedPlace.tree) :=
    (listed_takes directiveLocation_takes .pipe).mono fun _ _ h => h.2
  rw [directiveDefinition_eq]
  refine (keyword_takenAt ht us).bind fun _ vs hvs => ?_
  subst hvs
  exact hfront.next (expect_takes .atSign) fun _ vs hat => hat.next name_takes fun name ws hname =>
    hname.next argumentDefinitions_takes fun arguments xs hargs => hargs.next repeatable_takes fun b ys hb =>
      hb.next (keyword_takes rfl) fun _ zs hon => hon.next hplaces fun places vs' hlist =>
        hlist.node fun span hnode => ⟨hnode, rfl⟩

end

private theorem extension_takes : Takes extension fun d => [d.tree] := by
  refine (keyword_starts rfl).bind fun extend ts hextend => .peek fun t => ?_
  split
  · rename_i hkind
    exact (schemaDefinition_takesAt hkind (hextend.append (part_word hkind rfl).located)).bind fun s us hs =>
      .pure hs.1
  · rename_i w hkind
    split
    · rename_i kind hkeyword
      have ht : t.kind = .name kind.keyword := by rw [hkind, TypeKind.keyword_of_ofKeyword? hkeyword]
      have hword : Located [.word kind.keyword] [t] := (part_word ht (by cases kind <;> rfl)).located
      exact (typeDefinition_takesAt ht (hextend.append hword)).bind fun d us hd => .pure hd.1
    · exact .of (.unexpected _ _)
  · exact .of (.unexpected _ _)

/-- The span of a definition covers its tokens. -/
theorem typeSystemDefinition_takes : Takes typeSystemDefinition fun d => [d.tree] := by
  refine description_takes.bind fun description ts hd => .peek fun t => ?_
  split
  · exact .of (.fail _ _)
  · rename_i hkind
    refine (schemaDefinition_takesAt hkind (.described hd (part_word hkind rfl))).bind fun s us hs => .pure ?_
    simpa [TypeSystemDefinition.tree, hs.2] using hs.1
  · rename_i hkind
    refine (directiveDefinition_takesAt hkind (.described hd (part_word hkind rfl))).bind fun d us hd' => .pure ?_
    simpa [TypeSystemDefinition.tree, hd'.2] using hd'.1
  · split
    · exact .of (.fail _ _)
    · cases hd
      exact .of extension_takes
  · rename_i w _ _ hkind
    split
    · rename_i kind hkeyword
      have ht : t.kind = .name kind.keyword := by rw [hkind, TypeKind.keyword_of_ofKeyword? hkeyword]
      have hword : Part t.span [.word kind.keyword] [t] := part_word ht (by cases kind <;> rfl)
      refine (typeDefinition_takesAt ht (.described hd hword)).bind fun d us hd' => .pure ?_
      simpa [TypeSystemDefinition.tree, hd'.2] using hd'.1
    · split
      · exact .of (.fail _ _)
      · exact .of (.unexpected _ _)
  · exact .of (.unexpected _ _)

end GraphQL.Parse
