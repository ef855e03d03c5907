import GraphQL.Proofs.Relocation
import GraphQL.Proofs.SchemaSteps

/-!
# Documents of relocated tokens

Parsed from relocated tokens, a document of either kind is the relocated document, or the fault is the relocated
fault (`document_moves`, `schemaDocument_moves`). One lemma for each routine of the grammar.
-/

namespace GraphQL.Parse

variable {m : Relocation}

private theorem typeCondition_moves : Moves m (TypeCondition.restyle m.restyle) typeCondition typeCondition :=
  (Moves.keyword "on").bind fun sign => Moves.name.bind fun _ => (Moves.spanFrom sign.span).bind fun _ => .pure rfl

section
variable {n : Nat} {set : Parse SelectionSet}

private theorem inlineRest_moves (h : Moves m (SelectionSet.restyle m.restyle) set set) (s : Span)
    (condition : Option TypeCondition) :
    Moves m (Selection.restyle m.restyle) (inlineRest n set s condition)
      (inlineRest n set (m.span s) (condition.map (·.restyle m.restyle))) :=
  (directives_moves .anywhere n).bind fun _ => h.bind fun _ => (Moves.spanFrom s).bind fun _ =>
    .pure (Selection.restyle_inline _ _)

private theorem fragmentSelection_moves (h : Moves m (SelectionSet.restyle m.restyle) set set) :
    Moves m (Selection.restyle m.restyle) (fragmentSelection n set) (fragmentSelection n set) := by
  refine (Moves.expect .ellipsis).bind fun dots => Moves.peek.bind fun t => .ite (by simp) (fun _ => ?_) fun _ =>
    .ite (by simp) (fun _ => ?_) fun _ => .ite (by simp) (fun _ => ?_) fun _ => .unexpected t _
  · exact typeCondition_moves.bind fun condition => inlineRest_moves h dots.span (some condition)
  · exact inlineRest_moves h dots.span none
  · exact Moves.name.bind fun _ => (directives_moves .anywhere n).bind fun _ => (Moves.spanFrom dots.span).bind
      fun _ => .pure rfl

private theorem fieldNames_moves (first : Name) :
    Moves m (fun names => (names.1.map (Name.restyle m.restyle), names.2.restyle m.restyle)) (fieldNames first)
      (fieldNames (first.restyle m.restyle)) :=
  .accept_bind (.pure rfl) fun _ => Moves.name.bind fun _ => .pure rfl

private theorem selectionSet?_moves (h : Moves m (SelectionSet.restyle m.restyle) set set) :
    Moves m (Option.map (SelectionSet.restyle m.restyle)) (selectionSet? set) (selectionSet? set) :=
  (Moves.nextIs .openBrace).bind fun _ => .ite Iff.rfl (fun _ => h.map fun _ => rfl) fun _ => .pure rfl

private theorem field_moves (h : Moves m (SelectionSet.restyle m.restyle) set set) :
    Moves m (Field.restyle m.restyle) (field n set) (field n set) := by
  rw [field_eq]
  exact Moves.name.bind fun first => (fieldNames_moves first).bind fun _ => (arguments_moves .anywhere n).bind
    fun _ => (directives_moves .anywhere n).bind fun _ => (selectionSet?_moves h).bind fun _ =>
      (Moves.spanFrom first.span).bind fun _ => .pure rfl

private theorem selection_moves (h : Moves m (SelectionSet.restyle m.restyle) set set) :
    Moves m (Selection.restyle m.restyle) (selection n set) (selection n set) :=
  Moves.peek.bind fun t => .ite (by simp) (fun _ => fragmentSelection_moves h) fun _ => .ite (by simp)
    (fun _ => (field_moves h).bind fun f => .pure (Selection.restyle_field _ f)) fun _ => .unexpected t _

end

/-- Reading a selection set moves along, by induction on the depth that is left. -/
private theorem selectionSet_moves (n : Nat) :
    Moves m (SelectionSet.restyle m.restyle) (selectionSet n) (selectionSet n) := by
  induction n with
  | zero => exact .tooDeep
  | succ n ih =>
    exact (Moves.delimited (selection_moves ih)).bind fun r => .pure (SelectionSet.restyle_eq _ ⟨r.1, r.2⟩)

private theorem defaultValue?_moves : Moves m (Option.map (Value.restyle m.restyle)) defaultValue? defaultValue? :=
  (value_moves .variableDefault maxDepth).behind? .equals

private theorem variableDefinition_moves :
    Moves m (VariableDefinition.restyle m.restyle) variableDefinition variableDefinition := by
  rw [variableDefinition_eq]
  refine (Moves.expect .dollar).bind fun dollar => Moves.name.bind fun name => (Moves.expect .colon).bind fun _ =>
    (typeRef_moves maxDepth).bind fun _ => defaultValue?_moves.bind fun _ =>
      (directives_moves .constDirective maxDepth).bind fun _ => (Moves.spanFrom dollar.span).bind fun _ => .pure ?_
  rw [VariableDefinition.restyle]
  congr 1
  exact m.span_merge dollar.span name.span

private theorem operationName?_moves : Moves m (Option.map (Name.restyle m.restyle)) operationName? operationName? :=
  Moves.peek.bind fun _ => .ite (by simp) (fun _ => Moves.name.map fun _ => rfl) fun _ => .pure rfl

private theorem keywordOperation_moves (kind : OperationKind) :
    Moves m (Operation.restyle m.restyle) (keywordOperation kind) (keywordOperation kind) := by
  rw [keywordOperation_eq]
  exact Moves.peek.bind fun start => .advance_bind (operationName?_moves.bind fun _ =>
    (Moves.delimitedIf variableDefinition_moves).bind fun _ => (directives_moves .anywhere maxDepth).bind fun _ =>
      (selectionSet_moves maxDepth).bind fun _ => (Moves.spanFrom start.span).bind fun _ => .pure rfl)

private theorem shorthandQuery_moves : Moves m (Operation.restyle m.restyle) shorthandQuery shorthandQuery :=
  (selectionSet_moves maxDepth).bind fun set => .pure (by
    rw [Operation.restyle, set.restyle_eq]
    rfl)

private theorem fragmentDefinition_moves :
    Moves m (Fragment.restyle m.restyle) fragmentDefinition fragmentDefinition := by
  refine (Moves.keyword "fragment").bind fun start => Moves.peek.bind fun t => .ite (by simp)
    (fun _ => .fail_bind rfl) fun _ => ?_
  exact Moves.name.bind fun _ => typeCondition_moves.bind fun _ => (directives_moves .anywhere maxDepth).bind fun _ =>
    (selectionSet_moves maxDepth).bind fun _ => (Moves.spanFrom start.span).bind fun _ => .pure rfl

/-- Reading a definition moves along. -/
private theorem definition_moves : Moves m (Definition.restyle m.restyle) definition definition := by
  refine .peek_cases (fun kind s hkind => ?_) fun raw s => .fail rfl
  dsimp only
  split
  · exact shorthandQuery_moves.bind fun _ => .pure rfl
  · exact .fail rfl
  · exact .fail rfl
  · split
    · exact (keywordOperation_moves _).bind fun _ => .pure rfl
    · refine .ite Iff.rfl (fun _ => fragmentDefinition_moves.bind fun _ => .pure rfl) fun _ => ?_
      split
      · exact .fail rfl
      · exact .unexpected_of_eq hkind s _
  · exact .unexpected_of_eq hkind s _

private theorem definitions_moves {α : Type} {k : α → α} {p : Parse α} (kind : DocumentKind) (h : Moves m k p p) :
    Moves m (fun r => (r.1.map k, m.span r.2)) (definitions kind p) (definitions kind p) := by
  refine Moves.peek.bind fun start => (Moves.repeated (k := k) ?_).bind fun items => ?_
  · exact Moves.peek.bind fun _ => .ite (by simp) (fun _ => .pure rfl) fun _ => h.map fun _ => rfl
  · exact .ite (by simp) (fun _ => .fail_bind rfl) fun _ => (Moves.spanFrom start.span).bind fun _ => .pure rfl

/-- Reading an executable document moves along. -/
theorem document_moves : Moves m (Document.restyle m.restyle) document document :=
  (definitions_moves .executable definition_moves).bind fun _ => .pure rfl

/-! ### Schema definitions -/

private theorem requireAddition_moves (isExtension : Bool) {nothing nothing' : Bool} (h : nothing = nothing')
    (t : Token)
    (additions : String) : Moves m id (requireAddition isExtension t nothing additions)
      (requireAddition isExtension (m.token t) nothing' additions) := by
  subst h
  refine .ite Iff.rfl (fun _ => ?_) fun _ => .pure rfl
  rw [m.token_kind, m.display_kind]
  exact .fail rfl

private theorem constDirectives_moves :
    Moves m (List.map (Directive.restyle m.restyle)) constDirectives constDirectives :=
  directives_moves .constDirective maxDepth

/-- The start of a definition behind its description, if it has one. -/
theorem span_describedStart (description : Option StringLiteral) (s : Span) :
    ((description.map (·.restyle m.restyle)).map (·.span)).getD (m.span s) =
      m.span ((description.map (·.span)).getD s) := by
  cases description <;> rfl

private theorem inputValueDefinition_moves :
    Moves m (InputValueDefinition.restyle m.restyle) inputValueDefinition inputValueDefinition := by
  rw [inputValueDefinition_eq]
  refine description_moves.bind fun description => Moves.name.bind fun name => (Moves.expect .colon).bind fun _ =>
    (typeRef_moves maxDepth).bind fun _ => ((value_moves .inputDefault maxDepth).behind? .equals).bind fun _ =>
      constDirectives_moves.bind fun _ => ?_
  rw [show (name.restyle m.restyle).span = m.span name.span from rfl, span_describedStart]
  exact (Moves.spanFrom _).bind fun _ => .pure rfl

private theorem argumentDefinitions_moves :
    Moves m (List.map (InputValueDefinition.restyle m.restyle)) argumentDefinitions argumentDefinitions :=
  .delimitedIf inputValueDefinition_moves

private theorem fieldDefinition_moves :
    Moves m (FieldDefinition.restyle m.restyle) fieldDefinition fieldDefinition := by
  refine description_moves.bind fun description => Moves.name.bind fun name => argumentDefinitions_moves.bind fun _ =>
    (Moves.expect .colon).bind fun _ => (typeRef_moves maxDepth).bind fun _ => constDirectives_moves.bind fun _ => ?_
  rw [show (name.restyle m.restyle).span = m.span name.span from rfl, span_describedStart]
  exact (Moves.spanFrom _).bind fun _ => .pure rfl

private theorem enumValueName_moves : Moves m (Name.restyle m.restyle) enumValueName enumValueName := by
  refine Moves.peek.bind fun t => .ite (by simp) (fun _ => ?_) fun _ => .name
  rw [m.token_kind, m.display_kind]
  exact .fail rfl

private theorem enumValueDefinition_moves :
    Moves m (EnumValueDefinition.restyle m.restyle) enumValueDefinition enumValueDefinition := by
  rw [enumValueDefinition_eq]
  refine description_moves.bind fun description => enumValueName_moves.bind fun name => constDirectives_moves.bind
    fun _ => ?_
  rw [show (name.restyle m.restyle).span = m.span name.span from rfl, span_describedStart]
  exact (Moves.spanFrom _).bind fun _ => .pure rfl

private theorem listed_moves {α : Type} {k : α → α} {item : Parse α} (sign : Punctuator) (h : Moves m k item item) :
    Moves m (List.map k) (listed sign item) (listed sign item) :=
  .accept_bind (.separated h) fun _ => .separated h

private theorem interfaces_moves : Moves m (List.map (Name.restyle m.restyle)) interfaces interfaces :=
  (Moves.nextIsKeyword "implements").bind fun _ => .ite Iff.rfl
    (fun _ => .advance_bind (listed_moves .ampersand .name)) fun _ => .pure rfl

private theorem unionMembers_moves : Moves m (List.map (Name.restyle m.restyle)) unionMembers unionMembers :=
  .accept_bind (.pure rfl) fun _ => listed_moves .pipe .name

private theorem fieldDefinitions_moves :
    Moves m (List.map (FieldDefinition.restyle m.restyle)) fieldDefinitions fieldDefinitions :=
  .delimitedIf fieldDefinition_moves

/-- What follows the name of a type, relocated. -/
def restyleBody (r : Restyle) (parts : List Directive × TypeBody) : List Directive × TypeBody :=
  (parts.1.map (·.restyle r), parts.2.restyle r)

section
variable (isExtension : Bool) (t : Token)

private theorem fieldsBody_moves {make : List Name → List FieldDefinition → TypeBody}
    (hmake : ∀ is fs, (make is fs).restyle m.restyle = make (is.map (·.restyle m.restyle))
      (fs.map (·.restyle m.restyle))) :
    Moves m (restyleBody m.restyle) (fieldsBody make isExtension t) (fieldsBody make isExtension (m.token t)) :=
  interfaces_moves.bind fun is => constDirectives_moves.bind fun ds => fieldDefinitions_moves.bind fun fs =>
    (requireAddition_moves isExtension (by simp) t _).bind fun _ => .pure (Prod.ext rfl (hmake is fs))

private theorem partsBody_moves {α : Type} {make : List α → TypeBody} {parts : Parse (List α)} {k : α → α}
    (hparts : Moves m (List.map k) parts parts) (hmake : ∀ as, (make as).restyle m.restyle = make (as.map k))
    (additions : String) :
    Moves m (restyleBody m.restyle) (partsBody make parts additions isExtension t)
      (partsBody make parts additions isExtension (m.token t)) :=
  constDirectives_moves.bind fun ds => hparts.bind fun as =>
    (requireAddition_moves isExtension (by simp) t _).bind fun _ => .pure (Prod.ext rfl (hmake as))

/-- Reading the body of a type of any kind moves along. -/
private theorem typeBody_moves (kind : TypeKind) :
    Moves m (restyleBody m.restyle) (typeBody kind isExtension t) (typeBody kind isExtension (m.token t)) := by
  rw [typeBody_eq, typeBody_eq]
  cases kind with
  | scalar =>
    exact constDirectives_moves.bind fun _ => (requireAddition_moves isExtension (by simp) t _).bind fun _ => .pure rfl
  | object => exact fieldsBody_moves isExtension t fun _ _ => rfl
  | interface => exact fieldsBody_moves isExtension t fun _ _ => rfl
  | union => exact partsBody_moves isExtension t unionMembers_moves (fun _ => rfl) _
  | enum => exact partsBody_moves isExtension t (.delimitedIf enumValueDefinition_moves) (fun _ => rfl) _
  | inputObject => exact partsBody_moves isExtension t (.delimitedIf inputValueDefinition_moves) (fun _ => rfl) _

end

section
variable (description : Option StringLiteral) (s : Span)

private theorem typeDefinition_moves (kind : TypeKind) (isExtension : Bool) :
    Moves m (TypeDefinition.restyle m.restyle) (typeDefinition kind isExtension description s)
      (typeDefinition kind isExtension (description.map (·.restyle m.restyle)) (m.span s)) :=
  Moves.peek.bind fun sign => .advance_bind (Moves.name.bind fun _ => (typeBody_moves isExtension sign kind).bind
    fun _ => (Moves.spanFrom s).bind fun _ => .pure rfl)

private theorem rootOperation_moves : Moves m (RootOperation.restyle m.restyle) rootOperation rootOperation := by
  refine Moves.peek.bind fun t => ?_
  rw [m.token_kind, m.asName?_kind]
  split
  · exact .advance_bind ((Moves.expect .colon).bind fun _ => Moves.name.bind fun _ => (Moves.spanFrom t.span).bind
      fun _ => .pure rfl)
  · exact .unexpected t _

private theorem rootOperations_moves (isExtension : Bool) :
    Moves m (List.map (RootOperation.restyle m.restyle)) (rootOperations isExtension) (rootOperations isExtension) :=
  .ite Iff.rfl (fun _ => .delimitedIf rootOperation_moves) fun _ =>
    (Moves.delimited rootOperation_moves).map fun _ => rfl

private theorem schemaDefinition_moves (isExtension : Bool) :
    Moves m (SchemaDefinition.restyle m.restyle) (schemaDefinition isExtension description s)
      (schemaDefinition isExtension (description.map (·.restyle m.restyle)) (m.span s)) := by
  rw [schemaDefinition_eq, schemaDefinition_eq]
  exact (Moves.keyword "schema").bind fun sign => constDirectives_moves.bind fun _ =>
    (rootOperations_moves isExtension).bind fun _ => (requireAddition_moves isExtension (by simp) sign _).bind fun _ =>
      (Moves.spanFrom s).bind fun _ => .pure rfl

private theorem directiveLocation_moves :
    Moves m (LocatedPlace.restyle m.restyle) directiveLocation directiveLocation := by
  refine Moves.peek.bind fun t => ?_
  rw [m.token_kind, m.asName?_kind]
  split
  · exact .unexpected t _
  · split
    · exact .fail rfl
    · exact .advance_bind (.pure rfl)

private theorem repeatable_moves : Moves m id repeatable repeatable :=
  (Moves.nextIsKeyword "repeatable").bind fun _ => .ite Iff.rfl (fun _ => .advance_bind (.pure rfl)) fun _ => .pure rfl

private theorem directiveDefinition_moves :
    Moves m (DirectiveDefinition.restyle m.restyle) (directiveDefinition description s)
      (directiveDefinition (description.map (·.restyle m.restyle)) (m.span s)) := by
  rw [directiveDefinition_eq, directiveDefinition_eq]
  exact (Moves.keyword "directive").bind fun _ => (Moves.expect .atSign).bind fun _ => Moves.name.bind fun _ =>
    argumentDefinitions_moves.bind fun _ => repeatable_moves.bind fun _ => (Moves.keyword "on").bind fun _ =>
      (listed_moves .pipe directiveLocation_moves).bind fun _ => (Moves.spanFrom s).bind fun _ => .pure rfl

end

private theorem extension_moves : Moves m (TypeSystemDefinition.restyle m.restyle) extension extension := by
  refine (Moves.keyword "extend").bind fun extend => .peek_cases (fun kind s hkind => ?_) fun raw s =>
    .unexpected ⟨_, s⟩ _
  dsimp only
  split
  · exact (schemaDefinition_moves none extend.span true).bind fun _ => .pure rfl
  · split
    · exact (typeDefinition_moves none extend.span _ true).bind fun _ => .pure rfl
    · exact .unexpected_of_eq hkind s _
  · exact .unexpected_of_eq hkind s _

private theorem typeSystemDefinition_moves :
    Moves m (TypeSystemDefinition.restyle m.restyle) typeSystemDefinition typeSystemDefinition := by
  refine description_moves.bind fun description => .peek_cases (fun kind s hkind => ?_) fun raw s =>
    .unexpected ⟨_, s⟩ _
  dsimp only
  rw [span_describedStart]
  split
  · exact .fail rfl
  · exact (schemaDefinition_moves description _ false).bind fun _ => .pure rfl
  · exact (directiveDefinition_moves description _).bind fun _ => .pure rfl
  · cases description with
    | none => exact extension_moves
    | some text => exact .fail rfl
  · split
    · exact (typeDefinition_moves description _ _ false).bind fun _ => .pure rfl
    · split
      · exact .fail rfl
      · exact .unexpected_of_eq hkind s _
  · exact .unexpected_of_eq hkind s _

/-- Reading a schema document moves along. -/
theorem schemaDocument_moves : Moves m (SchemaDocument.restyle m.restyle) schemaDocument schemaDocument :=
  (definitions_moves .schema typeSystemDefinition_moves).bind fun _ => .pure rfl

/-- What a run gives, relocated. -/
theorem Moves.run {α β : Type} {k : α → β} {p : Parse α} {q : Parse β} (h : Moves m k p q) (ts : List Token) :
    q.run (ts.map m.token) = ((p.run ts).map k).mapError m.error := by
  have hend := h ⟨ts, none⟩
  unfold Parse.run
  change StateT.run q ⟨ts.map m.token, none⟩ = _ at hend
  rw [hend]
  cases StateT.run p ⟨ts, none⟩ <;> rfl

end GraphQL.Parse
