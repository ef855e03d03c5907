import GraphQL.Proofs.Evaluation
import GraphQL.Proofs.SpreadGraph
import GraphQL.Proofs.Visits
import GraphQL.Validation.VariableFlow

/-!
# Uses of variables

The occurrences collected in a definition are its uses of variables, each one once and in source order
(`definitionOccurrences_uses`), whatever the schema knows of the places where they stand. Hence every use of a
variable that an operation reaches is among the operation's occurrences (`Document.Uses.exists_occurrence`), and the
variables that are reported do not depend on the schema (`variables_reported`).
-/

namespace GraphQL

/-- The use of a variable that a value is. -/
def Value.variable? : Value → Option VariableUse
  | .var use => some use
  | _ => none

/-- The variables used in some values, the values inside these not counted. -/
def usesIn (values : List Value) : List VariableUse := values.filterMap Value.variable?

private theorem usesIn_append (vs ws : List Value) :
    usesIn (vs ++ ws) = usesIn vs ++ usesIn ws := List.filterMap_append ..

private theorem usesIn_flatMap {α : Type} (f : α → List Value) (xs : List α) :
    usesIn (xs.flatMap f) = xs.flatMap fun x => usesIn (f x) := List.filterMap_flatMap ..

private theorem mem_usesIn {use : VariableUse} {values : List Value} : use ∈ usesIn values ↔ .var use ∈ values := by
  rw [usesIn, List.mem_filterMap]
  constructor
  · rintro ⟨v, hv, h⟩
    cases v with
    | var => exact Option.some.inj h ▸ hv
    | _ => cases h
  · exact fun h => ⟨_, h, rfl⟩

/-- The variables used in a definition: in its directives, in those of the variables it declares, and in its
selections. -/
def Definition.variableUses : Definition → List VariableUse
  | .operation o =>
    usesIn ((o.variableDefinitions.flatMap fun v => directiveValues v.directives) ++ directiveValues o.directives ++
      o.selectionSet.values)
  | .fragment f => usesIn (directiveValues f.directives ++ f.selectionSet.values)

/-- Where no variables are allowed, none is used. -/
private theorem Value.not_mem_all_of_fits {use : VariableUse} {n : Nat} {v : Value} (h : v.Fits false n) :
    .var use ∉ v.all := by
  rw [← mem_usesIn]
  induction n generalizing v with
  | zero => exact absurd h (by simp [Value.Fits])
  | succ n ih =>
    have hitems {items : List Value} (hitems : ∀ v ∈ items, v.Fits false n) :
        use ∉ usesIn (Value.allOfItems items) := by
      induction items with
      | nil => exact List.not_mem_nil
      | cons v vs ihs =>
        obtain ⟨hv, hvs⟩ := List.forall_mem_cons.1 hitems
        rw [Value.allOfItems, usesIn_append, List.mem_append]
        exact fun h => h.elim (ih hv) (ihs hvs)
    have hfields {fields : List ObjectField} (hfields : ∀ f ∈ fields, f.value.Fits false n) :
        use ∉ usesIn (Value.allOfFields fields) := by
      induction fields with
      | nil => exact List.not_mem_nil
      | cons f fs ihs =>
        obtain ⟨name, v, span⟩ := f
        obtain ⟨hf, hfs⟩ := List.forall_mem_cons.1 hfields
        rw [Value.allOfFields, usesIn_append, List.mem_append]
        exact fun h => h.elim (ih hf) (ihs hfs)
    cases v with
    | var => exact absurd h (by simp [Value.Fits])
    | list items span => exact hitems h
    | object fields span => exact hfields h
    | _ => exact List.not_mem_nil

/-- The defaults of variables are constants, in which no variable is used. -/
theorem Definition.variableUses_eq {definition : Definition} (h : definition.Fits) :
    definition.variableUses = usesIn definition.values := by
  cases definition with
  | operation o =>
    have hdefault {v : VariableDefinition} (hv : v ∈ o.variableDefinitions) :
        usesIn (v.defaultValue.toList.flatMap (·.all)) = [] := by
      apply List.eq_nil_iff_forall_not_mem.2
      intro use huse
      obtain ⟨value, hvalue, hmem⟩ := List.mem_flatMap.1 (mem_usesIn.1 huse)
      have hfits := (h.variableDefinitions v hv).defaultValue value (Option.mem_toList.1 hvalue)
      exact Value.not_mem_all_of_fits hfits hmem
    have hvariables : usesIn (o.variableDefinitions.flatMap fun v => directiveValues v.directives) =
        usesIn (o.variableDefinitions.flatMap (·.values)) := by
      rw [usesIn_flatMap, usesIn_flatMap]
      refine List.flatMap_congr fun v hv => ?_
      rw [VariableDefinition.values, usesIn_append, hdefault hv, List.nil_append]
    rw [variableUses, values, usesIn_append, usesIn_append, usesIn_append, usesIn_append, hvariables]
  | fragment f => rfl

section Occurrences

variable (s : Schema)

mutual

/-- A value has an occurrence for each variable in it, in order. -/
private theorem valueOccurrences_uses (expected : Option TypeRef) (hasDefault : Bool) : (v : Value) →
    (valueOccurrences s expected hasDefault v).map (·.use) = usesIn v.all
  | .var _ => rfl
  | .list items _ => itemOccurrences_uses (expected.map TypeRef.item) items
  | .object fields _ => fieldOccurrences_uses (s.inputFieldsOf expected) fields
  | .int .. | .float .. | .string .. | .boolean .. | .null .. | .enum .. => rfl

private theorem itemOccurrences_uses (expected : Option TypeRef) : (items : List Value) →
    (itemOccurrences s expected items).map (·.use) = usesIn (Value.allOfItems items)
  | [] => rfl
  | v :: vs => by
    rw [itemOccurrences, Value.allOfItems, List.map_append, usesIn_append, valueOccurrences_uses expected false v,
      itemOccurrences_uses expected vs]

private theorem fieldOccurrences_uses (definitions : List InputValueDefinition) : (fields : List ObjectField) →
    (fieldOccurrences s definitions fields).map (·.use) = usesIn (Value.allOfFields fields)
  | [] => rfl
  | ⟨name, v, span⟩ :: fs => by
    rw [fieldOccurrences, Value.allOfFields, List.map_append, usesIn_append, valueOccurrences_uses _ _ v,
      fieldOccurrences_uses definitions fs]

end

private theorem argumentOccurrences_uses (parameters : List InputValueDefinition) (arguments : List Argument) :
    (argumentOccurrences s parameters arguments).map (·.use) = usesIn (argumentValues arguments) := by
  rw [argumentOccurrences, argumentValues, List.map_flatMap, usesIn_flatMap]
  exact congrArg (List.flatMap · arguments) (funext fun a => valueOccurrences_uses s _ _ a.value)

private theorem directiveOccurrences_uses (place : DirectiveLocation) (uses : List Directive) :
    (visitOccurrences s (.directives place uses)).map (·.use) = usesIn (directiveValues uses) := by
  rw [visitOccurrences, directiveValues, List.map_flatMap, usesIn_flatMap]
  exact congrArg (List.flatMap · uses) (funext fun use => argumentOccurrences_uses s _ use.arguments)

/-- The uses of variables at some visits. -/
def visitUses (visits : List Visit) : List VariableUse := (visits.flatMap (visitOccurrences s)).map (·.use)

private theorem visitUses_append (vs ws : List Visit) : visitUses s (vs ++ ws) = visitUses s vs ++ visitUses s ws := by
  simp [visitUses]

private theorem visitUses_directives (place : DirectiveLocation) (uses : List Directive) (vs : List Visit) :
    visitUses s (.directives place uses :: vs) = usesIn (directiveValues uses) ++ visitUses s vs := by
  rw [visitUses, List.flatMap_cons, List.map_append, directiveOccurrences_uses, visitUses]

private theorem visitUses_field (parent : Option TypeDefinition) (f : Field) (definition : Option FieldDefinition)
    (vs : List Visit) :
    visitUses s (.field parent f definition :: vs) = usesIn (argumentValues f.arguments) ++ visitUses s vs := by
  rw [visitUses, List.flatMap_cons, List.map_append, visitOccurrences, argumentOccurrences_uses, visitUses]

mutual

/-- The visits of a selection set come to every use of a variable in it, each once. -/
private theorem visitSet_uses (parent : Option TypeDefinition) : (set : SelectionSet) →
    visitUses s (s.visitSet parent set) = usesIn set.values
  | ⟨selections, _⟩ => visitSelections_uses parent selections

private theorem visitSelections_uses (parent : Option TypeDefinition) : (selections : List Selection) →
    visitUses s (s.visitSelections parent selections) = usesIn ((allOfSelections selections).flatMap (·.ownValues))
  | [] => rfl
  | selection :: rest => by
    rw [Schema.visitSelections, allOfSelections, visitUses_append, List.flatMap_append, usesIn_append,
      visitSelection_uses parent selection, visitSelections_uses parent rest]

private theorem visitSelection_uses (parent : Option TypeDefinition) : (selection : Selection) →
    visitUses s (s.visitSelection parent selection) = usesIn (selection.allSelections.flatMap (·.ownValues))
  | .field ⟨_, _, arguments, directives, none, _⟩ => by
    rw [Schema.visitSelection, Selection.allSelections, visitUses_field, visitUses_directives, List.flatMap_cons,
      usesIn_append, Selection.ownValues, usesIn_append, List.append_assoc]
    rfl
  | .field ⟨_, _, arguments, directives, some set, _⟩ => by
    rw [Schema.visitSelection, Selection.allSelections, visitUses_field, visitUses_directives, visitSet_uses _ set,
      List.flatMap_cons, usesIn_append, Selection.ownValues, usesIn_append, List.append_assoc]
    rfl
  | .spread f => by
    change visitUses s [.directives .fragmentSpread f.directives] = usesIn (directiveValues f.directives ++ [])
    rw [visitUses_directives, usesIn_append]
    rfl
  | .inline ⟨condition, directives, set, _⟩ => by
    change visitUses s (.directives .inlineFragment directives :: s.visitSet _ set) =
      usesIn (directiveValues directives ++ set.values)
    rw [visitUses_directives, usesIn_append, visitSet_uses _ set]

end

private theorem visitVariables_uses (definitions : List VariableDefinition) :
    visitUses s (definitions.flatMap fun v => [.variable v, .directives .variableDefinition v.directives]) =
      usesIn (definitions.flatMap fun v => directiveValues v.directives) := by
  induction definitions with
  | nil => rfl
  | cons v vs ih =>
    rw [List.flatMap_cons, List.flatMap_cons, visitUses_append, usesIn_append, ih]
    refine congrArg (· ++ _) ?_
    change visitUses s [.directives .variableDefinition v.directives] = _
    rw [visitUses_directives]
    exact List.append_nil _

/-- The occurrences collected in a definition are the variables used there. -/
theorem definitionOccurrences_uses (definition : Definition) :
    (definitionOccurrences s definition).map (·.use) = definition.variableUses := by
  change visitUses s (s.visitDefinition definition) = _
  cases definition with
  | operation o =>
    rw [Schema.visitDefinition, visitUses_append, visitUses_directives, visitSet_uses, Definition.variableUses,
      usesIn_append, usesIn_append, List.append_assoc, ← visitVariables_uses s]
    rfl
  | fragment f =>
    change visitUses s (.directives .fragmentDefinition f.directives :: s.visitSet _ f.selectionSet) = _
    rw [visitUses_directives, visitSet_uses, Definition.variableUses, usesIn_append]

end Occurrences

/-! ### Operations -/

/-- The operation, or a fragment that it reaches, uses the variable. -/
def Document.Uses (d : Document) (o : Operation) (use : VariableUse) : Prop :=
  .var use ∈ (Definition.operation o).values ∨ ∃ f, d.Reaches o f ∧ .var use ∈ (Definition.fragment f).values

/-- A variable that an operation uses is among the operation's occurrences. -/
theorem Document.Uses.exists_occurrence {d : Document} (hd : d.Fits) {o : Operation}
    (ho : o ∈ d.operations) {use : VariableUse} (h : d.Uses o use) (s : Schema) :
    ∃ x ∈ operationOccurrences s d o, x.use = use := by
  have hdefinition {definition : Definition} (hmem : definition ∈ d.definitions)
      (huse : .var use ∈ definition.values) :
      ∃ x ∈ definitionOccurrences s definition, x.use = use := by
    rw [← mem_usesIn, ← Definition.variableUses_eq (hd.definitions definition hmem),
      ← definitionOccurrences_uses s] at huse
    exact List.mem_map.1 huse
  rcases h with huse | ⟨f, hf, huse⟩
  · obtain ⟨x, hx, rfl⟩ := hdefinition (Document.mem_operations.1 ho) huse
    exact ⟨x, List.mem_append_left _ hx, rfl⟩
  · obtain ⟨x, hx, rfl⟩ := hdefinition (Document.mem_fragments.1 hf.mem_fragments) huse
    exact ⟨x, List.mem_append_right _ (List.mem_flatMap.2 ⟨f, Document.mem_reachedBy_iff.2 hf, hx⟩), rfl⟩

/-- The operation declares a variable of the name. -/
def Operation.Declares (o : Operation) (name : String) : Prop := ∃ v ∈ o.variableDefinitions, v.name.value = name

instance (o : Operation) (name : String) : Decidable (o.Declares name) :=
  inferInstanceAs (Decidable (∃ v ∈ o.variableDefinitions, v.name.value = name))

/-- The variables used in an operation and in the fragments that it reaches, where each fragment counts once. -/
def Document.usesBy (d : Document) (o : Operation) : List VariableUse :=
  (Definition.operation o).variableUses ++ (d.reachedBy o).flatMap fun f => (Definition.fragment f).variableUses

/-- The occurrences in an operation are the uses by it and by the fragments that it reaches. -/
private theorem operationOccurrences_uses (s : Schema) (d : Document) (o : Operation) :
    (operationOccurrences s d o).map (·.use) = d.usesBy o := by
  rw [operationOccurrences, List.map_append, List.map_flatMap, definitionOccurrences_uses, Document.usesBy]
  simp only [definitionOccurrences_uses]

/-- The rule reports each use of a variable that the operation does not declare. -/
private theorem undefinedVariable_eq (s : Schema) (d : Document) :
    undefinedVariable s d = d.operations.flatMap fun o =>
      ((d.usesBy o).filter fun use => ¬o.Declares use.name.value).map (undeclaredFinding o) := by
  rw [undefinedVariable]
  refine List.flatMap_congr fun o _ => ?_
  have hdeclares (use : VariableUse) :
      (!Named.contains o.variableDefinitions use.name.value) = decide ¬o.Declares use.name.value := by
    rw [decide_not, Named.contains, Bool.not_inj_iff, Bool.eq_iff_iff, decide_eq_true_eq]
    simp [Operation.Declares, Named.nameOf]
  rw [← operationOccurrences_uses s, List.filter_map, List.map_map]
  simp only [hdeclares, Function.comp_def]

/-- The rule reports each variable that neither the operation nor a fragment uses. -/
private theorem unusedVariable_eq (s : Schema) (d : Document) :
    unusedVariable s d = d.operations.flatMap fun o =>
      (o.variableDefinitions.filter fun v => ∀ use ∈ d.usesBy o, use.name.value ≠ v.name.value).map
        (unusedFinding o) := by
  rw [unusedVariable]
  refine List.flatMap_congr fun o _ => congrArg (List.map _) (List.filter_congr fun v _ => ?_)
  rw [decide_eq_decide, ← operationOccurrences_uses s, List.forall_mem_map, List.mem_map]
  simp

/-- Each use of a variable that its operation does not declare is reported once, where an operation uses the
variables in it and in the fragments that it reaches, known to the schema or not, and a variable is reported as unused
if the operation declares it and has no such use of its name. The walk over the fragments looks at each spread once
at most. -/
theorem variables_reported (s : Schema) (d : Document) :
    (∀ o, (Named.names (d.reachedBy o)).Nodup ∧ ∀ f, f ∈ d.reachedBy o ↔ d.Reaches o f) ∧
    (undefinedVariable s d = d.operations.flatMap fun o =>
      ((d.usesBy o).filter fun use => ¬o.Declares use.name.value).map (undeclaredFinding o)) ∧
    (unusedVariable s d = d.operations.flatMap fun o =>
      (o.variableDefinitions.filter fun v => ∀ use ∈ d.usesBy o, use.name.value ≠ v.name.value).map
        (unusedFinding o)) ∧
    ∀ o n, o.selectionSet.spreads.length + spreadCount d.fragments ≤ n →
      walkWithin reachStep n d.fragments (o.selectionSet.spreads.map (·.name.value)) = some (d.reachedBy o) :=
  ⟨fun _ => ⟨Document.names_reachedBy_nodup, fun _ => Document.mem_reachedBy_iff⟩, undefinedVariable_eq s d,
    unusedVariable_eq s d, fun _ _ => Document.walkWithin_reachStep⟩

/-- Whether the document has one operation, whose walk over the fragments ends within three names and reports just
these. -/
def Document.reports (d : Document) (undefined unused : List String) : Bool :=
  match d.operations with
  | [o] => o.selectionSet.spreads.length + spreadCount d.fragments ≤ 3 ∧
    (walkWithin reachStep 3 d.fragments (o.selectionSet.spreads.map (·.name.value))).any fun reached =>
      let uses := (Definition.operation o).variableUses ++
        reached.flatMap fun f => (Definition.fragment f).variableUses
      ((uses.filter fun use => ¬o.Declares use.name.value).map (undeclaredFinding o)).map (·.message) = undefined ∧
      ((o.variableDefinitions.filter fun v => ∀ use ∈ uses, use.name.value ≠ v.name.value).map
        (unusedFinding o)).map (·.message) = unused
  | _ => false

set_option maxRecDepth 20000 in
/-- Of two fragments that spread each other one uses a variable that is declared, the other one that is not. -/
theorem variables_reported_of_cycle :
    ∃ d, Document.parse
        "query($a: I $b: I) \x7b ...A \x7d fragment A on T \x7b f(x: [$a]) ...B \x7d fragment B on T \x7b g(y: $c) ...A \x7d" =
        .ok d ∧
      ∀ s, (undefinedVariable s d).map (·.message) = ["Variable \"$c\" is not defined."] ∧
        (unusedVariable s d).map (·.message) = ["Variable \"$b\" is never used."] := by
  obtain ⟨text, htext, hcheck⟩ : ∃ text,
      "query($a: I $b: I) \x7b ...A \x7d fragment A on T \x7b f(x: [$a]) ...B \x7d fragment B on T \x7b g(y: $c) ...A \x7d".toList =
        text ∧
      (Parse.document.run (lexChars text)).toOption.any
        (·.reports ["Variable \"$c\" is not defined."] ["Variable \"$b\" is never used."]) :=
    ⟨_, String.toList_ofList, by decide +kernel⟩
  rw [← Document.parse_eq htext] at hcheck
  cases hd : Document.parse _ with
  | error cause => simp [hd, Except.toOption] at hcheck
  | ok d =>
    simp only [hd, Except.toOption, Option.any_some, Document.reports] at hcheck
    split at hcheck
    case h_2 => cases hcheck
    case h_1 o ho =>
      simp only [decide_eq_true_eq] at hcheck
      obtain ⟨hcount, hwalk⟩ := hcheck
      refine ⟨d, rfl, fun s => ?_⟩
      obtain ⟨-, hundefined, hunused, hends⟩ := variables_reported s d
      rw [hends o 3 hcount, Option.any_some, decide_eq_true_eq] at hwalk
      rw [hundefined, hunused, ho, List.flatMap_singleton, List.flatMap_singleton]
      exact hwalk

end GraphQL
