import GraphQL.Validation.Validator
import Mathlib.Data.Finset.Basic

/-!
# Each rule for itself

A rule reports under its own name only (`Rule.check_findsOnly`), and diagnostics of one place and one rule keep the
order in which they were found (`Diagnostic.filter_sorted_at`). Leaving rules out therefore takes their diagnostics
out of the list of all, and moves no other (`Validator.validate_restricted`).
-/

namespace GraphQL

private theorem Rule.mem_all (rule : Rule) : rule ∈ Rule.all := by
  cases rule <;> decide

/-- Each rule has a rank of its own. -/
private theorem Rule.rank_inj {a b : Rule} : a.rank = b.rank ↔ a = b := List.idxOf_inj a.mem_all

namespace Diagnostic

variable {a b : Diagnostic} {ds es : List Diagnostic}

private theorem precedes_iff :
    a.precedes b ↔ a.offset < b.offset ∨ a.offset = b.offset ∧ a.rule.rank ≤ b.rule.rank := by
  simp [precedes]

private theorem precedes_trans (a b c : Diagnostic) (h : a.precedes b) (h' : b.precedes c) : a.precedes c := by
  rw [precedes_iff] at *
  omega

private theorem precedes_total (a b : Diagnostic) : a.precedes b || b.precedes a := by
  rw [Bool.or_eq_true, precedes_iff, precedes_iff]
  omega

/-- The place and the rule by which a diagnostic is listed. -/
def isAt (offset : Nat) (rule : Rule) (d : Diagnostic) : Bool := d.offset = offset ∧ d.rule = rule

private theorem isAt_iff {offset : Nat} {rule : Rule} : a.isAt offset rule ↔ a.offset = offset ∧ a.rule = rule := by
  simp [isAt]

private theorem sorted_perm (ds : List Diagnostic) : (sorted ds).Perm ds := List.mergeSort_perm ds precedes

/-- Diagnostics are sorted by place, and at one place by the rank of their rule. -/
private theorem sorted_pairwise (ds : List Diagnostic) : (sorted ds).Pairwise fun a b => a.precedes b :=
  List.pairwise_mergeSort precedes_trans precedes_total ds

/-- Diagnostics of one place and one rule keep their order. -/
theorem filter_sorted_at (offset : Nat) (rule : Rule) (ds : List Diagnostic) :
    (sorted ds).filter (isAt offset rule) = ds.filter (isAt offset rule) := by
  have hties : (ds.filter (isAt offset rule)).Pairwise fun a b => a.precedes b := by
    refine List.pairwise_of_forall_mem_list ?_
    intro a ha b hb
    obtain ⟨haoffset, harule⟩ := isAt_iff.1 (List.mem_filter.1 ha).2
    obtain ⟨hboffset, hbrule⟩ := isAt_iff.1 (List.mem_filter.1 hb).2
    rw [precedes_iff, haoffset, hboffset, harule, hbrule]
    exact .inr ⟨rfl, Nat.le_refl _⟩
  have hsub := List.sublist_mergeSort precedes_trans precedes_total hties List.filter_sublist
  have hfilter := hsub.filter (isAt offset rule)
  rw [List.filter_filter] at hfilter
  simp only [Bool.and_self] at hfilter
  exact (hfilter.eq_of_length ((sorted_perm ds).filter _).length_eq.symm).symm

/-- Lists in order are equal if they have the same diagnostics of each place and rule, in the same order. -/
theorem eq_of_filter_at (hds : ds.Pairwise fun a b => a.precedes b) (hes : es.Pairwise fun a b => a.precedes b)
    (h : ∀ offset rule, ds.filter (isAt offset rule) = es.filter (isAt offset rule)) : ds = es := by
  induction ds generalizing es with
  | nil =>
    cases es with
    | nil => rfl
    | cons b es => simpa [isAt] using h b.offset b.rule
  | cons a ds ih =>
    cases es with
    | nil => simpa [isAt] using h a.offset a.rule
    | cons b es =>
      obtain ⟨ha, hds'⟩ := List.pairwise_cons.1 hds
      obtain ⟨hb, hes'⟩ := List.pairwise_cons.1 hes
      have hmem {x : Diagnostic} : x ∈ a :: ds ↔ x ∈ b :: es := by
        have hx := congrArg (x ∈ ·) (h x.offset x.rule)
        simpa [List.mem_filter, isAt] using hx
      have hrefl (x : Diagnostic) : x.precedes x := by simpa using precedes_total x x
      -- each head is in the other list and so comes after the other head
      have hab : a.precedes b := by
        rcases List.mem_cons.1 (hmem.2 (List.mem_cons_self ..)) with rfl | hba
        · exact hrefl _
        · exact ha b hba
      have hba : b.precedes a := by
        rcases List.mem_cons.1 (hmem.1 (List.mem_cons_self ..)) with rfl | hab
        · exact hrefl _
        · exact hb a hab
      rw [precedes_iff] at hab hba
      have hoffset : b.offset = a.offset := by omega
      have hrule : b.rule = a.rule := Rule.rank_inj.1 (by omega)
      have hheads := h a.offset a.rule
      rw [List.filter_cons_of_pos (isAt_iff.2 ⟨rfl, rfl⟩),
        List.filter_cons_of_pos (isAt_iff.2 ⟨hoffset, hrule⟩)] at hheads
      obtain ⟨rfl, -⟩ := List.cons.inj hheads
      refine congrArg _ (ih hds' hes' fun offset rule => ?_)
      have htails := h offset rule
      simp only [List.filter_cons] at htails
      split at htails
      · exact (List.cons.inj htails).2
      · exact htails

/-- Choosing diagnostics from a list in order is the same as ordering the chosen ones. -/
theorem filter_sorted (p : Diagnostic → Bool) (ds : List Diagnostic) :
    (sorted ds).filter p = sorted (ds.filter p) := by
  refine eq_of_filter_at ((sorted_pairwise ds).filter p) (sorted_pairwise _) fun offset rule => ?_
  rw [filter_sorted_at, List.filter_filter, List.filter_filter]
  simp only [Bool.and_comm _ (p _)]
  rw [← List.filter_filter, filter_sorted_at, List.filter_filter]

end Diagnostic

/-! ### The rule of a finding -/

/-- All diagnostics are of the rule. -/
def FindsOnly (rule : Rule) (ds : List Diagnostic) : Prop := ∀ x ∈ ds, x.rule = rule

namespace FindsOnly

variable {rule : Rule} {α : Type}

private theorem nil : FindsOnly rule [] := nofun

private theorem one {message : String} {spans : List Span} : FindsOnly rule [rule.finding message spans] := by
  rintro x hx
  rw [List.mem_singleton.1 hx]
  rfl

/-- Two lists of findings are of one rule if both of them are. -/
private theorem append {ds es : List Diagnostic} (h : FindsOnly rule ds) (h' : FindsOnly rule es) :
    FindsOnly rule (ds ++ es) := by
  intro x hx
  exact (List.mem_append.1 hx).elim (h x) (h' x)

private theorem map {as : List α} {message : α → String} {spans : α → List Span} :
    FindsOnly rule (as.map fun a => rule.finding (message a) (spans a)) := by
  intro x hx
  obtain ⟨a, -, rfl⟩ := List.mem_map.1 hx
  rfl

private theorem flatMap {as : List α} {f : α → List Diagnostic} (h : ∀ a, FindsOnly rule (f a)) :
    FindsOnly rule (as.flatMap f) := by
  intro x hx
  obtain ⟨a, -, hx⟩ := List.mem_flatMap.1 hx
  exact h a x hx

/-- What is found of repeated names is of the rule that looks for them. -/
private theorem repeatFindings [Named α] {message : String → String} {items : List α} :
    FindsOnly rule (repeatFindings rule message items) := .map

end FindsOnly

section
variable {s : Schema} {d : Document}

/-! Names that must be unique -/

private theorem findsOnly_loneAnonymousOperation : FindsOnly .loneAnonymousOperation (loneAnonymousOperation d) := by
  simp only [loneAnonymousOperation]
  split
  · exact .nil
  · exact .one

mutual

/-- Repeated fields are found at any depth of a value. -/
private theorem findsOnly_repeatedFields : (v : Value) → FindsOnly .uniqueInputFieldNames v.repeatedFields
  | .list items _ => findsOnly_repeatedFieldsOfItems items
  | .object fields _ => .append .repeatFindings (findsOnly_repeatedFieldsOfFields fields)
  | .var _ | .int .. | .float .. | .string _ | .boolean .. | .null _ | .enum .. => .nil

private theorem findsOnly_repeatedFieldsOfItems : (vs : List Value) →
    FindsOnly .uniqueInputFieldNames (repeatedFieldsOfItems vs)
  | [] => .nil
  | v :: vs => .append (findsOnly_repeatedFields v) (findsOnly_repeatedFieldsOfItems vs)

private theorem findsOnly_repeatedFieldsOfFields : (fs : List ObjectField) →
    FindsOnly .uniqueInputFieldNames (repeatedFieldsOfFields fs)
  | [] => .nil
  | ⟨_, v, _⟩ :: fs => .append (findsOnly_repeatedFields v) (findsOnly_repeatedFieldsOfFields fs)

end

private theorem findsOnly_uniqueDirectivesPerLocation :
    FindsOnly .uniqueDirectivesPerLocation (uniqueDirectivesPerLocation s d) := by
  refine .flatMap fun v => ?_
  split
  · exact .repeatFindings
  · exact .nil

/-! Things that must exist -/

private theorem findsOnly_unknownField : FindsOnly .unknownField (unknownField s d) := by
  refine .flatMap fun v => ?_
  split
  · split
    · exact .one
    · exact .nil
  · exact .nil

private theorem findsOnly_knownArgumentNames : FindsOnly .knownArgumentNames (knownArgumentNames s d) := by
  refine .flatMap fun v => ?_
  split
  · exact .map
  · refine .flatMap fun use => ?_
    split
    · exact .map
    · exact .nil
  · exact .nil

private theorem findsOnly_requiredArguments : FindsOnly .requiredArguments (requiredArguments s d) := by
  refine .flatMap fun v => ?_
  split
  · exact .map
  · refine .flatMap fun use => ?_
    split
    · exact .map
    · exact .nil
  · exact .nil

private theorem findsOnly_knownFragmentNames : FindsOnly .knownFragmentNames (knownFragmentNames s d) := by
  refine .flatMap fun v => ?_
  split
  · split
    · exact .nil
    · exact .one
  · exact .nil

private theorem findsOnly_knownDirectives : FindsOnly .knownDirectives (knownDirectives s d) := by
  refine .flatMap fun v => ?_
  split
  · exact .map
  · exact .nil

/-! Things in their places -/

private theorem findsOnly_leafFieldSelections : FindsOnly .leafFieldSelections (leafFieldSelections s d) := by
  refine .flatMap fun v => ?_
  split
  · simp only
    split
    · split
      · exact .one
      · exact .nil
    · split
      · exact .one
      · exact .nil
    · exact .nil
  · exact .nil

private theorem findsOnly_singleFieldSubscriptions :
    FindsOnly .singleFieldSubscriptions (singleFieldSubscriptions s d) := by
  refine .flatMap fun o => .append ?_ .map
  split
  · exact .nil
  · exact .one

private theorem findsOnly_fragmentOnCompositeType :
    FindsOnly .fragmentOnCompositeType (fragmentOnCompositeType s d) := by
  have hfinding {subject : String} {condition : TypeCondition} :
      FindsOnly .fragmentOnCompositeType (fragmentOnCompositeType.finding s subject condition) := by
    unfold fragmentOnCompositeType.finding
    split
    · exact .one
    · exact .nil
  refine .flatMap fun v => ?_
  split
  · exact hfinding
  · exact hfinding
  · exact .nil

/-- Spreads and inline fragments are reported by one rule. -/
private theorem findsOnly_spreadFindings {subject : String} {parent : TypeDefinition} {condition : TypeCondition}
    {span : Span} : FindsOnly .possibleFragmentSpread (spreadFindings s subject parent condition span) := by
  unfold spreadFindings
  split
  · split
    · exact .one
    · exact .nil
  · exact .nil

private theorem findsOnly_possibleFragmentSpread : FindsOnly .possibleFragmentSpread (possibleFragmentSpread s d) := by
  refine .flatMap fun v => ?_
  split
  · split
    · exact findsOnly_spreadFindings
    · exact .nil
  · exact findsOnly_spreadFindings
  · exact .nil

private theorem findsOnly_directiveLocation : FindsOnly .directiveLocation (directiveLocation s d) := by
  refine .flatMap fun v => ?_
  split
  · exact .map
  · exact .nil

/-! Literals and variables -/

private theorem findsOnly_scalarFindings {scalar : String} {type : TypeRef} {v : Value} :
    FindsOnly .valueType (scalarFindings scalar type v) := by
  unfold scalarFindings
  split
  · split
    · exact .nil
    · exact .one
  · split
    · exact .nil
    · exact .one
  case h_8 =>
    split
    · exact .one
    · exact .nil
  all_goals exact .nil

private theorem findsOnly_leafFindings {type : TypeRef} {v : Value} : FindsOnly .valueType (leafFindings s type v) := by
  unfold leafFindings
  split
  · exact .nil
  · split
    · exact findsOnly_scalarFindings
    · split
      · split
        · exact .nil
        · exact .one
      · exact .one
    · exact .one
    all_goals exact .nil

mutual

/-- Whatever is wrong with a literal, at any depth, is reported by one rule. -/
private theorem findsOnly_literalFindings :
    (v : Value) → (type : TypeRef) → FindsOnly .valueType (literalFindings s v type)
  | .var _, _ => .nil
  | .null span, type => by
    rw [literalFindings]
    split
    · exact .nil
    · exact .one
  | .list items _, .list element _ _ => findsOnly_itemFindings element items
  | .object fields span, type => by
    rw [literalFindings]
    split
    · exact .append (findsOnly_fieldFindings _ _ fields) .map
    · exact findsOnly_leafFindings
  | .list .., .named .. | .int .., _ | .float .., _ | .string _, _ | .boolean .., _ | .enum .., _ =>
    findsOnly_leafFindings

private theorem findsOnly_itemFindings (element : TypeRef) : (vs : List Value) →
    FindsOnly .valueType (itemFindings s element vs)
  | [] => .nil
  | v :: vs => .append (findsOnly_literalFindings v element) (findsOnly_itemFindings element vs)

private theorem findsOnly_fieldFindings (type : String) (definitions : List InputValueDefinition) :
    (fs : List ObjectField) → FindsOnly .valueType (fieldFindings s type definitions fs)
  | [] => .nil
  | ⟨name, v, _⟩ :: fs => by
    rw [fieldFindings]
    refine .append ?_ (findsOnly_fieldFindings type definitions fs)
    split
    · exact findsOnly_literalFindings v _
    · exact .one

end

private theorem findsOnly_valueType : FindsOnly .valueType (valueType s d) := by
  have harguments {parameters : List InputValueDefinition} {arguments : List Argument} :
      FindsOnly .valueType (argumentFindings s parameters arguments) := by
    refine .flatMap fun a => ?_
    split
    · exact findsOnly_literalFindings _ _
    · exact .nil
  refine .flatMap fun v => ?_
  split
  · split
    · exact findsOnly_literalFindings _ _
    · exact .nil
  · exact harguments
  · refine .flatMap fun use => ?_
    split
    · exact harguments
    · exact .nil
  · exact .nil

private theorem findsOnly_variableUsage : FindsOnly .variableUsage (variableUsage s d) := by
  refine .flatMap fun o => .flatMap fun x => ?_
  unfold usageFindings
  split
  · split
    · exact .nil
    · exact .one
  · exact .nil

/-- A rule reports under its own name only. -/
theorem Rule.check_findsOnly (rule : Rule) : FindsOnly rule (rule.check s d) := by
  cases rule with
  | syntaxRule | schemaBuild | missingSchema => exact .nil
  | uniqueOperationNames => exact .repeatFindings
  | loneAnonymousOperation => exact findsOnly_loneAnonymousOperation
  | knownOperationType => exact .map
  | singleFieldSubscriptions => exact findsOnly_singleFieldSubscriptions
  | unknownField => exact findsOnly_unknownField
  | fieldMerging => exact .map
  | knownArgumentNames => exact findsOnly_knownArgumentNames
  | uniqueArgumentNames => exact .flatMap fun v => .flatMap fun arguments => .repeatFindings
  | requiredArguments => exact findsOnly_requiredArguments
  | valueType => exact findsOnly_valueType
  | uniqueInputFieldNames => exact .flatMap fun v => .flatMap fun value => findsOnly_repeatedFields value
  | uniqueVariableNames => exact .flatMap fun o => .repeatFindings
  | variablesAreInputTypes => exact .flatMap fun o => .map
  | undefinedVariable => exact .flatMap fun o => .map
  | unusedVariable => exact .flatMap fun o => .map
  | variableUsage => exact findsOnly_variableUsage
  | uniqueFragmentNames => exact .repeatFindings
  | knownFragmentNames => exact findsOnly_knownFragmentNames
  | fragmentCycle => exact .map
  | knownTypeNames => exact .flatMap fun v => .map
  | fragmentOnCompositeType => exact findsOnly_fragmentOnCompositeType
  | possibleFragmentSpread => exact findsOnly_possibleFragmentSpread
  | unusedFragment => exact .map
  | knownDirectives => exact findsOnly_knownDirectives
  | directiveLocation => exact findsOnly_directiveLocation
  | uniqueDirectivesPerLocation => exact findsOnly_uniqueDirectivesPerLocation
  | leafFieldSelections => exact findsOnly_leafFieldSelections

end

namespace Validator

/-- Dropping rules one after the other leaves the rest, whatever the order. -/
private theorem rules_foldl_without (v : Validator) (dropped : List Rule) :
    (dropped.foldl without v).rules = v.rules.filter (· ∉ dropped) := by
  induction dropped generalizing v with
  | nil => simp
  | cons rule dropped ih =>
    rw [List.foldl_cons, ih, without, List.filter_filter]
    refine List.filter_congr fun r _ => ?_
    simp [Bool.and_comm]

/-- What the chosen rules find is what is found under their names. -/
theorem flatMap_check_filter (p : Rule → Bool) (rules : List Rule) (s : Schema) (d : Document) :
    (rules.filter p).flatMap (·.check s d) = (rules.flatMap (·.check s d)).filter fun x => p x.rule := by
  induction rules with
  | nil => rfl
  | cons rule rules ih =>
    have hown : (rule.check s d).filter (fun x => p x.rule) = (rule.check s d).filter fun _ => p rule :=
      List.filter_congr fun x hx => congrArg p (rule.check_findsOnly x hx)
    rw [List.flatMap_cons, List.filter_append, hown, ← ih]
    cases hp : p rule with
    | true => simp [hp]
    | false => simp [hp]

/-- The validator that leaves rules out, one after the other and in any order, lists just the diagnostics of the
rules that remain, as the validator of all rules lists them. That one lists what its rules find by place and then by
rule, and keeps the order in which a rule found what it lists at one place. -/
theorem validate_restricted {chosen : Finset Rule} {dropped : List Rule}
    (h : ∀ rule ∈ Rule.documentRules, rule ∈ dropped ↔ rule ∉ chosen) (s : Schema) (d : Document) :
    (dropped.foldl without standard).validate s d = (standard.validate s d).filter (·.rule ∈ chosen) ∧
    (standard.validate s d).Perm (Rule.documentRules.flatMap (·.check s d)) ∧
    (standard.validate s d).Pairwise (fun a b =>
      a.offset < b.offset ∨ a.offset = b.offset ∧ a.rule.rank ≤ b.rule.rank) ∧
    ∀ offset rule, (standard.validate s d).filter (fun x => x.offset = offset ∧ x.rule = rule) =
      (Rule.documentRules.flatMap (·.check s d)).filter fun x => x.offset = offset ∧ x.rule = rule := by
  refine ⟨?_, Diagnostic.sorted_perm _, ?_, ?_⟩
  · have hrules : standard.rules.filter (· ∉ dropped) = standard.rules.filter (· ∈ chosen) := by
      refine List.filter_congr fun rule hrule => ?_
      simp [h rule hrule]
    rw [validate, validate, Diagnostic.filter_sorted, rules_foldl_without, hrules, flatMap_check_filter]
  · exact (Diagnostic.sorted_pairwise _).imp Diagnostic.precedes_iff.1
  · exact fun offset rule => Diagnostic.filter_sorted_at offset rule _

theorem validate_restricted_of_mutation :
    (∀ rule ∈ Rule.documentRules, rule ∈ Rule.documentRules.reverse.filter (· ≠ .knownOperationType) ↔
      rule ∉ ({.knownOperationType} : Finset Rule)) ∧
    ((Rule.documentRules.reverse.filter (· ≠ .knownOperationType)).foldl without standard).validate
        ⟨[], [], "Query", none, none⟩
        ⟨[.operation ⟨.mutation, none, [], [], ⟨[], .nowhere⟩, false, .nowhere⟩], .nowhere⟩ =
      (standard.validate ⟨[], [], "Query", none, none⟩
        ⟨[.operation ⟨.mutation, none, [], [], ⟨[], .nowhere⟩, false, .nowhere⟩], .nowhere⟩).filter
          (·.rule ∈ ({.knownOperationType} : Finset Rule)) := by
  have hdropped : ∀ rule ∈ Rule.documentRules,
      rule ∈ Rule.documentRules.reverse.filter (· ≠ .knownOperationType) ↔
        rule ∉ ({.knownOperationType} : Finset Rule) := by decide
  exact ⟨hdropped, (validate_restricted hdropped _ _).1⟩

end Validator

end GraphQL
