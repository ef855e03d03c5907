import GraphQL.Proofs.Evaluation
import GraphQL.Proofs.Subtypes
import GraphQL.Proofs.VariableUses

/-!
# Literals of a subtype

Two checks decide what may stand where a value is expected: a variable is judged by its declared type, a literal by
itself. They agree on variables whose type the schema has, as the literals of a subtype are literals of the type
(`literalFindings_of_isSubtype`). The names under the list brackets are the same, or the type's is a union or an
interface, of which every literal is let through; lists are compared element by element, so that the argument is by
induction on the type. Where a nullable variable may stand for a type without null, because a default takes the place
of null, null itself is left out. Of a variable of an unknown type the check is silent, since another rule reports the
type.
-/

namespace GraphQL

open Named

variable {s : Schema} {v : Value}

private theorem TypeRef.innermost_base (type : TypeRef) : type.base.innermost = type.innermost := by
  induction type with
  | named => rfl
  | list element nullable span ih => exact ih

/-- A scalar is told by its own name; the reference that leads to it only shows in the messages. -/
theorem scalarFindings_eq_nil_iff {scalar : String} {a b : TypeRef} :
    scalarFindings scalar a v = [] ↔ scalarFindings scalar b v = [] := by
  unfold scalarFindings
  split <;> simp

private theorem leafFindings_eq_nil_iff {a b : TypeRef} (h : a.innermost.value = b.innermost.value) :
    leafFindings s a v = [] ↔ leafFindings s b v = [] := by
  unfold leafFindings
  rw [h]
  cases s.type? b.innermost.value with
  | none => rfl
  | some t =>
    cases hbody : t.body with
    | scalar => simpa only [hbody] using scalarFindings_eq_nil_iff
    | inputObject => simp [hbody]
    | _ => simp only [hbody]

/-- Unions and interfaces let every literal through. -/
theorem leafFindings_of_isAbstract {type : TypeRef} {t : TypeDefinition} (ht : s.type? type.innermost.value = some t)
    (h : t.kind.isAbstract) : leafFindings s type v = [] := by
  simp only [leafFindings, ht]
  unfold TypeDefinition.kind at h
  cases hbody : t.body <;> simp_all [TypeBody.kind, TypeKind.isAbstract]

/-- The first type names under its brackets what the second does, or a type possible for that. -/
def TypeRef.Narrows (types : List TypeDefinition) (a b : TypeRef) : Prop :=
  a.innermost.value = b.innermost.value ∨ isPossibleType types b.innermost.value a.innermost.value

/-- Under its brackets a subtype names the same, or a type possible for the other. -/
private theorem TypeRef.narrows_of_isSubtype {types : List TypeDefinition} {a b : TypeRef} (h : isSubtype types a b) :
    a.Narrows types b := by
  induction a generalizing b with
  | named a n _ =>
    cases b with
    | list => cases h
    | named b m _ => exact (isSubtype_named_iff.1 h).2
  | list a n _ ih =>
    cases b with
    | named => cases h
    | list b m _ => exact ih (b := b) (isSubtype_list_iff.1 h).2

private theorem leafFindings_of_narrows {a b : TypeRef} (h : a.Narrows s.types b) (hv : leafFindings s a.base v = []) :
    leafFindings s b.base v = [] := by
  rw [TypeRef.Narrows, ← a.innermost_base, ← b.innermost_base] at h
  rcases h with hname | hpossible
  · exact (leafFindings_eq_nil_iff hname).1 hv
  · obtain ⟨t, ht, habstract⟩ := isAbstract_of_isPossibleType hpossible
    exact leafFindings_of_isAbstract ht habstract

private theorem objectFindings_of_narrows {a b : TypeRef} (h : a.Narrows s.types b) {fields : List ObjectField}
    {span : Span} (hv : literalFindings s (.object fields span) a = []) :
    literalFindings s (.object fields span) b = [] := by
  have hleaf := leafFindings_of_narrows (v := .object fields span) h
  rw [literalFindings] at hv ⊢
  rcases h with hname | hpossible
  · -- the same fields are checked against the same definitions
    rw [hname] at hv
    split at hv
    · exact hv
    · exact hleaf hv
  · obtain ⟨t, ht, habstract⟩ := isAbstract_of_isPossibleType hpossible
    rw [Schema.type?, ht]
    split
    · next hobject =>
      cases Option.some.inj hobject
      cases habstract
    · exact leafFindings_of_isAbstract (b.innermost_base ▸ ht) habstract

private theorem itemFindings_eq_nil_iff {element : TypeRef} {items : List Value} :
    itemFindings s element items = [] ↔ ∀ v ∈ items, literalFindings s v element = [] := by
  induction items with
  | nil => simp [itemFindings]
  | cons v vs ih => simp [itemFindings, ih]

theorem literalFindings_null_iff {type : TypeRef} {span : Span} :
    literalFindings s (.null span) type = [] ↔ type.nullable := by
  simp [literalFindings]

/-- A type with null is no subtype of one without. -/
private theorem nullable_of_isSubtype {types : List TypeDefinition} {a b : TypeRef} (h : isSubtype types a b)
    (ha : a.nullable) : b.nullable := by
  cases a with
  | named =>
    cases b with
    | list => cases h
    | named => exact (isSubtype_named_iff.1 h).1 ha
  | list =>
    cases b with
    | named => cases h
    | list => exact (isSubtype_list_iff.1 h).1 ha

/-- The literals of a subtype are literals of the type. -/
theorem literalFindings_of_isSubtype {a b : TypeRef} (h : isSubtype s.types a b)
    (hv : literalFindings s v a = []) : literalFindings s v b = [] := by
  have hnarrows := TypeRef.narrows_of_isSubtype h
  induction a generalizing b v with
  | named name nullable span =>
    cases b with
    | list => cases h
    | named =>
      cases v with
      | null => exact literalFindings_null_iff.2 (nullable_of_isSubtype h (literalFindings_null_iff.1 hv))
      | var => rfl
      | object => exact objectFindings_of_narrows hnarrows hv
      | _ => exact leafFindings_of_narrows hnarrows hv
  | list element nullable span ih =>
    cases b with
    | named => cases h
    | list =>
      cases v with
      | null => exact literalFindings_null_iff.2 (nullable_of_isSubtype h (literalFindings_null_iff.1 hv))
      | var => rfl
      | object => exact objectFindings_of_narrows hnarrows hv
      | list items =>
        have helement := (isSubtype_list_iff.1 h).2
        exact itemFindings_eq_nil_iff.2 fun v hmem =>
          ih helement (itemFindings_eq_nil_iff.1 hv v hmem) (TypeRef.narrows_of_isSubtype helement)
      | _ => exact leafFindings_of_narrows hnarrows hv

private theorem TypeRef.narrows_orNull (types : List TypeDefinition) (type : TypeRef) :
    type.orNull.Narrows types type := by
  cases type <;> exact .inl rfl

/-- A literal other than null does not need a type with null. -/
theorem literalFindings_of_orNull {type : TypeRef} (hnull : v.isNull = false)
    (hv : literalFindings s v type.orNull = []) : literalFindings s v type = [] := by
  have hnarrows := TypeRef.narrows_orNull s.types type
  cases v with
  | null => cases hnull
  | var => rfl
  | object => exact objectFindings_of_narrows hnarrows hv
  | list items span =>
    cases type with
    | named => exact leafFindings_of_narrows hnarrows hv
    | list => exact hv
  | _ => cases type <;> exact leafFindings_of_narrows hnarrows hv

/-- A place that a declared variable may stand in accepts every literal of the variable's type, but for null where
only the default makes the variable fit. -/
theorem literalFindings_of_usageAllowed {definition : VariableDefinition} {expected : TypeRef} {hasDefault : Bool}
    (h : usageAllowed s definition expected hasDefault)
    (hnull : definition.type.nullable → expected.nullable = false → v.isNull = false)
    (hv : literalFindings s v definition.type = []) : literalFindings s v expected = [] := by
  unfold usageAllowed at h
  split at h
  · next hwithout =>
    simp only [Bool.and_eq_true, Bool.not_eq_true'] at hwithout h
    exact literalFindings_of_orNull (hnull hwithout.2 hwithout.1) (literalFindings_of_isSubtype h.2 hv)
  · exact literalFindings_of_isSubtype h hv

/-- Of a variable whose type the schema has, the rule is silent only where it may stand. -/
theorem usageAllowed_of_usageFindings {o : Operation} {x : Occurrence} {expected : TypeRef}
    {definition : VariableDefinition} (hexpected : x.expected = some expected)
    (hvariable : o.variable? x.use.name.value = some definition)
    (hknown : (s.type? definition.type.innermost.value).isSome) (h : usageFindings s o x = []) :
    usageAllowed s definition expected x.hasDefault := by
  rw [usageFindings, hexpected, hvariable] at h
  by_contra hallowed
  have hunknown : (s.type? definition.type.innermost.value).isNone = false := by simpa using hknown
  simp [hunknown, hallowed] at h

/-- The rules on variables and on literals agree. Where the rule on variables accepts one whose type the schema has,
every literal of that type is accepted too, but for null where the variable's type has null and the place has not.
Literals of a subtype are literals of the type. -/
theorem literals_of_accepted_usages (s : Schema) (d : Document) :
    (∀ o ∈ d.operations, ∀ x ∈ operationOccurrences s d o, ∀ expected definition,
      x.expected = some expected → o.variable? x.use.name.value = some definition →
      (s.type? definition.type.innermost.value).isSome → usageFindings s o x = [] →
      ∀ v, (definition.type.nullable → expected.nullable = false → v.isNull = false) →
        literalFindings s v definition.type = [] → literalFindings s v expected = []) ∧
    ∀ a b v, isSubtype s.types a b → literalFindings s v a = [] → literalFindings s v b = [] := by
  refine ⟨fun o _ x _ expected definition hexpected hvariable hknown h v hnull hv => ?_,
    fun _ _ _ => literalFindings_of_isSubtype⟩
  have hallowed := usageAllowed_of_usageFindings hexpected hvariable hknown h
  exact literalFindings_of_usageAllowed hallowed hnull hv

/-- Whether some variable passes a test with the place where it occurs, in a document without fragments. -/
def Document.anyUsage (s : Schema) (d : Document)
    (test : Operation → Occurrence → TypeRef → VariableDefinition → Bool) : Bool :=
  d.fragments.isEmpty && d.operations.any fun o =>
    (definitionOccurrences s (.operation o)).any fun x =>
      match x.expected, o.variable? x.use.name.value with
      | some expected, some definition => test o x expected definition
      | _, _ => false

private theorem Document.exists_of_anyUsage {d : Document}
    {test : Operation → Occurrence → TypeRef → VariableDefinition → Bool}
    (h : d.anyUsage s test) : ∃ o ∈ d.operations, ∃ x ∈ operationOccurrences s d o, ∃ expected definition,
      x.expected = some expected ∧ o.variable? x.use.name.value = some definition ∧ test o x expected definition := by
  simp only [anyUsage, Bool.and_eq_true, List.isEmpty_iff, List.any_eq_true] at h
  obtain ⟨hfragments, o, ho, x, hx, h⟩ := h
  rw [← operationOccurrences_of_no_fragments hfragments] at hx
  cases hexpected : x.expected with
  | none => simp [hexpected] at h
  | some expected =>
    cases hdefinition : o.variable? x.use.name.value with
    | none => simp [hexpected, hdefinition] at h
    | some definition => exact ⟨o, ho, x, hx, expected, definition, hexpected, hdefinition, by simpa [*] using h⟩

set_option maxRecDepth 20000 in
/-- A variable that may pass by its default, and one of an unknown type: a literal of the type passes in place of the
first, and of the second does not. -/
theorem exists_of_two_usages :
    ∃ document s d,
      SchemaDocument.parse "type Query \x7b f(a: [Int]!): Int \x7d" = .ok document ∧
      Schema.build [document] = .ok s ∧
      Document.parse "query A($v: [Int!] = [1]) \x7b f(a: $v) \x7d query B($v: Foo) \x7b f(a: $v) \x7d" = .ok d ∧
      d.anyUsage s (fun o x expected definition =>
        (s.type? definition.type.innermost.value).isSome && (usageFindings s o x).isEmpty &&
          definition.type.nullable && !expected.nullable &&
          (literalFindings s (.int "1" (.emptyAt .origin)) definition.type).isEmpty) ∧
      d.anyUsage s fun o x expected definition =>
        (usageFindings s o x).isEmpty &&
          (literalFindings s (.boolean true (.emptyAt .origin)) definition.type).isEmpty &&
          !(literalFindings s (.boolean true (.emptyAt .origin)) expected).isEmpty := by
  simp only [← Bool.and_eq_true]
  exact Schema.exists_of_run String.toList_ofList String.toList_ofList String.toList_ofList (by decide +kernel)

/-- A number stands for a list of itself, for a variable that passes by its default and in its place. -/
theorem literals_of_variable_with_default :
    ∃ document s d,
      SchemaDocument.parse "type Query \x7b f(a: [Int]!): Int \x7d" = .ok document ∧
      Schema.build [document] = .ok s ∧
      Document.parse "query A($v: [Int!] = [1]) \x7b f(a: $v) \x7d query B($v: Foo) \x7b f(a: $v) \x7d" = .ok d ∧
      ∃ o ∈ d.operations, ∃ x ∈ operationOccurrences s d o, ∃ expected definition,
        x.expected = some expected ∧ o.variable? x.use.name.value = some definition ∧
        (s.type? definition.type.innermost.value).isSome ∧ usageFindings s o x = [] ∧
        definition.type.nullable ∧ expected.nullable = false ∧
        literalFindings s (.int "1" (.emptyAt .origin)) definition.type = [] ∧
        literalFindings s (.int "1" (.emptyAt .origin)) expected = [] := by
  obtain ⟨document, s, d, hdocument, hs, hd, husage, -⟩ := exists_of_two_usages
  obtain ⟨o, ho, x, hx, expected, definition, hexpected, hdefinition, htest⟩ := Document.exists_of_anyUsage husage
  simp only [Bool.and_eq_true, Bool.not_eq_true', List.isEmpty_iff] at htest
  obtain ⟨⟨⟨⟨hknown, hsilent⟩, hnullable⟩, hwithout⟩, hv⟩ := htest
  have haccepted := (literals_of_accepted_usages s d).1 o ho x hx expected definition hexpected hdefinition hknown
    hsilent _ (fun _ _ => rfl) hv
  exact ⟨document, s, d, hdocument, hs, hd, o, ho, x, hx, expected, definition, hexpected, hdefinition, hknown,
    hsilent, hnullable, hwithout, hv, haccepted⟩

/-- The rule on variables is silent about one of an unknown type, as which every literal passes; the place where it
occurs takes only some of them. -/
theorem usage_of_unknown_type_silent :
    ∃ document s d,
      SchemaDocument.parse "type Query \x7b f(a: [Int]!): Int \x7d" = .ok document ∧
      Schema.build [document] = .ok s ∧
      Document.parse "query A($v: [Int!] = [1]) \x7b f(a: $v) \x7d query B($v: Foo) \x7b f(a: $v) \x7d" = .ok d ∧
      ∃ o ∈ d.operations, ∃ x ∈ operationOccurrences s d o, ∃ expected definition,
        x.expected = some expected ∧ o.variable? x.use.name.value = some definition ∧ usageFindings s o x = [] ∧
        literalFindings s (.boolean true (.emptyAt .origin)) definition.type = [] ∧
        literalFindings s (.boolean true (.emptyAt .origin)) expected ≠ [] := by
  obtain ⟨document, s, d, hdocument, hs, hd, -, husage⟩ := exists_of_two_usages
  obtain ⟨o, ho, x, hx, expected, definition, hexpected, hdefinition, htest⟩ := Document.exists_of_anyUsage husage
  simp only [Bool.and_eq_true, Bool.not_eq_true', List.isEmpty_iff, List.isEmpty_eq_false_iff] at htest
  obtain ⟨⟨hsilent, hv⟩, hrejected⟩ := htest
  exact ⟨document, s, d, hdocument, hs, hd, o, ho, x, hx, expected, definition, hexpected, hdefinition, hsilent, hv,
    hrejected⟩

end GraphQL
