import GraphQL.Proofs.LiteralSubtypes
import GraphQL.Proofs.NumberLiterals
import GraphQL.Proofs.SchemaReferences

/-!
# Literals that are coercible to a type

Which literals stand for values of an input type is told by rules, one for each kind of literal and type
(`Value.CoercibleTo`). The check of literals follows the list brackets of a type all at once where a value stands for
a list of itself, and it reads the rules of the scalars off their names; it finds nothing exactly for the literals
that the rules admit (`literalFindings_eq_nil_iff_coercible`).
-/

namespace GraphQL

open Named

variable {s : Schema} {v : Value}

/-- The value is a literal of the scalar; one that the prelude does not define takes them all. -/
inductive Value.OfScalar : String → Value → Prop where
  | int {raw : String} {span : Span} {i : Int} (h : Number.WritesInt raw.toList i) (hrange : Number.IsInt32 i) :
    OfScalar "Int" (.int raw span)
  | float {raw : String} {span : Span} {q : ℚ} (h : Number.WritesDecimal raw.toList q)
    (hfinite : Number.IsNearFinite q) : OfScalar "Float" (.float raw span)
  | floatOfInt {raw : String} {span : Span} : OfScalar "Float" (.int raw span)
  | string {literal : StringLiteral} : OfScalar "String" (.string literal)
  | boolean {b : Bool} {span : Span} : OfScalar "Boolean" (.boolean b span)
  | idOfString {literal : StringLiteral} : OfScalar "ID" (.string literal)
  | idOfInt {raw : String} {span : Span} : OfScalar "ID" (.int raw span)
  | custom {scalar : String} {v : Value} (h : scalar ∉ builtinScalars) : OfScalar scalar v

/-- The check of scalars lets just the literals of each pass. -/
private theorem scalarFindings_eq_nil_iff_ofScalar {scalar : String} {type : TypeRef} :
    scalarFindings scalar type v = [] ↔ v.OfScalar scalar := by
  constructor
  · intro h
    unfold scalarFindings at h
    split at h
    · split at h
      · next hsome =>
        obtain ⟨i, hi, hrange⟩ := Number.isSome_int32OfLiteral?_iff.1 hsome
        exact .int hi hrange
      · cases h
    · split at h
      · next hsome =>
        obtain ⟨q, hq, hfinite⟩ := Number.isSome_finiteOfLiteral?_iff.1 hsome
        exact .float hq hfinite
      · cases h
    · exact .floatOfInt
    · exact .string
    · exact .boolean
    · exact .idOfString
    · exact .idOfInt
    · split at h
      · cases h
      · next hcustom => exact .custom hcustom
  · intro h
    cases h with
    | int h hrange => exact if_pos (Number.isSome_int32OfLiteral?_iff.2 ⟨_, h, hrange⟩)
    | float h hfinite => exact if_pos (Number.isSome_finiteOfLiteral?_iff.2 ⟨_, h, hfinite⟩)
    | floatOfInt | string | boolean | idOfString | idOfInt => rfl
    | custom h =>
      unfold scalarFindings
      split
      case h_8 => exact if_neg h
      -- the other names are those of scalars of the prelude
      all_goals exact absurd (by decide) h

def Value.isList : Value → Bool
  | .list .. => true
  | _ => false

/-- The literal stands for a value of the type. -/
inductive Value.CoercibleTo (s : Schema) : Value → TypeRef → Prop where
  | var {use : VariableUse} {type : TypeRef} : CoercibleTo s (.var use) type
  | null {span : Span} {type : TypeRef} (h : type.nullable) : CoercibleTo s (.null span) type
  | list {items : List Value} {span : Span} {element : TypeRef} {nullable : Bool} {span' : Span}
    (h : ∀ v ∈ items, CoercibleTo s v element) : CoercibleTo s (.list items span) (.list element nullable span')
  | item {v : Value} {element : TypeRef} {nullable : Bool} {span : Span} (hnull : v.isNull = false)
    (hlist : v.isList = false) (h : CoercibleTo s v element) : CoercibleTo s v (.list element nullable span)
  | scalar {v : Value} {name : Name} {nullable : Bool} {span : Span} {t : TypeDefinition} (hnull : v.isNull = false)
    (ht : s.type? name.value = some t) (hbody : t.body = .scalar) (h : v.OfScalar t.name.value) :
    CoercibleTo s v (.named name nullable span)
  | enum {member : String} {span : Span} {name : Name} {nullable : Bool} {span' : Span} {t : TypeDefinition}
    {values : List EnumValueDefinition} (ht : s.type? name.value = some t) (hbody : t.body = .enum values)
    (h : contains values member) : CoercibleTo s (.enum member span) (.named name nullable span')
  | object {fields : List ObjectField} {span : Span} {name : Name} {nullable : Bool} {span' : Span}
    {t : TypeDefinition} {definitions : List InputValueDefinition} (ht : s.type? name.value = some t)
    (hbody : t.body = .inputObject definitions) (hdefined : ∀ f ∈ fields, contains definitions f.name.value)
    (hfields : ∀ f ∈ fields, ∀ definition, find? definitions f.name.value = some definition →
      CoercibleTo s f.value definition.type)
    (hrequired : ∀ definition ∈ definitions, definition.type.nullable = false → definition.defaultValue = none →
      contains fields definition.name.value) : CoercibleTo s (.object fields span) (.named name nullable span')

namespace Value.CoercibleTo

private theorem null_iff {type : TypeRef} {span : Span} : CoercibleTo s (.null span) type ↔ type.nullable := by
  constructor
  · intro h
    cases h with
    | null h => exact h
    | item hnull => cases hnull
    | scalar hnull => cases hnull
  · exact .null

/-- A list is coercible to a list type if its items are coercible to the type of elements. -/
private theorem list_iff {items : List Value} {element : TypeRef} {nullable : Bool} {span span' : Span} :
    CoercibleTo s (.list items span) (.list element nullable span') ↔ ∀ v ∈ items, CoercibleTo s v element := by
  constructor
  · intro h
    cases h with
    | list h => exact h
    | item _ hlist => cases hlist
  · exact .list

/-- A value that is neither null nor a list stands for a list of itself, of a list of itself and so on. -/
theorem base_iff (hnull : v.isNull = false) (hlist : v.isList = false) {type : TypeRef} :
    v.CoercibleTo s type ↔ v.CoercibleTo s type.base := by
  induction type with
  | named => rfl
  | list element nullable span ih =>
    rw [TypeRef.base, ← ih]
    constructor
    · intro h
      cases h with
      | var => exact .var
      | null => cases hnull
      | list => cases hlist
      | item _ _ h => exact h
    · exact .item hnull hlist

section Named

variable {name : Name} {nullable : Bool} {span span' : Span} {t u : TypeDefinition}

private theorem body_eq (ht : s.type? name.value = some t) (hu : s.type? name.value = some u) : u.body = t.body := by
  rw [Option.some.inj (hu.symm.trans ht)]

private theorem scalar_iff (hvar : v.variable? = none) (hnull : v.isNull = false) (ht : s.type? name.value = some t)
    (hbody : t.body = .scalar) : v.CoercibleTo s (.named name nullable span) ↔ v.OfScalar t.name.value := by
  refine ⟨fun h => ?_, .scalar hnull ht hbody⟩
  cases h with
  | var => cases hvar
  | null => cases hnull
  | scalar _ hu _ h => exact Option.some.inj (hu.symm.trans ht) ▸ h
  | enum hu hbody' | object hu hbody' => cases hbody'.symm.trans ((body_eq ht hu).trans hbody)

private theorem enum_iff {values : List EnumValueDefinition} (hvar : v.variable? = none) (hnull : v.isNull = false)
    (ht : s.type? name.value = some t) (hbody : t.body = .enum values) :
    v.CoercibleTo s (.named name nullable span) ↔ ∃ member span', v = .enum member span' ∧ contains values member := by
  constructor
  · intro h
    cases h with
    | var => cases hvar
    | null => cases hnull
    | enum hu hbody' h =>
      cases hbody'.symm.trans ((body_eq ht hu).trans hbody)
      exact ⟨_, _, rfl, h⟩
    | scalar _ hu hbody' | object hu hbody' => cases hbody'.symm.trans ((body_eq ht hu).trans hbody)
  · rintro ⟨member, span', rfl, h⟩
    exact .enum ht hbody h

/-- Nothing but variables, null and input objects stands for an input object. -/
theorem exists_fields {definitions : List InputValueDefinition} (hvar : v.variable? = none) (hnull : v.isNull = false)
    (ht : s.type? name.value = some t) (hbody : t.body = .inputObject definitions)
    (h : v.CoercibleTo s (.named name nullable span)) : ∃ fields span', v = .object fields span' := by
  cases h with
  | var => cases hvar
  | null => cases hnull
  | object => exact ⟨_, _, rfl⟩
  | scalar _ hu hbody' | enum hu hbody' => cases hbody'.symm.trans ((body_eq ht hu).trans hbody)

/-- An input object has literals of its fields, all of them defined, and the required ones are there. -/
theorem object_iff {fields : List ObjectField} {definitions : List InputValueDefinition}
    (ht : s.type? name.value = some t) (hbody : t.body = .inputObject definitions) :
    CoercibleTo s (.object fields span) (.named name nullable span') ↔
      (∀ f ∈ fields, contains definitions f.name.value ∧ ∀ definition,
        find? definitions f.name.value = some definition → f.value.CoercibleTo s definition.type) ∧
      ∀ definition ∈ definitions, definition.type.nullable = false → definition.defaultValue = none →
        contains fields definition.name.value := by
  constructor
  · intro h
    cases h with
    | scalar _ hu hbody' => cases hbody'.symm.trans ((body_eq ht hu).trans hbody)
    | object hu hbody' hdefined hfields hrequired =>
      cases hbody'.symm.trans ((body_eq ht hu).trans hbody)
      exact ⟨fun f hf => ⟨hdefined f hf, hfields f hf⟩, hrequired⟩
  · rintro ⟨hfields, hrequired⟩
    exact .object ht hbody (fun f hf => (hfields f hf).1) (fun f hf => (hfields f hf).2) hrequired

end Named

end Value.CoercibleTo

/-! ### The check -/

/-- The check at a leaf is right about literals other than null, variables and lists. -/
private theorem leafFindings_eq_nil_iff_coercible {name : Name} {nullable : Bool} {span : Span} {t : TypeDefinition}
    (ht : s.type? name.value = some t) (hkind : t.kind.isInput) (hvar : v.variable? = none) (hnull : v.isNull = false)
    (hobject : ∀ definitions fields span', t.body = .inputObject definitions → v ≠ .object fields span') :
    leafFindings s (.named name nullable span) v = [] ↔ v.CoercibleTo s (.named name nullable span) := by
  simp only [leafFindings, TypeRef.innermost, ht]
  cases hbody : t.body with
  | scalar => rw [Value.CoercibleTo.scalar_iff hvar hnull ht hbody, scalarFindings_eq_nil_iff_ofScalar]
  | enum values =>
    rw [Value.CoercibleTo.enum_iff hvar hnull ht hbody]
    cases v with
    | enum member span' => simp
    | _ => simp
  | inputObject definitions =>
    refine iff_of_false (by simp) fun h => ?_
    obtain ⟨fields, span', rfl⟩ := h.exists_fields hvar hnull ht hbody
    exact hobject definitions fields span' hbody rfl
  | _ => simp [TypeDefinition.kind, hbody, TypeBody.kind, TypeKind.isInput] at hkind

/-- A check that does not look at list brackets looks at the type under them. -/
theorem literalFindings_base (hnull : v.isNull = false) (hlist : v.isList = false) (type : TypeRef) :
    literalFindings s v type = literalFindings s v type.base := by
  induction type with
  | named => rfl
  | list element nullable span ih =>
    rw [TypeRef.base, ← ih]
    -- what is left looks up the innermost name, or the type under all brackets
    cases v with
    | null => cases hnull
    | list => cases hlist
    | _ => rfl

private theorem TypeRef.exists_base {type : TypeRef} (htype : HasKind s.types type.innermost.value (·.isInput)) :
    ∃ name nullable span t, type.base = .named name nullable span ∧ s.type? name.value = some t ∧ t.kind.isInput := by
  induction type with
  | named name nullable span =>
    obtain ⟨t, ht, hkind⟩ := htype
    exact ⟨name, nullable, span, t, rfl, ht, hkind⟩
  | list element nullable span ih => exact ih htype

private theorem missingInputFields_eq_nil_iff {type : String} {definitions : List InputValueDefinition}
    {fields : List ObjectField} {span : Span} :
    missingInputFields type definitions fields span = [] ↔
      ∀ definition ∈ definitions, definition.type.nullable = false → definition.defaultValue = none →
        contains fields definition.name.value := by
  simp [missingInputFields, InputValueDefinition.isRequired, List.filter_eq_nil_iff]

private theorem literalFindings_object {fields : List ObjectField} {span span' : Span} {name : Name} {nullable : Bool}
    {t : TypeDefinition} {definitions : List InputValueDefinition} (ht : s.type? name.value = some t)
    (hbody : t.body = .inputObject definitions) :
    literalFindings s (.object fields span) (.named name nullable span') =
      fieldFindings s t.name.value definitions fields ++ missingInputFields t.name.value definitions fields span := by
  obtain ⟨description, typeName, directives, body, typeSpan⟩ := t
  obtain rfl : body = .inputObject definitions := hbody
  rw [literalFindings, TypeRef.innermost, ht]

private theorem literalFindings_object_of_ne {fields : List ObjectField} {span span' : Span} {name : Name}
    {nullable : Bool}
    {t : TypeDefinition} (ht : s.type? name.value = some t) (hbody : ∀ definitions, t.body ≠ .inputObject definitions) :
    literalFindings s (.object fields span) (.named name nullable span') =
      leafFindings s (.named name nullable span') (.object fields span) := by
  rw [literalFindings, TypeRef.innermost, ht]
  split
  · next heq => exact absurd (congrArg TypeDefinition.body (Option.some.inj heq)) (hbody _)
  · rfl

/-- Literals that are neither null, lists nor input objects. -/
theorem literalFindings_eq_nil_iff_of_leaf (hvar : v.variable? = none) (hnull : v.isNull = false)
    (hlist : v.isList = false) (hobject : ∀ fields span, v ≠ .object fields span) {type : TypeRef}
    (htype : HasKind s.types type.innermost.value (·.isInput)) :
    literalFindings s v type = [] ↔ v.CoercibleTo s type := by
  obtain ⟨name, nullable, span, t, hbase, ht, hkind⟩ := TypeRef.exists_base htype
  rw [literalFindings_base hnull hlist, Value.CoercibleTo.base_iff hnull hlist, hbase]
  have hleaf : literalFindings s v (.named name nullable span) = leafFindings s (.named name nullable span) v := by
    cases v with
    | var => cases hvar
    | null => cases hnull
    | object => exact absurd rfl (hobject _ _)
    | _ => rfl
  rw [hleaf]
  exact leafFindings_eq_nil_iff_coercible ht hkind hvar hnull fun _ _ _ _ => hobject _ _

mutual

/-- The check of a literal finds nothing if and only if the literal stands for a value of the type. -/
theorem literalFindings_eq_nil_iff_coercible (hs : s.Closed) : (v : Value) → (type : TypeRef) →
    HasKind s.types type.innermost.value (·.isInput) → (literalFindings s v type = [] ↔ v.CoercibleTo s type)
  | .var use, type, _ => iff_of_true rfl .var
  | .null span, type, _ => by rw [literalFindings_null_iff, Value.CoercibleTo.null_iff]
  | .list items span, .list element nullable span', htype => by
    rw [literalFindings, Value.CoercibleTo.list_iff]
    exact itemFindings_eq_nil_iff_coercible hs items element htype
  | .list items span, .named name nullable span', ⟨t, ht, hkind⟩ =>
    leafFindings_eq_nil_iff_coercible ht hkind rfl rfl fun _ _ _ _ => nofun
  | .object fields span, type, htype => by
    obtain ⟨name, nullable, span', t, hbase, ht, hkind⟩ := TypeRef.exists_base htype
    rw [literalFindings_base rfl rfl, Value.CoercibleTo.base_iff rfl rfl, hbase]
    by_cases hbody : ∃ definitions, t.body = .inputObject definitions
    · obtain ⟨definitions, hbody⟩ := hbody
      have hdefinitions : ∀ definition ∈ definitions, HasKind s.types definition.type.innermost.value (·.isInput) := by
        intro definition hdefinition
        refine hs.inputFields t (List.mem_of_find?_eq_some ht) definition ?_
        rwa [hbody]
      rw [literalFindings_object ht hbody, Value.CoercibleTo.object_iff ht hbody, List.append_eq_nil_iff,
        fieldFindings_eq_nil_iff_coercible hs t.name.value definitions hdefinitions fields,
        missingInputFields_eq_nil_iff]
    · -- at other types an input object is judged like any other value
      have hbody : ∀ definitions, t.body ≠ .inputObject definitions := fun definitions h => hbody ⟨definitions, h⟩
      rw [literalFindings_object_of_ne ht hbody]
      exact leafFindings_eq_nil_iff_coercible ht hkind rfl rfl fun definitions _ _ h => absurd h (hbody definitions)
  | .int .., type, htype | .float .., type, htype | .string .., type, htype | .boolean .., type, htype
  | .enum .., type, htype => literalFindings_eq_nil_iff_of_leaf rfl rfl rfl (by simp) htype

private theorem itemFindings_eq_nil_iff_coercible (hs : s.Closed) : (items : List Value) → (element : TypeRef) →
    HasKind s.types element.innermost.value (·.isInput) →
      (itemFindings s element items = [] ↔ ∀ v ∈ items, v.CoercibleTo s element)
  | [], _, _ => by simp [itemFindings]
  | v :: vs, element, helement => by
    rw [itemFindings, List.append_eq_nil_iff, literalFindings_eq_nil_iff_coercible hs v element helement,
      itemFindings_eq_nil_iff_coercible hs vs element helement, List.forall_mem_cons]

private theorem fieldFindings_eq_nil_iff_coercible (hs : s.Closed) (type : String)
    (definitions : List InputValueDefinition)
    (hdefinitions : ∀ definition ∈ definitions, HasKind s.types definition.type.innermost.value (·.isInput)) :
    (fields : List ObjectField) → (fieldFindings s type definitions fields = [] ↔
      ∀ f ∈ fields, contains definitions f.name.value ∧ ∀ definition,
        find? definitions f.name.value = some definition → f.value.CoercibleTo s definition.type)
  | [] => by simp [fieldFindings]
  | ⟨name, v, span⟩ :: fs => by
    rw [fieldFindings, List.append_eq_nil_iff, fieldFindings_eq_nil_iff_coercible hs type definitions hdefinitions fs,
      List.forall_mem_cons]
    refine and_congr_left' ?_
    cases hfind : find? definitions name.value with
    | none => simp [find?_eq_none_iff.1 hfind]
    | some definition =>
      have hcontains : contains definitions name.value := by
        rw [← Bool.not_eq_false, ← find?_eq_none_iff, hfind]
        exact Option.some_ne_none definition
      have hv := literalFindings_eq_nil_iff_coercible hs v definition.type
        (hdefinitions definition (List.mem_of_find?_eq_some hfind))
      simp [hv, hcontains]

end

/-- The check of a literal finds nothing exactly where the literal stands for a value of the type, for every schema
that is built and every type whose name is that of an input type of the schema. -/
theorem literals_coercible {documents : List SchemaDocument} (hs : Schema.build documents = .ok s) (v : Value)
    {type : TypeRef} (htype : HasKind s.types type.innermost.value (·.isInput)) :
    literalFindings s v type = [] ↔ v.CoercibleTo s type :=
  literalFindings_eq_nil_iff_coercible (Schema.closed_of_build hs) v type htype

/-- A number that stands for a list of lists of floats is coercible if it is just not rounded to infinity. -/
theorem literals_coercible_of_nested_list :
    ∃ document s,
      SchemaDocument.parse
        "interface I \x7b a: ID \x7d type Query implements I \x7b a: ID \x7d union U = Query extend scalar Int @t" =
          .ok document ∧
      Schema.build [document] = .ok s ∧ HasKind s.types "Float" (·.isInput) ∧
      let span := Span.emptyAt .origin
      let type := TypeRef.list (.list (.named ⟨"Float", span⟩ false span) false span) false span
      (Value.float "1.7976931348623158e308" span).CoercibleTo s type ∧
      ¬(Value.float "1.7976931348623159e308" span).CoercibleTo s type := by
  obtain ⟨document, s, hparse, hs, -⟩ := Schema.exists_of_extended_scalar
  have hmem : "Float" ∈ builtinScalars := by decide
  refine ⟨document, s, hparse, hs, Schema.hasKind_of_scalar hs hmem, ?_⟩
  intro span type
  have htype : HasKind s.types type.innermost.value (·.isInput) := Schema.hasKind_of_scalar hs hmem
  have hfindings (raw : String) : literalFindings s (.float raw span) type =
      scalarFindings "Float" (.named ⟨"Float", span⟩ false span) (.float raw span) := by
    obtain ⟨t, ht, hkind⟩ := Schema.isScalar_of_build hs hmem
    obtain ⟨description, name, directives, body, span'⟩ := t
    have hname : name.value = "Float" := nameOf_of_find? ht
    cases body with
    | scalar => simp [type, literalFindings, TypeRef.base, leafFindings, TypeRef.innermost, Schema.type?, ht, hname]
    | _ => cases hkind
  have hsmall : (Number.finiteOfLiteral? "1.7976931348623158e308").isSome = true := by decide +kernel
  have hlarge : (Number.finiteOfLiteral? "1.7976931348623159e308").isSome = false := by decide +kernel
  constructor
  · exact (literals_coercible hs _ htype).1 (by simp [hfindings, scalarFindings, hsmall])
  · intro h
    have hnil := (literals_coercible hs _ htype).2 h
    simp [hfindings, scalarFindings, hlarge] at hnil

end GraphQL
