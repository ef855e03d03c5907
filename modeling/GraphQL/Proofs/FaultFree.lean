import GraphQL.Proofs.InterfaceWalk
import GraphQL.Proofs.SchemaLookup

/-!
# Drafts without faults

A draft becomes a schema only if each of its checks finds nothing. Here is what that says of its types, check by
check: which kinds of type their references lead to (`inputTypeFaults_eq_nil_iff` and the like), and all that is
known of one type (`Draft.typeFaults_eq_nil_iff`).
-/

namespace GraphQL

/-- The name is that of a type whose kind has the property. -/
def HasKind (types : List TypeDefinition) (name : String) (p : TypeKind → Prop) : Prop :=
  ∃ t, Named.find? types name = some t ∧ p t.kind

theorem Draft.Keeps.hasKind {d e : Draft} (h : d.Keeps e) {name : String} {p : TypeKind → Prop}
    (hname : HasKind d.types name p) : HasKind e.types name p := by
  obtain ⟨t, ht, hp⟩ := hname
  obtain ⟨u, hu, hkind⟩ := h.type name t ht
  exact ⟨u, hu, hkind ▸ hp⟩

section
variable {types : List TypeDefinition}

/-- The type of a parameter or an input field is not at fault if the name under its brackets is that of an input type.
-/
theorem inputTypeFaults_eq_nil_iff {path : String} {type : TypeRef} :
    inputTypeFaults types path type = [] ↔ HasKind types type.innermost.value (·.isInput) := by
  simp only [inputTypeFaults, HasKind]
  cases Named.find? types type.innermost.value <;> simp

private theorem outputTypeFaults_eq_nil_iff {parent field : String} {type : TypeRef} :
    outputTypeFaults types parent field type = [] ↔ HasKind types type.innermost.value (·.isOutput) := by
  simp only [outputTypeFaults, HasKind]
  cases Named.find? types type.innermost.value <;> simp

theorem memberTypeFaults_eq_nil_iff {union : String} {member : Name} :
    memberTypeFaults types union member = [] ↔ HasKind types member.value (· = .object) := by
  simp only [memberTypeFaults, HasKind]
  cases Named.find? types member.value <;> simp

theorem parameterTypeFaults_eq_nil_iff {owner : String} {parameters : List InputValueDefinition} :
    parameterTypeFaults types owner parameters = [] ↔
      ∀ p ∈ parameters, HasKind types p.type.innermost.value (·.isInput) := by
  simp only [parameterTypeFaults, List.flatMap_eq_nil_iff, inputTypeFaults_eq_nil_iff]

/-- A field is not at fault if its type is an output type and the types of its parameters are input types. -/
theorem fieldTypeFaults_eq_nil_iff {parent : String} {f : FieldDefinition} :
    fieldTypeFaults types parent f = [] ↔ HasKind types f.type.innermost.value (·.isOutput) ∧
      ∀ p ∈ f.arguments, HasKind types p.type.innermost.value (·.isInput) := by
  rw [fieldTypeFaults, List.append_eq_nil_iff, outputTypeFaults_eq_nil_iff, parameterTypeFaults_eq_nil_iff]

/-- Nothing is wrong with a type among all types exactly when it conforms to its interfaces, its references lead to
types of fitting kinds, and it is no input object that needs a value of itself. -/
theorem Draft.typeFaults_eq_nil_iff {t : TypeDefinition} :
    typeFaults types t = [] ↔ t.Conforms types ∧
      (∀ f ∈ t.fields, fieldTypeFaults types t.name.value f = []) ∧
      (∀ m ∈ t.body.members, memberTypeFaults types t.name.value m = []) ∧
      (∀ f ∈ t.body.inputFields, inputFieldTypeFaults types t.name.value f = []) ∧
      (t.kind = .inputObject → inputCycleFaults types t = []) := by
  have hconforms (h : t.interfaces = []) : t.Conforms types := by simp [TypeDefinition.Conforms, h, Named.names]
  unfold typeFaults
  cases hbody : t.body with
  | scalar | enum _ | union _ | inputObject _ =>
    simp [hconforms, TypeDefinition.interfaces, TypeDefinition.fields, TypeDefinition.kind, hbody,
      TypeBody.interfaces, TypeBody.fields, TypeBody.fields?, TypeBody.members, TypeBody.inputFields, TypeBody.kind]
  | object interfaces fields | interface interfaces fields =>
    simp [conformanceFaults_eq_nil_iff, TypeDefinition.fields, TypeDefinition.kind, hbody, TypeBody.fields,
      TypeBody.fields?, TypeBody.members, TypeBody.inputFields, TypeBody.kind]

end

namespace Draft

/-- No check of a draft with its extensions finds anything. -/
structure FaultFree (d : Draft) : Prop where
  own : d.faults = []
  empty : d.emptyFaults = []
  roots : d.rootFaults = []
  types : ∀ t ∈ d.types, typeFaults d.types t = []
  directiveTypes : d.directiveTypeFaults = []
  uses : directiveUseFaults d.schemaDirectives d.types d.directives = []

/-- A draft has no faults if no check of it with its extensions finds anything. -/
theorem allFaults_eq_nil_iff {d : Draft} : d.allFaults = [] ↔ d.extended.FaultFree := by
  simp only [allFaults, finalFaults, List.append_eq_nil_iff, List.flatMap_eq_nil_iff]
  constructor
  · rintro ⟨hown, ⟨⟨⟨hempty, hroots⟩, htypes⟩, hdirectives⟩, huses⟩
    exact ⟨hown, hempty, hroots, htypes, hdirectives, huses⟩
  · rintro ⟨hown, hempty, hroots, htypes, hdirectives, huses⟩
    exact ⟨hown, ⟨⟨⟨hempty, hroots⟩, htypes⟩, hdirectives⟩, huses⟩

private theorem faultFree_iff {d : Draft} : d.FaultFree ↔ d.faults = [] ∧ d.emptyFaults = [] ∧ d.rootFaults = [] ∧
    (∀ t ∈ d.types, t.Conforms d.types ∧
      (∀ f ∈ t.fields, fieldTypeFaults d.types t.name.value f = []) ∧
      (∀ m ∈ t.body.members, memberTypeFaults d.types t.name.value m = []) ∧
      (∀ f ∈ t.body.inputFields, inputFieldTypeFaults d.types t.name.value f = []) ∧
      (t.kind = .inputObject → inputCycleFaults d.types t = [])) ∧
    d.directiveTypeFaults = [] ∧ directiveUseFaults d.schemaDirectives d.types d.directives = [] := by
  constructor
  · rintro ⟨hown, hempty, hroots, htypes, hdirectives, huses⟩
    exact ⟨hown, hempty, hroots, fun t ht => typeFaults_eq_nil_iff.1 (htypes t ht), hdirectives, huses⟩
  · rintro ⟨hown, hempty, hroots, htypes, hdirectives, huses⟩
    exact ⟨hown, hempty, hroots, fun t ht => typeFaults_eq_nil_iff.2 (htypes t ht), hdirectives, huses⟩

/-- The walks over interfaces are not needed to tell whether a draft is free of faults. -/
instance (d : Draft) : Decidable d.FaultFree := decidable_of_iff _ faultFree_iff.symm

end Draft

namespace Schema

variable {documents : List SchemaDocument} {s : Schema}

/-- A schema is built from a draft without faults, and has its types and directives. -/
theorem faultFree_of_build (h : build documents = .ok s) :
    (Draft.ofDocuments documents).extended.FaultFree ∧ s.types = (Draft.ofDocuments documents).extended.types ∧
      s.directives = (Draft.ofDocuments documents).extended.directives := by
  obtain ⟨hfaults, query, -, rfl⟩ := Draft.build_eq_ok_iff.1 h
  exact ⟨Draft.allFaults_eq_nil_iff.1 hfaults, rfl, rfl⟩

theorem typeFaults_of_build (h : build documents = .ok s) {t : TypeDefinition} (ht : t ∈ s.types) :
    Draft.typeFaults s.types t = [] := by
  obtain ⟨hfree, htypes, -⟩ := faultFree_of_build h
  rw [htypes] at ht ⊢
  exact hfree.types t ht

/-- Every type of a built schema conforms to its interfaces. -/
theorem conforms (h : build documents = .ok s) {t : TypeDefinition} (ht : t ∈ s.types) : t.Conforms s.types :=
  (Draft.typeFaults_eq_nil_iff.1 (typeFaults_of_build h ht)).1

end Schema

end GraphQL
