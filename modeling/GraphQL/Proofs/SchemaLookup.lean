import GraphQL.Proofs.PreludeContents
import GraphQL.Proofs.SchemaBuild

/-!
# What a built schema can look up

A draft never loses a type, nor does an extension change the kind of one (`Draft.keeps_addDocument`,
`Draft.keeps_extended`), so that every schema has the types of the prelude. In a schema that was built the root
operations are at object types (`Schema.exists_root`), and the type of every field, those of the prelude's
included, is known and not one of input objects (`Schema.exists_resultType`).
-/

namespace GraphQL

theorem TypeBody.kind_merge (a b : TypeBody) : (a.merge b).kind = a.kind := by
  cases a <;> cases b <;> rfl

namespace Draft

/-- Every type that the first draft can look up is in the second, with the same kind. -/
structure Keeps (d e : Draft) : Prop where
  type : ∀ name t, Named.find? d.types name = some t → ∃ u, Named.find? e.types name = some u ∧ u.kind = t.kind

/-- A change that leaves the types alone keeps what can be looked up. -/
private theorem Keeps.of_types_eq {d e : Draft} (h : e.types = d.types) : d.Keeps e :=
  ⟨fun _ t ht => ⟨t, h ▸ ht, rfl⟩⟩

private theorem Keeps.refl (d : Draft) : d.Keeps d := .of_types_eq rfl

theorem Keeps.trans {d e f : Draft} (h : d.Keeps e) (h' : e.Keeps f) : d.Keeps f := by
  constructor
  intro name t ht
  obtain ⟨u, hu, hkind⟩ := h.type name t ht
  obtain ⟨v, hv, hkind'⟩ := h'.type name u hu
  exact ⟨v, hv, hkind'.trans hkind⟩

/-- Steps that keep what can be looked up do so together. -/
private theorem keeps_foldl {α : Type} {f : Draft → α → Draft} (h : ∀ (d : Draft) (x : α), d.Keeps (f d x)) (d : Draft)
    (xs : List α) : d.Keeps (xs.foldl f d) := by
  induction xs generalizing d with
  | nil => exact .refl d
  | cons x xs ih => exact (h d x).trans (ih _)

private theorem keeps_report (d : Draft) (faults : List SchemaFault) : d.Keeps (d.report faults) := .of_types_eq rfl

private theorem keeps_addRoot (d : Draft) (root : RootOperation) : d.Keeps (d.addRoot root) := by
  unfold addRoot
  split
  · exact keeps_report ..
  · exact .of_types_eq rfl

private theorem keeps_addSchemaParts (d : Draft) (s : SchemaDefinition) : d.Keeps (d.addSchemaParts s) := by
  have hdirectives : d.Keeps { d with schemaDirectives := d.schemaDirectives ++ s.directives } := .of_types_eq rfl
  exact hdirectives.trans (keeps_foldl keeps_addRoot _ _)

private theorem keeps_addSchema (d : Draft) (s : SchemaDefinition) : d.Keeps (d.addSchema s) := by
  unfold addSchema
  split
  · exact (keeps_report ..).trans (keeps_addSchemaParts ..)
  · have hspan : d.Keeps { d with schemaSpan := some s.span } := .of_types_eq rfl
    exact hspan.trans (keeps_addSchemaParts _ s)

private theorem keeps_addType (inPrelude : Bool) (d : Draft) (t : TypeDefinition) :
    d.Keeps (d.addType inPrelude t) := by
  refine (keeps_report d t.faults).trans ?_
  simp only [addType]
  split
  · exact keeps_report ..
  · split
    · split
      · exact keeps_report ..
      · exact keeps_report ..
    · refine ⟨fun name u hu => ⟨u, ?_, rfl⟩⟩
      rw [Named.find?] at hu ⊢
      rw [List.find?_append, hu, Option.some_or]

private theorem keeps_addDirective (inPrelude : Bool) (d : Draft) (directive : DirectiveDefinition) :
    d.Keeps (d.addDirective inPrelude directive) := by
  simp only [addDirective]
  split
  · exact keeps_report ..
  · split
    · split
      · exact keeps_report ..
      · exact keeps_report ..
    · exact .of_types_eq rfl

/-- Adding a definition keeps what can be looked up: a type by a name in use is turned away. -/
private theorem keeps_add (inPrelude : Bool) (d : Draft) (definition : TypeSystemDefinition) :
    d.Keeps (d.add inPrelude definition) := by
  cases definition with
  | schema s => exact keeps_addSchema d s
  | schemaExtension s => exact keeps_addSchemaParts d s
  | type t => exact keeps_addType inPrelude d t
  | typeExtension t => exact .of_types_eq rfl
  | directive directive => exact keeps_addDirective inPrelude d directive

theorem keeps_addDocument (d : Draft) (document : SchemaDocument) : d.Keeps (d.addDocument document) :=
  keeps_foldl (keeps_add false) d document.definitions

/-- What the prelude defines can be looked up in every draft. -/
theorem keeps_ofDocuments (documents : List SchemaDocument) : start.Keeps (ofDocuments documents) :=
  keeps_foldl keeps_addDocument start documents

private theorem keeps_extendType (d : Draft) (extension : TypeDefinition) : d.Keeps (d.extendType extension) := by
  simp only [extendType]
  split
  · exact keeps_report ..
  · split
    · constructor
      intro name t ht
      simp only [report, Named.find?, List.find?_map, Option.map_eq_some_iff]
      refine ⟨_, ⟨t, ?_, rfl⟩, ?_⟩
      · rw [← ht, Named.find?]
        refine congrArg (List.find? · d.types) (funext ?_)
        intro u
        simp only [Function.comp_apply]
        split <;> rfl
      · split
        · exact TypeBody.kind_merge ..
        · rfl
    · exact keeps_report ..

/-- Applying the extensions keeps names and kinds. -/
theorem keeps_extended (d : Draft) : d.Keeps d.extended := by
  have hextensions : d.Keeps { d with extensions := [] } := .of_types_eq rfl
  exact hextensions.trans (keeps_foldl keeps_extendType _ _)

/-- A build succeeds if and only if there are no faults and a root of queries is found. -/
theorem build_eq_ok_iff {d : Draft} {s : Schema} :
    d.build = .ok s ↔ d.allFaults = [] ∧ ∃ query, d.extended.rootName? .query = some query ∧
      s = ⟨d.extended.types, d.extended.directives, query, d.extended.rootName? .mutation,
        d.extended.rootName? .subscription⟩ := by
  unfold build
  cases hall : d.allFaults with
  | cons fault rest => simp
  | nil =>
    cases hq : d.extended.rootName? .query with
    | none => simp [hq]
    | some query => simp [hq, eq_comm]

private theorem exists_object_of_rootName? {d : Draft} {kind : OperationKind} {name : String}
    (h : d.rootName? kind = some name) : ∃ t, Named.find? d.types name = some t ∧ t.kind = .object := by
  unfold rootName? at h
  split at h
  · cases h
  · split at h
    · rename_i t ht
      split at h
      · rename_i hkind
        obtain rfl := Option.some.inj h
        exact ⟨t, ht, hkind⟩
      · cases h
    · cases h

/-- The type of a field is known and gives results, where nothing is wrong with the type that has the field. -/
theorem exists_of_typeFaults {types : List TypeDefinition} {t : TypeDefinition} (h : typeFaults types t = [])
    {f : FieldDefinition} (hf : f ∈ t.fields) :
    ∃ u, Named.find? types f.type.innermost.value = some u ∧ u.kind.isOutput := by
  have hfield : outputTypeFaults types t.name.value f.name.value f.type = [] := by
    unfold typeFaults at h
    unfold TypeDefinition.fields at hf
    cases hbody : t.body with
    | object interfaces fields | interface interfaces fields =>
      rw [hbody] at h hf
      have hnone := List.flatMap_eq_nil_iff.1 (List.append_eq_nil_iff.1 h).2 f hf
      exact (List.append_eq_nil_iff.1 hnone).1
    | _ => simp [hbody, TypeBody.fields, TypeBody.fields?] at hf
  simp only [outputTypeFaults] at hfield
  cases hu : Named.find? types f.type.innermost.value with
  | none => simp [hu] at hfield
  | some u =>
    refine ⟨u, rfl, ?_⟩
    by_cases hkind : u.kind.isOutput
    · exact hkind
    · simp [hu, hkind] at hfield

end Draft

namespace Schema

variable {documents : List SchemaDocument} {s : Schema}

/-- The root operations of a built schema are at object types. -/
theorem exists_root (h : build documents = .ok s) {kind : OperationKind} {name : String}
    (hname : s.rootName? kind = some name) : ∃ t, s.root? kind = some t ∧ t.kind = .object := by
  obtain ⟨-, query, hquery, rfl⟩ := Draft.build_eq_ok_iff.1 h
  have hroot : (Draft.ofDocuments documents).extended.rootName? kind = some name := by
    cases kind with
    | query => exact hquery.trans hname
    | mutation => exact hname
    | subscription => exact hname
  obtain ⟨t, ht, hkind⟩ := Draft.exists_object_of_rootName? hroot
  refine ⟨t, ?_, hkind⟩
  rw [root?, hname]
  exact ht

/-- The type of every field of a built schema is known and gives results. -/
theorem exists_resultType (h : build documents = .ok s) {type field : String} {f : FieldDefinition}
    (hf : s.field? type field = some f) : ∃ t, s.type? f.type.innermost.value = some t ∧ t.kind.isOutput := by
  obtain ⟨hfaults, query, -, rfl⟩ := Draft.build_eq_ok_iff.1 h
  unfold field? at hf
  split at hf
  · cases hf
  · rename_i t ht
    split at hf
    · cases hf
    · split at hf
      · obtain ⟨u, hu, houtput⟩ := Draft.exists_metaType
          (Prelude.metaFields_typeName (List.mem_of_find?_eq_some hf))
        obtain ⟨v, hv, hkind⟩ :=
          ((Draft.keeps_ofDocuments documents).trans (Draft.keeps_extended _)).type _ u hu
        exact ⟨v, hv, hkind ▸ houtput⟩
      · have htypes : (Draft.ofDocuments documents).extended.types.flatMap
            (Draft.typeFaults (Draft.ofDocuments documents).extended.types) = [] := by
          simp only [Draft.allFaults, Draft.finalFaults, List.append_eq_nil_iff] at hfaults
          exact hfaults.2.1.1.2
        exact Draft.exists_of_typeFaults (List.flatMap_eq_nil_iff.1 htypes t (List.mem_of_find?_eq_some ht))
          (List.mem_of_find?_eq_some hf)

end Schema

end GraphQL
