import GraphQL.Proofs.DraftContents
import GraphQL.Proofs.FaultFree

/-!
# References of a built schema

Every name of a type that a built schema speaks of is that of one of its types, of a kind that fits the place of the
name: results are no input objects, parameters take input, only interfaces are implemented, unions consist of
object types, and operations begin at object types (`Schema.closed_of_build`). Documents have checks for that; what
the prelude refers to is known from its text.
-/

namespace GraphQL

open Named

/-- The extensions of a type in documents. -/
def extensionsOf (documents : List SchemaDocument) (name : String) : List TypeDefinition :=
  (documents.flatMap (·.extensions)).filter (·.name.value = name)

namespace Schema

/-- All references of a schema lead to its types, and none of its types is empty. -/
structure Closed (s : Schema) : Prop where
  fields : ∀ t ∈ s.types, ∀ f ∈ t.fields, HasKind s.types f.type.innermost.value (·.isOutput)
  parameters : ∀ t ∈ s.types, ∀ f ∈ t.fields, ∀ p ∈ f.arguments,
    HasKind s.types p.type.innermost.value (·.isInput)
  inputFields : ∀ t ∈ s.types, ∀ f ∈ t.body.inputFields, HasKind s.types f.type.innermost.value (·.isInput)
  directiveParameters : ∀ d ∈ s.directives, ∀ p ∈ d.arguments,
    HasKind s.types p.type.innermost.value (·.isInput)
  metaFields : ∀ f ∈ Prelude.metaFields, HasKind s.types f.type.innermost.value (·.isOutput)
  metaParameters : ∀ f ∈ Prelude.metaFields, ∀ p ∈ f.arguments,
    HasKind s.types p.type.innermost.value (·.isInput)
  interfaces : ∀ t ∈ s.types, ∀ i ∈ t.interfaces, HasKind s.types i.value (· = .interface)
  members : ∀ t ∈ s.types, ∀ m ∈ t.body.members, HasKind s.types m.value (· = .object)
  roots : ∀ kind name, s.rootName? kind = some name → HasKind s.types name (· = .object)
  query : HasKind s.types s.query (· = .object)
  nonempty : ∀ t ∈ s.types, t.body.isEmpty = false

variable {documents : List SchemaDocument} {s : Schema}

private theorem keeps_of_build (h : build documents = .ok s) {name : String} {p : TypeKind → Prop}
    (hname : HasKind Draft.start.types name p) : HasKind s.types name p := by
  obtain ⟨-, htypes, -⟩ := faultFree_of_build h
  rw [htypes]
  exact ((Draft.keeps_ofDocuments documents).trans (Draft.keeps_extended _)).hasKind hname

/-- The scalars of the prelude are scalars in every schema. -/
theorem isScalar_of_build (h : build documents = .ok s) {name : String} (hname : name ∈ builtinScalars) :
    HasKind s.types name (· = .scalar) :=
  keeps_of_build h (Draft.exists_scalar hname)

theorem hasKind_of_scalar (h : build documents = .ok s) {name : String} (hname : name ∈ builtinScalars) :
    HasKind s.types name (·.isInput) := by
  obtain ⟨t, ht, hkind⟩ := isScalar_of_build h hname
  exact ⟨t, ht, by rw [hkind]; rfl⟩

/-- The types of a built schema are those of the draft, each with what the extensions of its name add. -/
theorem types_eq_of_build (h : build documents = .ok s) :
    s.types = (Draft.ofDocuments documents).types.map (·.extendAll (documents.flatMap (·.extensions))) ∧
      ∀ t ∈ (Draft.ofDocuments documents).types,
        t.ExtendedBy (extensionsOf documents t.name.value) (t.extendAll (documents.flatMap (·.extensions))) := by
  obtain ⟨hfree, htypes, -⟩ := faultFree_of_build h
  have hextended := Draft.extended_types (Draft.contents_ofDocuments documents).nodup hfree.own
  rw [Draft.extensions_ofDocuments, ← htypes] at hextended
  exact hextended

/-- A type of the prelude is in every schema, with what the extensions of its name add. -/
theorem exists_extendedBy_of_mem_start (h : build documents = .ok s) {t : TypeDefinition}
    (ht : t ∈ Draft.start.types) : ∃ u ∈ s.types, t.ExtendedBy (extensionsOf documents t.name.value) u := by
  obtain ⟨hmap, hextended⟩ := types_eq_of_build h
  obtain ⟨us, hus, -⟩ := (Draft.contents_ofDocuments documents).types
  have ht : t ∈ (Draft.ofDocuments documents).types := hus ▸ List.mem_append_left us ht
  exact ⟨_, hmap ▸ List.mem_map_of_mem ht, hextended t ht⟩

/-- What has the name of a type of the prelude is that type, with what the extensions of its name add. -/
theorem exists_start_of_isBuiltin (h : build documents = .ok s) {u : TypeDefinition} (hu : u ∈ s.types)
    (hbuiltin : u.isBuiltin = true) :
    ∃ t ∈ Draft.start.types, t.ExtendedBy (extensionsOf documents t.name.value) u := by
  obtain ⟨hmap, hextended⟩ := types_eq_of_build h
  obtain ⟨t, ht, rfl⟩ := List.mem_map.1 (hmap ▸ hu)
  have hname : t.isBuiltin = true := by
    rw [TypeDefinition.isBuiltin, ← (hextended t ht).name]
    exact hbuiltin
  exact ⟨t, (Draft.contents_ofDocuments documents).mem_start_of_isBuiltin ht hname, hextended t ht⟩

/-- No two types of a built schema have one name. -/
theorem names_nodup (h : build documents = .ok s) : (names s.types).Nodup := by
  obtain ⟨-, htypes, -⟩ := faultFree_of_build h
  rw [htypes, Draft.names_extended]
  exact (Draft.contents_ofDocuments documents).nodup

theorem find?_of_mem_types (h : build documents = .ok s) {t : TypeDefinition} (ht : t ∈ s.types) :
    find? s.types t.name.value = some t :=
  find?_of_mem (names_nodup h) ht

/-- Only interfaces are implemented. -/
theorem hasKind_of_mem_interfaces (h : build documents = .ok s) {t : TypeDefinition} (ht : t ∈ s.types) {i : Name}
    (hi : i ∈ t.interfaces) : HasKind s.types i.value (· = .interface) := by
  obtain ⟨u, -, hfind, hkind, -⟩ := TypeDefinition.conformsTo_iff.1 (conforms h ht i.value (List.mem_map_of_mem hi))
  exact ⟨u, hfind, hkind⟩

/-- Unions consist of object types. -/
theorem hasKind_of_mem_members (h : build documents = .ok s) {t : TypeDefinition} (ht : t ∈ s.types) {m : Name}
    (hm : m ∈ t.body.members) : HasKind s.types m.value (· = .object) :=
  memberTypeFaults_eq_nil_iff.1 ((Draft.typeFaults_eq_nil_iff.1 (typeFaults_of_build h ht)).2.2.1 m hm)

/-- The fields of a type give results, and their parameters take input. -/
theorem hasKind_of_mem_fields (h : build documents = .ok s) {t : TypeDefinition} (ht : t ∈ s.types)
    {f : FieldDefinition} (hf : f ∈ t.fields) : HasKind s.types f.type.innermost.value (·.isOutput) ∧
      ∀ p ∈ f.arguments, HasKind s.types p.type.innermost.value (·.isInput) :=
  fieldTypeFaults_eq_nil_iff.1 ((Draft.typeFaults_eq_nil_iff.1 (typeFaults_of_build h ht)).2.1 f hf)

private theorem hasKind_of_mem_inputFields (h : build documents = .ok s) {t : TypeDefinition} (ht : t ∈ s.types)
    {f : InputValueDefinition} (hf : f ∈ t.body.inputFields) :
    HasKind s.types f.type.innermost.value (·.isInput) :=
  inputTypeFaults_eq_nil_iff.1 ((Draft.typeFaults_eq_nil_iff.1 (typeFaults_of_build h ht)).2.2.2.1 f hf)

/-- No type is empty: those of documents are checked, and those of the prelude only grow. -/
theorem isEmpty_of_mem_types (h : build documents = .ok s) {t : TypeDefinition} (ht : t ∈ s.types) :
    t.body.isEmpty = false := by
  obtain ⟨hfree, htypes, -⟩ := faultFree_of_build h
  by_cases hbuiltin : t.isBuiltin
  · obtain ⟨u, hu, hextended⟩ := exists_start_of_isBuiltin h ht hbuiltin
    exact hextended.isEmpty_eq_false (Draft.isEmpty_of_mem_start hu)
  · have hnone := List.filter_eq_nil_iff.1 (List.map_eq_nil_iff.1 hfree.empty) t (htypes ▸ ht)
    simpa [hbuiltin] using hnone

private theorem hasKind_of_mem_directives (h : build documents = .ok s) {d : DirectiveDefinition}
    (hd : d ∈ s.directives)
    {p : InputValueDefinition} (hp : p ∈ d.arguments) : HasKind s.types p.type.innermost.value (·.isInput) := by
  obtain ⟨hfree, htypes, hdirectives⟩ := faultFree_of_build h
  rw [hdirectives] at hd
  by_cases hbuiltin : d.isBuiltin
  · rw [Draft.directives_extended] at hd
    have hstart := (Draft.contents_ofDocuments documents).directive_mem_start_of_isBuiltin hd hbuiltin
    exact hasKind_of_scalar h (Draft.scalar_of_mem_start hstart hp)
  · have hnone := List.flatMap_eq_nil_iff.1 hfree.directiveTypes d (by simp [hd, hbuiltin])
    exact htypes ▸ parameterTypeFaults_eq_nil_iff.1 hnone p hp

private theorem hasKind_of_mem_metaFields (h : build documents = .ok s) {f : FieldDefinition}
    (hf : f ∈ Prelude.metaFields) : HasKind s.types f.type.innermost.value (·.isOutput) ∧
      ∀ p ∈ f.arguments, HasKind s.types p.type.innermost.value (·.isInput) :=
  ⟨keeps_of_build h (Draft.exists_metaType (Prelude.metaFields_typeName hf)),
    fun _ hp => hasKind_of_scalar h (Prelude.scalar_of_mem_metaFields hf hp)⟩

private theorem hasKind_of_rootName? (h : build documents = .ok s) {kind : OperationKind} {name : String}
    (hname : s.rootName? kind = some name) : HasKind s.types name (· = .object) := by
  obtain ⟨t, ht, hkind⟩ := exists_root h hname
  rw [root?, hname] at ht
  exact ⟨t, ht, hkind⟩

/-- The references of a built schema all resolve, to types of the kinds that are asked for. -/
theorem closed_of_build (h : build documents = .ok s) : s.Closed where
  fields _ ht _ hf := (hasKind_of_mem_fields h ht hf).1
  parameters _ ht _ hf := (hasKind_of_mem_fields h ht hf).2
  inputFields _ ht _ hf := hasKind_of_mem_inputFields h ht hf
  directiveParameters _ hd _ hp := hasKind_of_mem_directives h hd hp
  metaFields _ hf := (hasKind_of_mem_metaFields h hf).1
  metaParameters _ hf := (hasKind_of_mem_metaFields h hf).2
  interfaces _ ht _ hi := hasKind_of_mem_interfaces h ht hi
  members _ ht _ hm := hasKind_of_mem_members h ht hm
  roots _ _ hname := hasKind_of_rootName? h hname
  query := hasKind_of_rootName? h (show s.rootName? .query = some s.query from rfl)
  nonempty _ ht := isEmpty_of_mem_types h ht

set_option maxRecDepth 20000 in
/-- A schema with an interface, a union and an extension of a scalar of the prelude; the extension applies a
directive that is not defined. -/
theorem exists_of_extended_scalar :
    ∃ document s,
      SchemaDocument.parse
        "interface I \x7b a: ID \x7d type Query implements I \x7b a: ID \x7d union U = Query extend scalar Int @t" =
          .ok document ∧
      build [document] = .ok s ∧
      isPossibleType s.types "I" "Query" ∧ "Query" ∈ s.possibleTypes "Query" ∧
      (∃ t ∈ s.types, t.name.value = "Int" ∧ ∃ use ∈ t.directives, use.name.value = "t") ∧
      contains s.directives "t" = false := by
  obtain ⟨prelude, text, hp, htext, hparse, hfree, hquery, hpossible, hobject, hint, hundefined⟩ :
      ∃ prelude text, Prelude.text.toList = prelude ∧ String.toList
        "interface I \x7b a: ID \x7d type Query implements I \x7b a: ID \x7d union U = Query extend scalar Int @t" =
          text ∧
        (Parse.schemaDocument.run (lexChars text)).isOk ∧
        (Draft.ofChars prelude text).extended.FaultFree ∧
        (Draft.ofChars prelude text).extended.rootName? .query = some "Query" ∧
        isPossibleType (Draft.ofChars prelude text).extended.types "I" "Query" ∧
        "Query" ∈ possibleTypes ⟨(Draft.ofChars prelude text).extended.types, [], "", none, none⟩ "Query" ∧
        (∃ t ∈ (Draft.ofChars prelude text).extended.types, t.name.value = "Int" ∧
          ∃ use ∈ t.directives, use.name.value = "t") ∧
        contains (Draft.ofChars prelude text).extended.directives "t" = false :=
    ⟨_, _, String.toList_ofList, String.toList_ofList, by decide +kernel⟩
  rw [← SchemaDocument.parse_eq htext] at hparse
  cases hdocument : SchemaDocument.parse _ with
  | error cause => simp [hdocument, Except.isOk, Except.toBool] at hparse
  | ok document =>
    rw [← Draft.start_addDocument_eq hp htext hdocument] at hfree hquery hpossible hobject hint hundefined
    have hs : build [document] = .ok _ :=
      Draft.build_eq_ok_iff.2 ⟨Draft.allFaults_eq_nil_iff.2 hfree, "Query", hquery, rfl⟩
    exact ⟨document, _, rfl, hs, hpossible, hobject, hint, hundefined⟩

/-- The references of the schema resolve, with those of the prelude. -/
theorem closed_of_extended_scalar :
    ∃ document s,
      SchemaDocument.parse
        "interface I \x7b a: ID \x7d type Query implements I \x7b a: ID \x7d union U = Query extend scalar Int @t" =
          .ok document ∧
      build [document] = .ok s ∧ s.Closed := by
  obtain ⟨document, s, hparse, hs, -⟩ := exists_of_extended_scalar
  exact ⟨document, s, hparse, hs, closed_of_build hs⟩

end Schema

end GraphQL
