import GraphQL.Proofs.DraftOrder
import GraphQL.Proofs.SchemaReferences
import Mathlib.Data.List.Forall2
import Mathlib.Tactic.MkIffOfInductiveProp

/-!
# What definitions and extensions make of a type

Members are dropped where their names repeat, once within a definition or an extension and once more among those
that the type has by then. A drop is always a fault: where nothing is at fault each step keeps the parts of a type
distinct (`distinctParts_extend`), and so do all extensions of it (`TypeDefinition.Takes.distinctParts`). Hence the
types of a built schema have just the parts of their definitions and extensions, and a schema is not built where
these do not fit together (`Schema.build_gathers`).
-/

namespace GraphQL

open Named

/-- No two interfaces, fields, members, values or input fields of some definitions have one name, nor do two
parameters of one field. -/
@[mk_iff]
structure DistinctParts (ts : List TypeDefinition) : Prop where
  interfaces : (names (ts.flatMap (·.interfaces))).Nodup
  fields : (names (ts.flatMap (·.fields))).Nodup
  parameters : ∀ f ∈ ts.flatMap (·.fields), (names f.arguments).Nodup
  members : (names (ts.flatMap (·.body.members))).Nodup
  enumValues : (names (ts.flatMap (·.body.enumValues))).Nodup
  inputFields : (names (ts.flatMap (·.body.inputFields))).Nodup

/-- The parts of an extended type are those of the type and its extensions. -/
theorem TypeDefinition.ExtendedBy.distinctParts_congr {t u : TypeDefinition} {extensions : List TypeDefinition}
    (h : t.ExtendedBy extensions u) : DistinctParts [u] ↔ DistinctParts (t :: extensions) := by
  have hparts {α : Type} {part : TypeDefinition → List α} (hpart : part u = part t ++ extensions.flatMap part) :
      [u].flatMap part = (t :: extensions).flatMap part := by
    rw [List.flatMap_singleton, List.flatMap_cons, hpart]
  rw [distinctParts_iff, distinctParts_iff, hparts h.interfaces, hparts h.fields, hparts h.members,
    hparts h.enumValues, hparts h.inputFields]

private theorem nodup_append_of_memberFaults {α : Type} [Named α] {parent : String} {kept xs : List α}
    (hkept : (names kept).Nodup) (h : memberFaults parent kept xs = []) : (names (kept ++ xs)).Nodup := by
  obtain ⟨hxs, hnew⟩ := repeats_eq_nil_iff.1 (List.map_eq_nil_iff.1 h)
  rw [names, List.map_append]
  refine List.nodup_append.2 ⟨hkept, hxs, ?_⟩
  rintro name hname other hother rfl
  obtain ⟨x, hx, rfl⟩ := List.mem_map.1 hother
  exact contains_eq_false_iff.1 (hnew x hx) hname

private theorem nodup_parameters_of_fieldListFaults {parent : String} {kept fields : List FieldDefinition}
    (h : fieldListFaults parent kept fields = []) : ∀ f ∈ fields, (names f.arguments).Nodup := by
  induction fields generalizing kept with
  | nil => simp
  | cons f fields ih =>
    rw [fieldListFaults] at h
    obtain ⟨hparameters, hrest⟩ := List.append_eq_nil_iff.1 h
    have hown : (names f.arguments).Nodup := (repeats_eq_nil_iff.1 (List.map_eq_nil_iff.1 hparameters)).1
    split at hrest
    · cases hrest
    · exact List.forall_mem_cons.2 ⟨hown, ih hrest⟩

namespace TypeDefinition

variable {t e : TypeDefinition}

/-- The parts of a type and an extension of its kind are distinct, if those of the type are and the extension is not
at fault. -/
theorem distinctParts_pair (ht : DistinctParts [t]) (hkind : t.kind = e.kind) (h : t.extendFaults e = []) :
    DistinctParts [t, e] := by
  obtain ⟨_, tname, _, a, _⟩ := t
  obtain ⟨_, _, _, b, _⟩ := e
  simp only [distinctParts_iff, List.flatMap_cons, List.flatMap_nil, List.append_nil] at ht ⊢
  obtain ⟨hinterfaces, hfields, hparameters, hmembers, hvalues, hinputFields⟩ := ht
  cases a <;> cases b <;> cases hkind
  case scalar.scalar => exact ⟨.nil, .nil, nofun, .nil, .nil, .nil⟩
  case object.object is fs js gs | interface.interface is fs js gs =>
    obtain ⟨hinterfaces', hrest⟩ := List.append_eq_nil_iff.1 h
    obtain ⟨hown, hfields'⟩ := List.append_eq_nil_iff.1 hrest
    rw [distinctFields_eq_of_fieldListFaults hown] at hfields'
    have hall : ∀ f ∈ fs ++ gs, (names f.arguments).Nodup :=
      List.forall_mem_append.2 ⟨hparameters, nodup_parameters_of_fieldListFaults hown⟩
    exact ⟨nodup_append_of_memberFaults hinterfaces hinterfaces', nodup_append_of_memberFaults hfields hfields', hall,
      .nil, .nil, .nil⟩
  case union.union => exact ⟨.nil, .nil, nofun, nodup_append_of_memberFaults hmembers h, .nil, .nil⟩
  case enum.enum =>
    obtain ⟨hown, hvalues'⟩ := List.append_eq_nil_iff.1 h
    rw [fresh_eq_of_memberFaults hown] at hvalues'
    exact ⟨.nil, .nil, nofun, .nil, nodup_append_of_memberFaults hvalues hvalues', .nil⟩
  case inputObject.inputObject =>
    obtain ⟨hown, hinputFields'⟩ := List.append_eq_nil_iff.1 h
    rw [fresh_eq_of_memberFaults hown] at hinputFields'
    exact ⟨.nil, .nil, nofun, .nil, .nil, nodup_append_of_memberFaults hinputFields hinputFields'⟩

/-- An extension without fault keeps the parts of a type distinct. -/
theorem distinctParts_extend (ht : DistinctParts [t]) (hkind : t.kind = e.kind) (h : t.extendFaults e = []) :
    DistinctParts [t.extend e] :=
  (extendedBy_extend hkind h).distinctParts_congr.2 (distinctParts_pair ht hkind h)

/-- A type of the same kind without any parts. -/
def blank (t : TypeDefinition) : TypeDefinition := { t with directives := [], body := .blank t.kind }

private theorem kind_blank (t : TypeDefinition) : t.blank.kind = t.kind := by
  have hkind (k : TypeKind) : (TypeBody.blank k).kind = k := by cases k <;> rfl
  exact hkind t.kind

private theorem distinctParts_blank (t : TypeDefinition) : DistinctParts [t.blank] := by
  have hbody (k : TypeKind) : (TypeBody.blank k).interfaces = [] ∧ (TypeBody.blank k).fields = [] ∧
      (TypeBody.blank k).members = [] ∧ (TypeBody.blank k).enumValues = [] ∧
      (TypeBody.blank k).inputFields = [] := by
    cases k <;> exact ⟨rfl, rfl, rfl, rfl, rfl⟩
  obtain ⟨hinterfaces, hfields, hmembers, hvalues, hinputFields⟩ := hbody t.kind
  simp [distinctParts_iff, blank, interfaces, fields, names, hinterfaces, hfields, hmembers, hvalues, hinputFields]

/-- A definition without faults repeats nothing that could be dropped. -/
theorem distinct_eq_of_faults (h : t.faults = []) : t.distinct = t := by
  obtain ⟨_, _, _, body, _⟩ := t
  cases body with
  | scalar => rfl
  | object is fs | interface is fs =>
    obtain ⟨hinterfaces, hrest⟩ := List.append_eq_nil_iff.1 h
    obtain ⟨hown, hfields⟩ := List.append_eq_nil_iff.1 hrest
    have hdistinct := distinctFields_eq_of_fieldListFaults hown
    rw [hdistinct] at hfields
    simp [distinct, kind, TypeBody.kind, TypeBody.blank, TypeBody.merge, hdistinct,
      fresh_eq_of_memberFaults hinterfaces, fresh_eq_of_memberFaults hfields]
  | union ms => simp [distinct, kind, TypeBody.kind, TypeBody.blank, TypeBody.merge, fresh_eq_of_memberFaults h]
  | enum | inputObject =>
    have hown := fresh_eq_of_memberFaults (List.append_eq_nil_iff.1 h).1
    simp [distinct, kind, TypeBody.kind, TypeBody.blank, TypeBody.merge, hown]

/-- A definition is an extension of a type without parts. -/
theorem distinctParts_of_faults (h : t.faults = []) : DistinctParts [t] := by
  have hextend : DistinctParts [t.blank.extend t] := distinctParts_extend (distinctParts_blank t) (kind_blank t) h
  have heq : t.blank.extend t = t.distinct := rfl
  rwa [heq, distinct_eq_of_faults h] at hextend

/-- Extensions without faults keep the parts of a type distinct. -/
theorem Takes.distinctParts {extensions : List TypeDefinition} (h : t.Takes extensions) (ht : DistinctParts [t]) :
    DistinctParts [extensions.foldl extend t] := by
  induction extensions generalizing t with
  | nil => exact ht
  | cons e extensions ih =>
    obtain ⟨⟨hkind, hfaults⟩, hrest⟩ := h
    exact ih hrest (distinctParts_extend ht hkind hfaults)

/-- Extensions add to the directives and the body of a type only. -/
theorem exists_foldl_extend (t : TypeDefinition) (extensions : List TypeDefinition) :
    ∃ directives body, extensions.foldl extend t = { t with directives, body } := by
  induction extensions generalizing t with
  | nil => exact ⟨t.directives, t.body, rfl⟩
  | cons e extensions ih => exact ih (t.extend e)

/-- The second type is the first with just the parts that some extensions of its kind add, in their order, and all its
parts are distinct. -/
structure Gathers (t : TypeDefinition) (extensions : List TypeDefinition) (u : TypeDefinition) : Prop
    extends t.ExtendedBy extensions u where
  description : u.description = t.description
  span : u.span = t.span
  distinct : DistinctParts [u]

end TypeDefinition

/-- The types that are defined by the prelude and in documents, in this order. -/
def definedTypes (documents : List SchemaDocument) : List TypeDefinition :=
  Draft.start.types ++ (documents.flatMap (·.definitions)).filterMap (·.type?)

namespace Draft

variable {documents : List SchemaDocument}

/-- Where no definition is at fault the draft has them all. -/
theorem types_ofDocuments (h : (ofDocuments documents).faults = []) :
    (names (definedTypes documents)).Nodup ∧ (ofDocuments documents).types = definedTypes documents ∧
      ∀ t ∈ definedTypes documents, t.faults = [] := by
  rw [ofDocuments_eq] at h ⊢
  obtain ⟨hfit, heq⟩ := ofDefinitions_iff (documents.flatMap (·.definitions))
  have hfit := hfit.1 h
  have hkept : ((documents.flatMap (·.definitions)).filterMap (·.type?)).map (·.distinct) =
      (documents.flatMap (·.definitions)).filterMap (·.type?) := by
    conv => rhs; rw [← List.map_id ((documents.flatMap (·.definitions)).filterMap (·.type?))]
    exact List.map_congr_left fun t ht => TypeDefinition.distinct_eq_of_faults (hfit.types t ht).1
  refine ⟨hfit.typeNames, ?_, ?_⟩
  · rw [heq hfit, gathered, hkept]
    rfl
  · exact List.forall_mem_append.2 ⟨fun t ht => faults_of_mem_start ht, fun t ht => (hfit.types t ht).1⟩

/-- Where nothing is at fault, every type gathers the parts of its definition and of its extensions. -/
theorem gathers_of_faults (h : (ofDocuments documents).extended.faults = []) :
    (names (definedTypes documents)).Nodup ∧
      (∀ e ∈ documents.flatMap (·.extensions), nameOf e ∈ names (definedTypes documents)) ∧
      (ofDocuments documents).extended.types =
        (definedTypes documents).map (·.extendAll (documents.flatMap (·.extensions))) ∧
      ∀ t ∈ definedTypes documents, t.Gathers (extensionsOf documents t.name.value)
        (t.extendAll (documents.flatMap (·.extensions))) := by
  have hdrafts := (contents_ofDocuments documents).nodup
  obtain ⟨hown, hfound, htakes⟩ := (faults_extended_iff hdrafts).1 h
  obtain ⟨htypes, hextended⟩ := extended_types hdrafts h
  obtain ⟨hnames, hdefined, hfaults⟩ := types_ofDocuments hown
  rw [extensions_ofDocuments, hdefined] at hfound htakes htypes hextended
  refine ⟨hnames, hfound, htypes, fun t ht => ?_⟩
  obtain ⟨directives, body, heq⟩ := TypeDefinition.exists_foldl_extend t (extensionsOf documents t.name.value)
  have hsame : t.extendAll (documents.flatMap (·.extensions)) = { t with directives, body } := heq
  exact {
    toExtendedBy := hextended t ht
    description := by rw [hsame]
    span := by rw [hsame]
    distinct := (htakes t ht).distinctParts (TypeDefinition.distinctParts_of_faults (hfaults t ht)) }

end Draft

namespace Schema

/-- The types of a built schema are the defined ones, each with just the parts of its only definition and of its
extensions, and these parts are distinct. No schema is built where a type is extended that is not defined or has
another kind, or where a definition and its extensions repeat a part. -/
theorem build_gathers (documents : List SchemaDocument) :
    (∀ s, build documents = .ok s → (names (definedTypes documents)).Nodup ∧
      List.Forall₂ (fun t u => t.Gathers (extensionsOf documents t.name.value) u) (definedTypes documents) s.types) ∧
    ((∃ e ∈ documents.flatMap (·.extensions), nameOf e ∉ names (definedTypes documents)) ∨
      (∃ e ∈ documents.flatMap (·.extensions), ∃ t ∈ definedTypes documents, nameOf t = nameOf e ∧ t.kind ≠ e.kind) ∨
      (∃ t ∈ definedTypes documents, ¬ DistinctParts (t :: extensionsOf documents t.name.value)) →
        ∃ faults, build documents = .error faults ∧ faults ≠ []) := by
  constructor
  · intro s h
    obtain ⟨hfree, htypes, -⟩ := faultFree_of_build h
    obtain ⟨hnames, -, hmap, hgathers⟩ := Draft.gathers_of_faults hfree.own
    refine ⟨hnames, ?_⟩
    rw [htypes, hmap, List.forall₂_map_right_iff, List.forall₂_same]
    exact hgathers
  · intro h
    have hfaults : (Draft.ofDocuments documents).extended.faults ≠ [] := by
      intro hnone
      obtain ⟨-, hfound, -, hgathers⟩ := Draft.gathers_of_faults hnone
      rcases h with ⟨e, he, hundefined⟩ | ⟨e, he, t, ht, hname, hkind⟩ | ⟨t, ht, hrepeats⟩
      · exact hundefined (hfound e he)
      · have hextends : e ∈ extensionsOf documents t.name.value := List.mem_filter.2 ⟨he, decide_eq_true hname.symm⟩
        exact hkind ((hgathers t ht).kinds e hextends).symm
      · exact hrepeats ((hgathers t ht).distinctParts_congr.1 (hgathers t ht).distinct)
    have hall : (Draft.ofDocuments documents).allFaults ≠ [] :=
      fun hnone => hfaults (List.append_eq_nil_iff.1 hnone).1
    exact ⟨_, Draft.build_eq_error_iff.2 ⟨rfl, .inl hall⟩, hall⟩

/-- The extension of a scalar adds to it, and the extension of an object with its own field is at fault. -/
theorem build_gathers_of_extended_scalar :
    (∃ document s,
      SchemaDocument.parse
        "interface I \x7b a: ID \x7d type Query implements I \x7b a: ID \x7d union U = Query extend scalar Int @t" =
          .ok document ∧
      build [document] = .ok s ∧
      List.Forall₂ (fun t u => t.Gathers (extensionsOf [document] t.name.value) u) (definedTypes [document]) s.types) ∧
    let field : FieldDefinition := ⟨none, ⟨"a", .nowhere⟩, [], .named ⟨"ID", .nowhere⟩ true .nowhere, [], .nowhere⟩
    let t : TypeDefinition := ⟨none, ⟨"Query", .nowhere⟩, [], .object [] [field], .nowhere⟩
    ∃ faults, build [⟨[.type t, .typeExtension t], .nowhere⟩] = .error faults ∧ faults ≠ [] := by
  constructor
  · obtain ⟨document, s, hparse, hs, -⟩ := exists_of_extended_scalar
    exact ⟨document, s, hparse, hs, ((build_gathers [document]).1 s hs).2⟩
  · intro field t
    have hdefined : t ∈ definedTypes [⟨[.type t, .typeExtension t], .nowhere⟩] :=
      List.mem_append_right _ (List.mem_singleton_self t)
    have hextensions : extensionsOf [⟨[.type t, .typeExtension t], .nowhere⟩] t.name.value = [t] :=
      List.filter_cons_of_pos (decide_eq_true rfl)
    have hrepeats : ¬ DistinctParts [t, t] := fun hparts => absurd hparts.fields (by decide)
    exact (build_gathers _).2 (.inr (.inr ⟨t, hdefined, hextensions ▸ hrepeats⟩))

end Schema

end GraphQL
