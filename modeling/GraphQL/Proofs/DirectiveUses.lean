import GraphQL.Proofs.SchemaReferences

/-!
# Directives in a built schema

Directives are applied to types, to the parts of types and to the parameters of directives. Those in a definition
that a document adds are admitted in a built schema: each is defined, allowed at its place, and repeated only if it
may be. The types of the prelude are left out of the check, although documents can extend them, so that a built
schema admits all directives applied in it exactly when it admits those of their extensions
(`Schema.admits_annotations_iff`).
-/

namespace GraphQL

open Named

def IsRepeatable (directives : List DirectiveDefinition) (name : String) : Prop :=
  ∃ d, find? directives name = some d ∧ d.repeatable

/-- The directives applied at a place are defined and allowed there, and only those are repeated that may be. -/
structure Admits (directives : List DirectiveDefinition) (place : DirectiveLocation) (uses : List Directive) :
    Prop where
  allowed : ∀ use ∈ uses, ∃ d, find? directives use.name.value = some d ∧ d.allowedAt place
  distinct : uses.Pairwise fun a b => a.name.value = b.name.value → IsRepeatable directives b.name.value

section
variable {directives : List DirectiveDefinition} {place : DirectiveLocation}

private theorem admits_nil : Admits directives place [] := ⟨by simp, .nil⟩

private theorem admits_cons_iff {use : Directive} {uses : List Directive} : Admits directives place (use :: uses) ↔
    (∃ d, find? directives use.name.value = some d ∧ d.allowedAt place) ∧
      (∀ other ∈ uses, use.name.value = other.name.value → IsRepeatable directives other.name.value) ∧
      Admits directives place uses := by
  constructor
  · rintro ⟨hallowed, hdistinct⟩
    obtain ⟨huse, hrest⟩ := List.forall_mem_cons.1 hallowed
    obtain ⟨hother, hpairs⟩ := List.pairwise_cons.1 hdistinct
    exact ⟨huse, hother, hrest, hpairs⟩
  · rintro ⟨huse, hother, hrest, hpairs⟩
    exact ⟨List.forall_mem_cons.2 ⟨huse, hrest⟩, List.pairwise_cons.2 ⟨hother, hpairs⟩⟩

/-- Nothing is wrong with a list of directives that follows others exactly when they are admitted, and those that
have come before may be repeated. -/
theorem useFaults_eq_nil_iff {seen : List String} {uses : List Directive} :
    useFaults directives place seen uses = [] ↔ Admits directives place uses ∧
      ∀ use ∈ uses, use.name.value ∈ seen → IsRepeatable directives use.name.value := by
  induction uses generalizing seen with
  | nil => simp [useFaults, admits_nil]
  | cons use uses ih =>
    rw [useFaults, admits_cons_iff, List.forall_mem_cons]
    cases hd : find? directives use.name.value with
    | none => simp
    | some d =>
      have hown : IsRepeatable directives use.name.value ↔ d.repeatable := by simp [IsRepeatable, hd]
      -- a later directive of the same name has this one before it
      have hlater : (∀ other ∈ uses, other.name.value ∈ use.name.value :: seen →
            IsRepeatable directives other.name.value) ↔
          (∀ other ∈ uses, use.name.value = other.name.value → IsRepeatable directives other.name.value) ∧
          ∀ other ∈ uses, other.name.value ∈ seen → IsRepeatable directives other.name.value := by
        simp only [List.mem_cons, or_imp, forall_and, eq_comm]
      simp only [List.append_eq_nil_iff, ite_eq_left_iff, List.cons_ne_nil, imp_false, Decidable.not_not, ih, hlater,
        hown, Option.some.injEq, exists_eq_left']
      constructor
      · rintro ⟨⟨hallowed, hseen⟩, hadmits, hpairs, hrest⟩
        exact ⟨⟨hallowed, hpairs, hadmits⟩, by simpa using hseen, hrest⟩
      · rintro ⟨⟨hallowed, hpairs, hadmits⟩, hseen, hrest⟩
        exact ⟨⟨hallowed, by simpa using hseen⟩, hadmits, hpairs, hrest⟩

/-- A check of many places finds nothing if and only if each place admits its directives. -/
theorem usesFaults_eq_nil_iff {uses : Uses} :
    usesFaults directives uses = [] ↔ ∀ place list, (place, list) ∈ uses → Admits directives place list := by
  simp [usesFaults, useFaults_eq_nil_iff]

end

/-- A list of directives is applied at a place in the body of a type. -/
inductive TypeBody.Annotated (body : TypeBody) : DirectiveLocation → List Directive → Prop
  | field {f : FieldDefinition} : f ∈ body.fields → Annotated body .fieldDefinition f.directives
  | parameter {f : FieldDefinition} {p : InputValueDefinition} :
    f ∈ body.fields → p ∈ f.arguments → Annotated body .argumentDefinition p.directives
  | enumValue {v : EnumValueDefinition} : v ∈ body.enumValues → Annotated body .enumValue v.directives
  | inputField {f : InputValueDefinition} :
    f ∈ body.inputFields → Annotated body .inputFieldDefinition f.directives

/-- A list of directives is applied at a place in a schema. -/
inductive Schema.Annotated (s : Schema) : DirectiveLocation → List Directive → Prop
  | type {t : TypeDefinition} : t ∈ s.types → Annotated s t.kind.location t.directives
  | part {t : TypeDefinition} {place : DirectiveLocation} {list : List Directive} :
    t ∈ s.types → t.body.Annotated place list → Annotated s place list
  | directiveParameter {d : DirectiveDefinition} {p : InputValueDefinition} :
    d ∈ s.directives → p ∈ d.arguments → Annotated s .argumentDefinition p.directives
  | metaField {f : FieldDefinition} : f ∈ Prelude.metaFields → Annotated s .fieldDefinition f.directives
  | metaParameter {f : FieldDefinition} {p : InputValueDefinition} :
    f ∈ Prelude.metaFields → p ∈ f.arguments → Annotated s .argumentDefinition p.directives

/-- The lists of directives that are gathered from a body are the ones applied in it. -/
private theorem TypeBody.mem_uses_iff {body : TypeBody} {place : DirectiveLocation} {list : List Directive} :
    (place, list) ∈ body.uses ↔ body.Annotated place list := by
  constructor
  · intro h
    cases body with
    | scalar | union members => cases h
    | object interfaces fields | interface interfaces fields =>
      obtain ⟨f, hf, h⟩ := List.mem_flatMap.1 h
      rcases List.mem_cons.1 h with heq | h
      · cases heq
        exact .field hf
      · obtain ⟨p, hp, heq⟩ := List.mem_map.1 h
        cases heq
        exact .parameter hf hp
    | enum values =>
      obtain ⟨v, hv, heq⟩ := List.mem_map.1 h
      cases heq
      exact .enumValue hv
    | inputObject fields =>
      obtain ⟨f, hf, heq⟩ := List.mem_map.1 h
      cases heq
      exact .inputField hf
  · rintro (hf | ⟨hf, hp⟩ | hv | hf)
    case field =>
      cases body <;> simp only [fields, fields?, Option.getD_some, Option.getD_none, List.not_mem_nil] at hf
      case object | interface => exact List.mem_flatMap.2 ⟨_, hf, List.mem_cons_self⟩
    case parameter =>
      cases body <;> simp only [fields, fields?, Option.getD_some, Option.getD_none, List.not_mem_nil] at hf
      case object | interface =>
        exact List.mem_flatMap.2 ⟨_, hf, List.mem_cons_of_mem _ (List.mem_map_of_mem hp)⟩
    case enumValue =>
      cases body <;> simp only [enumValues, List.not_mem_nil] at hv
      case enum => exact List.mem_map_of_mem hv
    case inputField =>
      cases body <;> simp only [inputFields, List.not_mem_nil] at hf
      case inputObject => exact List.mem_map_of_mem hf

private theorem TypeBody.Annotated.mono {a b : TypeBody} {place : DirectiveLocation} {list : List Directive}
    (h : a.Annotated place list) (hfields : a.fields ⊆ b.fields) (hvalues : a.enumValues ⊆ b.enumValues)
    (hinputFields : a.inputFields ⊆ b.inputFields) : b.Annotated place list := by
  cases h with
  | field hf => exact .field (hfields hf)
  | parameter hf hp => exact .parameter (hfields hf) hp
  | enumValue hv => exact .enumValue (hvalues hv)
  | inputField hf => exact .inputField (hinputFields hf)

namespace TypeDefinition

/-- The directives applied to a type and to its parts are admitted. -/
structure Admitted (directives : List DirectiveDefinition) (t : TypeDefinition) : Prop where
  own : Admits directives t.kind.location t.directives
  parts : ∀ place list, t.body.Annotated place list → Admits directives place list

variable {directives : List DirectiveDefinition} {t u : TypeDefinition} {extensions : List TypeDefinition}

private theorem admitted_iff :
    t.Admitted directives ↔ ∀ place list, (place, list) ∈ t.uses → Admits directives place list := by
  simp only [uses, List.mem_cons, Prod.mk.injEq, TypeBody.mem_uses_iff]
  constructor
  · rintro ⟨hown, hparts⟩ place list (⟨rfl, rfl⟩ | h)
    · exact hown
    · exact hparts place list h
  · exact fun h => ⟨h _ _ (.inl ⟨rfl, rfl⟩), fun place list hpart => h place list (.inr hpart)⟩

/-- The parts of an extended type are its own and those of the extensions. -/
theorem ExtendedBy.annotated_iff (h : t.ExtendedBy extensions u) {place : DirectiveLocation}
    {list : List Directive} :
    u.body.Annotated place list ↔ t.body.Annotated place list ∨ ∃ e ∈ extensions, e.body.Annotated place list := by
  have hfields : u.body.fields = t.body.fields ++ extensions.flatMap (·.body.fields) := h.fields
  constructor
  · rintro (hf | ⟨hf, hp⟩ | hv | hf)
    case field =>
      rcases List.mem_append.1 (hfields ▸ hf) with hf | hf
      · exact .inl (.field hf)
      · obtain ⟨e, he, hf⟩ := List.mem_flatMap.1 hf
        exact .inr ⟨e, he, .field hf⟩
    case parameter =>
      rcases List.mem_append.1 (hfields ▸ hf) with hf | hf
      · exact .inl (.parameter hf hp)
      · obtain ⟨e, he, hf⟩ := List.mem_flatMap.1 hf
        exact .inr ⟨e, he, .parameter hf hp⟩
    case enumValue =>
      rcases List.mem_append.1 (h.enumValues ▸ hv) with hv | hv
      · exact .inl (.enumValue hv)
      · obtain ⟨e, he, hv⟩ := List.mem_flatMap.1 hv
        exact .inr ⟨e, he, .enumValue hv⟩
    case inputField =>
      rcases List.mem_append.1 (h.inputFields ▸ hf) with hf | hf
      · exact .inl (.inputField hf)
      · obtain ⟨e, he, hf⟩ := List.mem_flatMap.1 hf
        exact .inr ⟨e, he, .inputField hf⟩
  · rintro (ht | ⟨e, he, hpart⟩)
    · refine ht.mono ?_ ?_ ?_
      · exact hfields ▸ List.subset_append_left _ _
      · exact h.enumValues ▸ List.subset_append_left _ _
      · exact h.inputFields ▸ List.subset_append_left _ _
    · refine hpart.mono ?_ ?_ ?_
      · exact fun f hf => hfields ▸ List.mem_append_right _ (List.mem_flatMap.2 ⟨e, he, hf⟩)
      · exact fun v hv => h.enumValues ▸ List.mem_append_right _ (List.mem_flatMap.2 ⟨e, he, hv⟩)
      · exact fun f hf => h.inputFields ▸ List.mem_append_right _ (List.mem_flatMap.2 ⟨e, he, hf⟩)

/-- An extended type of the prelude applies the directives of the extensions alone. -/
theorem ExtendedBy.admitted_iff (h : t.ExtendedBy extensions u) (ht : t ∈ Draft.start.types) :
    u.Admitted directives ↔
      Admits directives t.kind.location (extensions.flatMap (·.directives)) ∧
        ∀ e ∈ extensions, ∀ place list, e.body.Annotated place list → Admits directives place list := by
  have hown : t.directives = [] := Draft.eq_nil_of_mem_start ht List.mem_cons_self
  have hparts {place : DirectiveLocation} {list : List Directive} (hpart : t.body.Annotated place list) :
      list = [] :=
    Draft.eq_nil_of_mem_start ht (List.mem_cons_of_mem _ (TypeBody.mem_uses_iff.2 hpart))
  have hdirectives : u.directives = extensions.flatMap (·.directives) := by
    rw [h.directives, hown, List.nil_append]
  constructor
  · rintro ⟨hadmits, hadmitted⟩
    rw [hdirectives, h.kind] at hadmits
    exact ⟨hadmits, fun e he place list hpart => hadmitted place list (h.annotated_iff.2 (.inr ⟨e, he, hpart⟩))⟩
  · rintro ⟨hadmits, hadmitted⟩
    refine ⟨by rw [hdirectives, h.kind]; exact hadmits, fun place list hpart => ?_⟩
    rcases h.annotated_iff.1 hpart with hpart | ⟨e, he, hpart⟩
    · exact hparts hpart ▸ admits_nil
    · exact hadmitted e he place list hpart

end TypeDefinition

/-! ### All directives of a schema -/

namespace Schema

variable {documents : List SchemaDocument} {s : Schema}

/-- The check of directives makes sure that types outside the prelude apply admitted directives only. -/
theorem admitted_of_build (h : build documents = .ok s) {t : TypeDefinition} (ht : t ∈ s.types)
    (hbuiltin : t.isBuiltin = false) : t.Admitted s.directives := by
  obtain ⟨hfree, htypes, hdirectives⟩ := faultFree_of_build h
  have huses := usesFaults_eq_nil_iff.1 hfree.uses
  rw [← htypes, ← hdirectives] at huses
  refine TypeDefinition.admitted_iff.2 fun place list hlist => huses place list ?_
  refine List.mem_append_left _ (List.mem_cons_of_mem _ (List.mem_flatMap.2 ⟨t, ?_, hlist⟩))
  simp [ht, hbuiltin]

private theorem admits_directiveParameter (h : build documents = .ok s) {d : DirectiveDefinition}
    (hd : d ∈ s.directives)
    {p : InputValueDefinition} (hp : p ∈ d.arguments) : Admits s.directives .argumentDefinition p.directives := by
  obtain ⟨hfree, -, hdirectives⟩ := faultFree_of_build h
  have huses := usesFaults_eq_nil_iff.1 hfree.uses
  rw [← hdirectives] at huses
  exact huses _ _ (List.mem_append_right _ (List.mem_flatMap.2 ⟨d, hd, List.mem_map_of_mem hp⟩))

/-- A built schema admits all directives applied in it exactly when it admits those of all types. -/
theorem admits_all_iff (h : build documents = .ok s) :
    (∀ place list, s.Annotated place list → Admits s.directives place list) ↔
      ∀ t ∈ s.types, t.Admitted s.directives := by
  constructor
  · exact fun hall t ht => ⟨hall _ _ (.type ht), fun place list hpart => hall place list (.part ht hpart)⟩
  · rintro hall place list (ht | ⟨ht, hpart⟩ | ⟨hd, hp⟩ | hf | ⟨hf, hp⟩)
    · exact (hall _ ht).own
    · exact (hall _ ht).parts place list hpart
    · exact admits_directiveParameter h hd hp
    · exact Prelude.directives_of_mem_metaFields hf ▸ admits_nil
    · exact Prelude.parameterDirectives_of_mem_metaFields hf hp ▸ admits_nil

/-- The directives applied to types of documents, and to the parameters of directives, are admitted in a built
schema. All directives applied in it are admitted exactly when those are that the documents apply in extensions of
types of the prelude. -/
theorem admits_annotations_iff (h : build documents = .ok s) :
    (∀ t ∈ s.types, t.isBuiltin = false → t.Admitted s.directives) ∧
    (∀ d ∈ s.directives, ∀ p ∈ d.arguments, Admits s.directives .argumentDefinition p.directives) ∧
    ((∀ place list, s.Annotated place list → Admits s.directives place list) ↔
      ∀ t ∈ Draft.start.types,
        Admits s.directives t.kind.location ((extensionsOf documents t.name.value).flatMap (·.directives)) ∧
          ∀ e ∈ extensionsOf documents t.name.value, ∀ place list,
            e.body.Annotated place list → Admits s.directives place list) := by
  refine ⟨fun t => admitted_of_build h, fun d hd p => admits_directiveParameter h hd, ?_⟩
  rw [admits_all_iff h]
  constructor
  · intro hall t ht
    obtain ⟨u, hu, hextended⟩ := exists_extendedBy_of_mem_start h ht
    exact (hextended.admitted_iff ht).1 (hall u hu)
  · intro hstart u hu
    by_cases hbuiltin : u.isBuiltin
    · obtain ⟨t, ht, hextended⟩ := exists_start_of_isBuiltin h hu hbuiltin
      exact (hextended.admitted_iff ht).2 (hstart t ht)
    · exact admitted_of_build h hu (by simpa using hbuiltin)

/-- An extension of a scalar of the prelude may apply a directive that is not defined: the schema is still built. -/
theorem undefined_directive_on_extended_scalar :
    ∃ document s,
      SchemaDocument.parse
        "interface I \x7b a: ID \x7d type Query implements I \x7b a: ID \x7d union U = Query extend scalar Int @t" =
          .ok document ∧
      build [document] = .ok s ∧
      ∃ place list, s.Annotated place list ∧ (∃ use ∈ list, s.directive? use.name.value = none) ∧
        ¬Admits s.directives place list := by
  obtain ⟨document, s, hparse, hs, -, -, ⟨t, ht, -, use, huse, hname⟩, hundefined⟩ := exists_of_extended_scalar
  have hnone : s.directive? use.name.value = none := hname ▸ find?_eq_none_iff.2 hundefined
  refine ⟨document, s, hparse, hs, _, _, .type ht, ⟨use, huse, hnone⟩, fun hadmits => ?_⟩
  obtain ⟨d, hd, -⟩ := hadmits.allowed use huse
  cases hnone.symm.trans hd

/-- The types that the schema defines itself are admitted. -/
theorem admits_annotations_of_extended_scalar :
    ∃ document s,
      SchemaDocument.parse
        "interface I \x7b a: ID \x7d type Query implements I \x7b a: ID \x7d union U = Query extend scalar Int @t" =
          .ok document ∧
      build [document] = .ok s ∧ ∀ t ∈ s.types, t.isBuiltin = false → t.Admitted s.directives := by
  obtain ⟨document, s, hparse, hs, -⟩ := exists_of_extended_scalar
  exact ⟨document, s, hparse, hs, (admits_annotations_iff hs).1⟩

end Schema

end GraphQL
