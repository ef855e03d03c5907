import GraphQL.Proofs.Evaluation

/-!
# What the prelude holds

The prelude is read by evaluation, and what the theory of schemas needs of it is noted down here: its types have
distinct names and so have its directives, no type is empty or repeats a member, no directive is applied to them, it
has the types of the fields without declaration, the parameters of these fields and of its directives have scalar
types, and it says nothing of the schema itself.
-/

namespace GraphQL

open Named

/-- The names of the types that fields without a declaration have. -/
def metaTypeNames : List String := ["String", "__Schema", "__Type"]

namespace Draft

set_option maxRecDepth 20000 in
/-- The prelude is read once, and all that is used of it is told from the result. -/
private theorem start_evaluated :
    start.extensions.isEmpty ∧ (names start.types).Nodup ∧
      (∀ t ∈ start.types, ¬t.body.isEmpty ∧ (∀ u ∈ t.uses, u.2.isEmpty) ∧ t.faults.isEmpty) ∧
      (∀ name ∈ builtinScalars, (find? start.types name).any (·.kind = .scalar)) ∧
      (∀ name ∈ metaTypeNames, (find? start.types name).any (·.kind.isOutput)) ∧
      (∀ name ∈ builtinDirectives, contains start.directives name) ∧
      (∀ d ∈ start.directives, ∀ p ∈ d.arguments, p.type.innermost.value ∈ builtinScalars) ∧
      (names start.directives).Nodup ∧ start.schemaSpan.isNone ∧ start.schemaDirectives.isEmpty ∧
      start.roots.isEmpty ∧ start.faults.isEmpty := by
  obtain ⟨text, htext, hfacts⟩ : ∃ text, Prelude.text.toList = text ∧
      (((definitionsOf text).foldl (add true) {}).extensions.isEmpty ∧
        (names ((definitionsOf text).foldl (add true) {}).types).Nodup ∧
        (∀ t ∈ ((definitionsOf text).foldl (add true) {}).types,
          ¬t.body.isEmpty ∧ (∀ u ∈ t.uses, u.2.isEmpty) ∧ t.faults.isEmpty) ∧
        (∀ name ∈ builtinScalars,
          (find? ((definitionsOf text).foldl (add true) {}).types name).any (·.kind = .scalar)) ∧
        (∀ name ∈ metaTypeNames,
          (find? ((definitionsOf text).foldl (add true) {}).types name).any (·.kind.isOutput)) ∧
        (∀ name ∈ builtinDirectives, contains ((definitionsOf text).foldl (add true) {}).directives name) ∧
        (∀ d ∈ ((definitionsOf text).foldl (add true) {}).directives, ∀ p ∈ d.arguments,
          p.type.innermost.value ∈ builtinScalars) ∧
        (names ((definitionsOf text).foldl (add true) {}).directives).Nodup ∧
        ((definitionsOf text).foldl (add true) {}).schemaSpan.isNone ∧
        ((definitionsOf text).foldl (add true) {}).schemaDirectives.isEmpty ∧
        ((definitionsOf text).foldl (add true) {}).roots.isEmpty ∧
        ((definitionsOf text).foldl (add true) {}).faults.isEmpty) :=
    ⟨_, String.toList_ofList, by decide +kernel⟩
  rwa [← Prelude.definitions_eq htext] at hfacts

theorem start_extensions : start.extensions = [] := List.isEmpty_iff.1 start_evaluated.1

theorem start_names_nodup : (names start.types).Nodup := start_evaluated.2.1

theorem isEmpty_of_mem_start {t : TypeDefinition} (h : t ∈ start.types) : t.body.isEmpty = false := by
  simpa using (start_evaluated.2.2.1 t h).1

/-- No directive is applied to the types of the prelude. -/
theorem eq_nil_of_mem_start {t : TypeDefinition} (h : t ∈ start.types) {place : DirectiveLocation}
    {list : List Directive} (hlist : (place, list) ∈ t.uses) : list = [] :=
  List.isEmpty_iff.1 ((start_evaluated.2.2.1 t h).2.1 _ hlist)

/-- No type of the prelude is at fault. -/
theorem faults_of_mem_start {t : TypeDefinition} (h : t ∈ start.types) : t.faults = [] :=
  List.isEmpty_iff.1 (start_evaluated.2.2.1 t h).2.2

/-- The prelude defines the scalars that it names. -/
theorem exists_scalar {name : String} (h : name ∈ builtinScalars) :
    ∃ t, find? start.types name = some t ∧ t.kind = .scalar := by
  obtain ⟨t, ht, hkind⟩ := (Option.any_eq_true ..).1 (start_evaluated.2.2.2.1 name h)
  exact ⟨t, ht, of_decide_eq_true hkind⟩

/-- The types of fields without a declaration are output types of the prelude. -/
theorem exists_metaType {name : String} (h : name ∈ metaTypeNames) :
    ∃ t, find? start.types name = some t ∧ t.kind.isOutput :=
  (Option.any_eq_true ..).1 (start_evaluated.2.2.2.2.1 name h)

theorem contains_start_directives {d : DirectiveDefinition} (h : d.isBuiltin) :
    contains start.directives d.name.value = true :=
  start_evaluated.2.2.2.2.2.1 _ (of_decide_eq_true h)

/-- Parameters of directives in the prelude are of its scalars. -/
theorem scalar_of_mem_start {d : DirectiveDefinition} (hd : d ∈ start.directives) {p : InputValueDefinition}
    (hp : p ∈ d.arguments) : p.type.innermost.value ∈ builtinScalars :=
  start_evaluated.2.2.2.2.2.2.1 d hd p hp

theorem start_directiveNames_nodup : (names start.directives).Nodup := start_evaluated.2.2.2.2.2.2.2.1

/-- The prelude says nothing of the schema itself, and nothing is wrong with it. -/
theorem start_eq : start = { types := start.types, directives := start.directives } := by
  obtain ⟨-, hspan, hdirectives, hroots, hfaults⟩ := start_evaluated.2.2.2.2.2.2.2
  have hextensions := start_extensions
  revert hspan hdirectives hroots hfaults hextensions
  generalize start = d
  obtain ⟨types, directives, schemaSpan, schemaDirectives, roots, extensions, faults⟩ := d
  simp +contextual

end Draft

namespace Prelude

set_option maxRecDepth 20000 in
/-- The fields without a declaration are read once, too. -/
private theorem metaFields_evaluated {f : FieldDefinition} (h : f ∈ metaFields) :
    f.type.innermost.value ∈ metaTypeNames ∧ f.directives.isEmpty ∧
      ∀ p ∈ f.arguments, p.directives.isEmpty ∧ p.type.innermost.value ∈ builtinScalars := by
  obtain ⟨text, htext, hfields⟩ : ∃ text, Prelude.metaText.toList = text ∧
      ∀ f ∈ (definitionsOf text).flatMap (·.objectFields), f.type.innermost.value ∈ metaTypeNames ∧
        f.directives.isEmpty ∧ ∀ p ∈ f.arguments, p.directives.isEmpty ∧ p.type.innermost.value ∈ builtinScalars :=
    ⟨_, String.toList_ofList, by decide +kernel⟩
  rw [metaFields_eq htext] at h
  exact hfields f h

variable {f : FieldDefinition} {p : InputValueDefinition}

theorem metaFields_typeName (h : f ∈ metaFields) : f.type.innermost.value ∈ metaTypeNames :=
  (metaFields_evaluated h).1

theorem directives_of_mem_metaFields (h : f ∈ metaFields) : f.directives = [] :=
  List.isEmpty_iff.1 (metaFields_evaluated h).2.1

theorem parameterDirectives_of_mem_metaFields (h : f ∈ metaFields) (hp : p ∈ f.arguments) : p.directives = [] :=
  List.isEmpty_iff.1 ((metaFields_evaluated h).2.2 p hp).1

theorem scalar_of_mem_metaFields (h : f ∈ metaFields) (hp : p ∈ f.arguments) :
    p.type.innermost.value ∈ builtinScalars :=
  ((metaFields_evaluated h).2.2 p hp).2

end Prelude

end GraphQL
