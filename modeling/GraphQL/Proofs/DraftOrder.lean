import GraphQL.Proofs.DraftContents
import Mathlib.Data.List.Induction

/-!
# Definitions that fit together

Definitions are added to a draft one after the other, and the first of each name is kept. Nothing is wrong with them
exactly when they fit together (`Fit`), which does not depend on their order, and then the draft is just what they
say, put together (`Draft.ofDefinitions_iff`). No extension is at fault exactly when each one finds a type and each
type takes those of its name, one after the other (`Draft.faults_extended_iff`).
-/

namespace GraphQL

open Named

namespace TypeSystemDefinition

def type? : TypeSystemDefinition → Option TypeDefinition
  | .type t => some t
  | _ => none

def directive? : TypeSystemDefinition → Option DirectiveDefinition
  | .directive d => some d
  | _ => none

/-- The definition of the schema itself. -/
def schema? : TypeSystemDefinition → Option SchemaDefinition
  | .schema s => some s
  | _ => none

/-- The directives that a definition or an extension applies to the schema itself. -/
def schemaDirectives : TypeSystemDefinition → List Directive
  | .schema s | .schemaExtension s => s.directives
  | _ => []

/-- The root operations that a definition or an extension names. -/
def roots : TypeSystemDefinition → List RootOperation
  | .schema s | .schemaExtension s => s.rootOperations
  | _ => []

end TypeSystemDefinition

/-- The definitions fit together and with the prelude: their names are new and not reserved, the schema is defined
once and has one root of a kind, and nothing is wrong with the parts of each. -/
structure Fit (definitions : List TypeSystemDefinition) : Prop where
  types : ∀ t ∈ definitions.filterMap (·.type?), t.faults = [] ∧ isReserved t.name.value = false
  typeNames : (names (Draft.start.types ++ definitions.filterMap (·.type?))).Nodup
  directives : ∀ d ∈ definitions.filterMap (·.directive?), d.faults = [] ∧ isReserved d.name.value = false
  directiveNames : (names (Draft.start.directives ++ definitions.filterMap (·.directive?))).Nodup
  schemas : (definitions.filterMap (·.schema?)).length ≤ 1
  rootKinds : ((definitions.flatMap (·.roots)).map (·.kind)).Nodup

/-- Definitions fit together in any order if they do in one. -/
theorem Fit.of_perm {definitions definitions' : List TypeSystemDefinition} (h : Fit definitions)
    (hperm : definitions.Perm definitions') : Fit definitions' where
  types t ht := h.types t ((hperm.filterMap _).symm.subset ht)
  typeNames := (((hperm.filterMap _).append_left _).map _).nodup_iff.1 h.typeNames
  directives d hd := h.directives d ((hperm.filterMap _).symm.subset hd)
  directiveNames := (((hperm.filterMap _).append_left _).map _).nodup_iff.1 h.directiveNames
  schemas := (hperm.filterMap _).length_eq ▸ h.schemas
  rootKinds := ((hperm.flatMap_right _).map _).nodup_iff.1 h.rootKinds

namespace Draft

/-- The draft of some definitions after the prelude. -/
def ofDefinitions (definitions : List TypeSystemDefinition) : Draft := definitions.foldl (add false) start

/-- What definitions say, put together without a look at whether they fit. -/
def gathered (definitions : List TypeSystemDefinition) : Draft where
  types := start.types ++ (definitions.filterMap (·.type?)).map (·.distinct)
  directives := start.directives ++ (definitions.filterMap (·.directive?)).map (·.distinct)
  schemaSpan := definitions.findSome? fun x => x.schema?.map (·.span)
  schemaDirectives := definitions.flatMap (·.schemaDirectives)
  roots := definitions.flatMap (·.roots)
  extensions := definitions.filterMap (·.extension?)

/-- The draft of some documents does not tell from which of them a definition is. -/
theorem ofDocuments_eq (documents : List SchemaDocument) :
    ofDocuments documents = ofDefinitions (documents.flatMap (·.definitions)) := by
  rw [ofDefinitions, List.foldl_flatMap]
  rfl

/-- The definition fits a draft. -/
structure Accepts (d : Draft) (x : TypeSystemDefinition) : Prop where
  type : ∀ t ∈ x.type?, (t.faults = [] ∧ isReserved t.name.value = false) ∧ nameOf t ∉ names d.types
  directive : ∀ y ∈ x.directive?, (y.faults = [] ∧ isReserved y.name.value = false) ∧ nameOf y ∉ names d.directives
  schema : ∀ s ∈ x.schema?, d.schemaSpan = none
  rootKinds : ((d.roots ++ x.roots).map (·.kind)).Nodup

/-- The draft with what a definition says. -/
def plus (d : Draft) : TypeSystemDefinition → Draft
  | .schema s =>
    { d with
      schemaSpan := d.schemaSpan.or (some s.span)
      schemaDirectives := d.schemaDirectives ++ s.directives
      roots := d.roots ++ s.rootOperations }
  | .schemaExtension s =>
    { d with schemaDirectives := d.schemaDirectives ++ s.directives, roots := d.roots ++ s.rootOperations }
  | .type t => { d with types := d.types ++ [t.distinct] }
  | .typeExtension t => { d with extensions := d.extensions ++ [t] }
  | .directive x => { d with directives := d.directives ++ [x.distinct] }

section
variable {d : Draft}

private theorem report_nil (d : Draft) : d.report [] = d := by
  rw [report, List.append_nil]

private theorem faults_report_eq_nil_iff {faults : List SchemaFault} :
    (d.report faults).faults = [] ↔ d.faults = [] ∧ faults = [] := List.append_eq_nil_iff

private theorem faults_of_foldl_addRoot {roots : List RootOperation} (h : (roots.foldl addRoot d).faults = []) :
    d.faults = [] := by
  induction roots generalizing d with
  | nil => exact h
  | cons root roots ih =>
    have hroot := ih h
    rw [addRoot] at hroot
    split at hroot
    · exact (faults_report_eq_nil_iff.1 hroot).1
    · exact hroot

/-- Root operations of different kinds are all added. -/
private theorem foldl_addRoot_eq {roots : List RootOperation} (h : ((d.roots ++ roots).map (·.kind)).Nodup) :
    roots.foldl addRoot d = { d with roots := d.roots ++ roots } := by
  induction roots generalizing d with
  | nil => simp
  | cons root roots ih =>
    have hnew : d.roots.any (·.kind = root.kind) = false := by
      rw [List.map_append, List.map_cons, List.nodup_append] at h
      simpa using fun other hother => h.2.2 _ (List.mem_map_of_mem hother) _ (List.mem_cons_self ..)
    rw [List.foldl_cons, addRoot, hnew, if_neg Bool.false_ne_true, ih (by simpa using h)]
    simp

private theorem nodup_of_faults_foldl_addRoot {roots : List RootOperation} (hd : (d.roots.map (·.kind)).Nodup)
    (h : (roots.foldl addRoot d).faults = []) : ((d.roots ++ roots).map (·.kind)).Nodup := by
  induction roots generalizing d with
  | nil => simpa using hd
  | cons root roots ih =>
    have hroot := faults_of_foldl_addRoot (d := d.addRoot root) h
    rw [List.foldl_cons, addRoot] at h
    rw [addRoot] at hroot
    split at hroot
    · simp [report] at hroot
    · rename_i hnew
      rw [if_neg hnew] at h
      have hkinds : ((d.roots ++ [root]).map (·.kind)).Nodup := by
        rw [List.map_append, List.nodup_append]
        refine ⟨hd, by simp, ?_⟩
        rintro kind hkind other hother rfl
        obtain ⟨r, hr, hrkind⟩ := List.mem_map.1 hkind
        rw [List.map_singleton, List.mem_singleton] at hother
        exact hnew (List.any_eq_true.2 ⟨r, hr, by simp [hrkind, hother]⟩)
      simpa using ih (d := { d with roots := d.roots ++ [root] }) hkinds h

private theorem of_faults_addSchemaParts {s : SchemaDefinition} (h : (d.addSchemaParts s).faults = []) :
    d.faults = [] ∧
      ((d.roots.map (·.kind)).Nodup → ((d.roots ++ s.rootOperations).map (·.kind)).Nodup) :=
  ⟨faults_of_foldl_addRoot (d := { d with schemaDirectives := d.schemaDirectives ++ s.directives }) h,
    fun hd => nodup_of_faults_foldl_addRoot
      (d := { d with schemaDirectives := d.schemaDirectives ++ s.directives }) hd h⟩

/-- A definition that fits a draft is added without a fault. -/
private theorem add_eq {x : TypeSystemDefinition} (h : d.Accepts x) : d.add false x = d.plus x := by
  cases x with
  | schema s =>
    rw [add, addSchema, plus, h.schema s rfl]
    exact foldl_addRoot_eq h.rootKinds
  | schemaExtension s => exact foldl_addRoot_eq h.rootKinds
  | type t =>
    obtain ⟨⟨hfaults, hreserved⟩, hname⟩ := h.type t rfl
    have hnone : find? d.types t.name.value = none := find?_eq_none_iff.2 (contains_eq_false_iff.2 hname)
    simp [add, addType, plus, hfaults, report_nil, hreserved, hnone]
  | typeExtension t => rfl
  | directive x =>
    obtain ⟨⟨hfaults, hreserved⟩, hname⟩ := h.directive x rfl
    have hnone : find? d.directives x.name.value = none := find?_eq_none_iff.2 (contains_eq_false_iff.2 hname)
    simp [add, addDirective, plus, hfaults, report_nil, hreserved, hnone]

/-- A definition that adds no fault fits, where the draft has one root of a kind. -/
theorem of_faults_add {x : TypeSystemDefinition} (h : (d.add false x).faults = []) :
    d.faults = [] ∧ ((d.roots.map (·.kind)).Nodup → d.Accepts x) := by
  have hnone {α : Type} {p : α → Prop} : ∀ a ∈ (none : Option α), p a := fun a h => absurd h (Option.not_mem_none a)
  have hroots (hd : (d.roots.map (·.kind)).Nodup) :
      ((d.roots ++ ([] : List RootOperation)).map (·.kind)).Nodup := by rwa [List.append_nil]
  cases x with
  | schema s =>
    rw [add, addSchema] at h
    split at h
    · exact absurd (of_faults_addSchemaParts h).1 (by simp [report])
    · rename_i hspan
      obtain ⟨hfaults, hkinds⟩ := of_faults_addSchemaParts h
      exact ⟨hfaults, fun hd => ⟨hnone, hnone, fun _ _ => hspan, hkinds hd⟩⟩
  | schemaExtension s =>
    obtain ⟨hfaults, hkinds⟩ := of_faults_addSchemaParts h
    exact ⟨hfaults, fun hd => ⟨hnone, hnone, hnone, hkinds hd⟩⟩
  | type t =>
    simp only [add, addType, Bool.not_false, Bool.true_and] at h
    split at h
    · simp [report] at h
    · rename_i hreserved
      split at h
      · split at h <;> simp [report] at h
      · rename_i hfresh
        obtain ⟨hfaults, hown⟩ := faults_report_eq_nil_iff.1 h
        have hname := contains_eq_false_iff.1 (find?_eq_none_iff.1 hfresh)
        refine ⟨hfaults, fun hd => ⟨?_, hnone, hnone, hroots hd⟩⟩
        rintro _ ⟨⟩
        exact ⟨⟨hown, Bool.eq_false_iff.2 hreserved⟩, hname⟩
  | typeExtension t => exact ⟨h, fun hd => ⟨hnone, hnone, hnone, hroots hd⟩⟩
  | directive x =>
    simp only [add, addDirective, Bool.not_false, Bool.true_and] at h
    split at h
    · simp [report] at h
    · rename_i hreserved
      split at h
      · split at h <;> simp [report] at h
      · rename_i hfresh
        obtain ⟨hfaults, hown⟩ := faults_report_eq_nil_iff.1 h
        have hname := contains_eq_false_iff.1 (find?_eq_none_iff.1 hfresh)
        refine ⟨hfaults, fun hd => ⟨hnone, ?_, hnone, hroots hd⟩⟩
        rintro _ ⟨⟩
        exact ⟨⟨hown, Bool.eq_false_iff.2 hreserved⟩, hname⟩

/-! ### All definitions -/

variable {definitions : List TypeSystemDefinition}

theorem faults_gathered : (gathered definitions).faults = [] := rfl

/-- The names of types: first those of the prelude, then those of the definitions. -/
theorem names_gathered_types :
    names (gathered definitions).types = names (start.types ++ definitions.filterMap (·.type?)) := by
  simp only [gathered, names, List.map_append, List.map_map]
  rfl

theorem names_gathered_directives :
    names (gathered definitions).directives = names (start.directives ++ definitions.filterMap (·.directive?)) := by
  simp only [gathered, names, List.map_append, List.map_map]
  rfl

private theorem filterMap_concat {α β : Type} (g : α → Option β) (xs : List α) (x : α) :
    (xs ++ [x]).filterMap g = xs.filterMap g ++ (g x).toList := by
  rw [List.filterMap_append]
  cases hx : g x <;> simp [hx]

private theorem nodup_names_append_toList {α : Type} [Named α] {xs : List α} {o : Option α} :
    (names (xs ++ o.toList)).Nodup ↔ (names xs).Nodup ∧ ∀ x ∈ o, nameOf x ∉ names xs := by
  cases o with
  | none => simp
  | some x =>
    rw [names, List.map_append, List.nodup_append, names]
    refine ⟨fun h => ⟨h.1, ?_⟩, fun h => ⟨h.1, by simp, ?_⟩⟩
    · rintro _ ⟨⟩ hx
      exact h.2.2 _ hx _ (List.mem_singleton_self _) rfl
    · rintro name hname other hother rfl
      exact h.2 x rfl (List.mem_singleton.1 hother ▸ hname)

private theorem schemaSpan_gathered_eq_none_iff :
    (gathered definitions).schemaSpan = none ↔ (definitions.filterMap (·.schema?)).length = 0 := by
  simp [gathered]

/-- One more definition adds what it says. -/
private theorem gathered_concat (x : TypeSystemDefinition) :
    gathered (definitions ++ [x]) = (gathered definitions).plus x := by
  cases x <;>
    simp [gathered, plus, TypeSystemDefinition.type?, TypeSystemDefinition.directive?, TypeSystemDefinition.schema?,
      TypeSystemDefinition.extension?, TypeSystemDefinition.schemaDirectives, TypeSystemDefinition.roots]

/-- One more definition fits in with others exactly when it fits what these say. -/
theorem fit_concat_iff {x : TypeSystemDefinition} :
    Fit (definitions ++ [x]) ↔ Fit definitions ∧ (gathered definitions).Accepts x := by
  constructor
  · rintro ⟨htypes, htypeNames, hdirectives, hdirectiveNames, hschemas, hkinds⟩
    rw [filterMap_concat, List.forall_mem_append] at htypes hdirectives
    rw [filterMap_concat, ← List.append_assoc, nodup_names_append_toList] at htypeNames hdirectiveNames
    rw [filterMap_concat, List.length_append] at hschemas
    rw [List.flatMap_append, List.flatMap_singleton] at hkinds
    refine ⟨⟨htypes.1, htypeNames.1, hdirectives.1, hdirectiveNames.1, by omega, ?_⟩, ?_, ?_, ?_, hkinds⟩
    · exact (List.nodup_append.1 (List.map_append ▸ hkinds)).1
    · rw [names_gathered_types]
      exact fun t ht => ⟨htypes.2 t (Option.mem_toList.2 ht), htypeNames.2 t ht⟩
    · rw [names_gathered_directives]
      exact fun t ht => ⟨hdirectives.2 t (Option.mem_toList.2 ht), hdirectiveNames.2 t ht⟩
    · intro s hs
      rw [hs, Option.toList_some, List.length_singleton] at hschemas
      exact schemaSpan_gathered_eq_none_iff.2 (by omega)
  · rintro ⟨⟨htypes, htypeNames, hdirectives, hdirectiveNames, hschemas, -⟩, htype, hdirective, hschema, hkinds⟩
    rw [names_gathered_types] at htype
    rw [names_gathered_directives] at hdirective
    refine ⟨?_, ?_, ?_, ?_, ?_, ?_⟩
    · rw [filterMap_concat, List.forall_mem_append]
      exact ⟨htypes, fun t ht => (htype t (Option.mem_toList.1 ht)).1⟩
    · rw [filterMap_concat, ← List.append_assoc, nodup_names_append_toList]
      exact ⟨htypeNames, fun t ht => (htype t ht).2⟩
    · rw [filterMap_concat, List.forall_mem_append]
      exact ⟨hdirectives, fun t ht => (hdirective t (Option.mem_toList.1 ht)).1⟩
    · rw [filterMap_concat, ← List.append_assoc, nodup_names_append_toList]
      exact ⟨hdirectiveNames, fun t ht => (hdirective t ht).2⟩
    · rw [filterMap_concat, List.length_append]
      cases hs : x.schema? with
      | none => exact hschemas
      | some s =>
        rw [schemaSpan_gathered_eq_none_iff.1 (hschema s hs)]
        exact Nat.le_refl 1
    · rw [List.flatMap_append, List.flatMap_singleton]
      exact hkinds

private theorem gathered_nil : gathered [] = start := by
  rw [start_eq]
  simp [gathered]

private theorem fit_nil : Fit [] where
  types := nofun
  typeNames := by simpa using start_names_nodup
  directives := nofun
  directiveNames := by simpa using start_directiveNames_nodup
  schemas := Nat.zero_le _
  rootKinds := .nil

/-- Nothing is wrong with definitions exactly when they fit together, and then they are put together. -/
theorem ofDefinitions_iff (definitions : List TypeSystemDefinition) :
    ((ofDefinitions definitions).faults = [] ↔ Fit definitions) ∧
      (Fit definitions → ofDefinitions definitions = gathered definitions) := by
  induction definitions using List.reverseRecOn with
  | nil =>
    rw [ofDefinitions, List.foldl_nil, ← gathered_nil]
    exact ⟨⟨fun _ => fit_nil, fun _ => faults_gathered⟩, fun _ => rfl⟩
  | append_singleton definitions x ih =>
    obtain ⟨hfaults, heq⟩ := ih
    have hadd : ofDefinitions (definitions ++ [x]) = (ofDefinitions definitions).add false x :=
      List.foldl_append ..
    rw [hadd, fit_concat_iff]
    have haccepted (hfit : Fit definitions) (haccepts : (gathered definitions).Accepts x) :
        (ofDefinitions definitions).add false x = gathered (definitions ++ [x]) := by
      rw [heq hfit, add_eq haccepts, gathered_concat]
    refine ⟨⟨fun h => ?_, fun ⟨hfit, haccepts⟩ => ?_⟩, fun ⟨hfit, haccepts⟩ => haccepted hfit haccepts⟩
    · obtain ⟨hdefinitions, haccepts⟩ := of_faults_add h
      have hfit := hfaults.1 hdefinitions
      rw [heq hfit] at haccepts
      exact ⟨hfit, haccepts hfit.rootKinds⟩
    · rw [haccepted hfit haccepts, faults_gathered]

end

end Draft

/-- The extensions add to the type one after the other, and none of them is at fault. -/
def TypeDefinition.Takes (t : TypeDefinition) : List TypeDefinition → Prop
  | [] => True
  | e :: extensions => (t.kind = e.kind ∧ t.extendFaults e = []) ∧ (t.extend e).Takes extensions

namespace Draft

variable {d : Draft}

private theorem extendNamed_of_eq {e t : TypeDefinition} (h : e.name.value = t.name.value) :
    extendNamed e t = t.extend e :=
  if_pos h.symm

private theorem extendNamed_of_ne {e t : TypeDefinition} (h : e.name.value ≠ t.name.value) : extendNamed e t = t :=
  if_neg h.symm

/-- An extension without fault extends the type of its name, and that alone. -/
private theorem extendType_eq {e t : TypeDefinition} (ht : find? d.types e.name.value = some t)
    (hkind : t.kind = e.kind)
    (hfaults : t.extendFaults e = []) : d.extendType e = { d with types := d.types.map (extendNamed e) } := by
  simp only [extendType, ht, if_pos hkind, hfaults, report_nil]
  rfl

/-- No extension is at fault exactly when each one finds a type, and each type takes those of its name. -/
theorem faults_foldl_extendType_iff {extensions : List TypeDefinition} (hnames : (names d.types).Nodup) :
    (extensions.foldl extendType d).faults = [] ↔ d.faults = [] ∧ (∀ e ∈ extensions, nameOf e ∈ names d.types) ∧
      ∀ t ∈ d.types, t.Takes (extensions.filter (·.name.value = t.name.value)) := by
  induction extensions generalizing d with
  | nil => simp [TypeDefinition.Takes]
  | cons e extensions ih =>
    rw [List.foldl_cons, ih (names_extendType d e ▸ hnames), names_extendType, List.forall_mem_cons]
    constructor
    · rintro ⟨hstep, hfound, htakes⟩
      obtain ⟨hd, htypes, t, ht, hkind, hfaults⟩ := extendType_of_faults hstep
      have hname : nameOf t = nameOf e := nameOf_of_find? ht
      refine ⟨hd, ⟨hname ▸ List.mem_map_of_mem (List.mem_of_find?_eq_some ht), hfound⟩, fun u hu => ?_⟩
      have hrest := htakes _ (htypes ▸ List.mem_map_of_mem hu)
      rw [name_extendNamed] at hrest
      by_cases hu' : e.name.value = u.name.value
      · obtain rfl := eq_of_nameOf_eq hnames hu (List.mem_of_find?_eq_some ht) (hu'.symm.trans hname.symm)
        rw [extendNamed_of_eq hu'] at hrest
        rw [List.filter_cons_of_pos (by simpa using hu')]
        exact ⟨⟨hkind, hfaults⟩, hrest⟩
      · rw [extendNamed_of_ne hu'] at hrest
        rwa [List.filter_cons_of_neg (by simpa using hu')]
    · rintro ⟨hd, ⟨hname, hfound⟩, htakes⟩
      obtain ⟨t, ht⟩ := exists_find?_of_contains (mem_names.1 hname)
      have hown : e.name.value = t.name.value := (nameOf_of_find? ht).symm
      have htake := htakes t (List.mem_of_find?_eq_some ht)
      rw [List.filter_cons_of_pos (by simpa using hown)] at htake
      obtain ⟨⟨hkind, hfaults⟩, -⟩ := htake
      rw [extendType_eq ht hkind hfaults]
      refine ⟨hd, hfound, List.forall_mem_map.2 fun u hu => ?_⟩
      have hrest := htakes u hu
      rw [name_extendNamed]
      by_cases hu' : e.name.value = u.name.value
      · rw [List.filter_cons_of_pos (by simpa using hu')] at hrest
        rw [extendNamed_of_eq hu']
        exact hrest.2
      · rw [List.filter_cons_of_neg (by simpa using hu')] at hrest
        rwa [extendNamed_of_ne hu']

/-- Applying the extensions finds no fault if and only if each has a type of its name, and every type takes all of its
own. -/
theorem faults_extended_iff (hnames : (names d.types).Nodup) :
    d.extended.faults = [] ↔ d.faults = [] ∧ (∀ e ∈ d.extensions, nameOf e ∈ names d.types) ∧
      ∀ t ∈ d.types, t.Takes (d.extensions.filter (·.name.value = t.name.value)) :=
  faults_foldl_extendType_iff (d := { d with extensions := [] }) hnames

end Draft

end GraphQL
