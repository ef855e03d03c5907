import GraphQL.Proofs.NamedOrder
import GraphQL.Proofs.PreludeContents
import GraphQL.Proofs.SchemaLookup

/-!
# What a draft holds

A draft of some documents holds the types and directives of the prelude, and after these others that do not belong
to it, no two types having one name (`Draft.contents_ofDocuments`). Where no extension is at fault, each type is
extended by just the extensions of its name, in their order, and no member is dropped
(`Draft.extended_types`).
-/

namespace GraphQL

open Named

private theorem Named.find?_append_of_eq_some {α : Type} [Named α] {xs : List α} {name : String} {x : α} (ys : List α)
    (h : find? xs name = some x) : find? (xs ++ ys) name = some x := by
  rw [find?] at h ⊢
  rw [List.find?_append, h, Option.some_or]

namespace Draft

/-- The second draft holds the same types, directives and extensions as the first. -/
structure Agrees (d e : Draft) : Prop where
  types : e.types = d.types
  directives : e.directives = d.directives
  extensions : e.extensions = d.extensions

private theorem Agrees.trans {d e f : Draft} (h : d.Agrees e) (h' : e.Agrees f) : d.Agrees f :=
  ⟨h'.types.trans h.types, h'.directives.trans h.directives, h'.extensions.trans h.extensions⟩

/-- A reported fault leaves the types, the directives and the extensions as they are. -/
private theorem agrees_report (d : Draft) (faults : List SchemaFault) : d.Agrees (d.report faults) := ⟨rfl, rfl, rfl⟩

private theorem agrees_addRoot (d : Draft) (root : RootOperation) : d.Agrees (d.addRoot root) := by
  unfold addRoot
  split
  · exact agrees_report ..
  · exact ⟨rfl, rfl, rfl⟩

private theorem agrees_addSchemaParts (d : Draft) (s : SchemaDefinition) : d.Agrees (d.addSchemaParts s) := by
  have hroots (roots : List RootOperation) (e : Draft) (h : d.Agrees e) : d.Agrees (roots.foldl addRoot e) := by
    induction roots generalizing e with
    | nil => exact h
    | cons root roots ih => exact ih _ (h.trans (agrees_addRoot e root))
  exact hroots _ _ ⟨rfl, rfl, rfl⟩

private theorem agrees_addSchema (d : Draft) (s : SchemaDefinition) : d.Agrees (d.addSchema s) := by
  unfold addSchema
  split
  · exact (agrees_report ..).trans (agrees_addSchemaParts ..)
  · have hspan : d.Agrees { d with schemaSpan := some s.span } := ⟨rfl, rfl, rfl⟩
    exact hspan.trans (agrees_addSchemaParts _ s)

/-- A type of a document is left out, or it is added under a new name that is not reserved. -/
theorem addType_cases (d : Draft) (t : TypeDefinition) : d.Agrees (d.addType false t) ∨
    (isReserved t.name.value = false ∧ find? d.types t.name.value = none ∧
      Agrees { d with types := d.types ++ [t.distinct] } (d.addType false t)) := by
  simp only [addType, Bool.not_false, Bool.true_and]
  split
  · exact .inl ((agrees_report ..).trans (agrees_report ..))
  · rename_i hreserved
    split
    · split
      · exact .inl ((agrees_report ..).trans (agrees_report ..))
      · exact .inl ((agrees_report ..).trans (agrees_report ..))
    · rename_i hnone
      exact .inr ⟨Bool.not_eq_true _ ▸ hreserved, hnone, rfl, rfl, rfl⟩

/-- A directive is either turned away or added at the end. -/
private theorem addDirective_cases (d : Draft) (directive : DirectiveDefinition) :
    d.Agrees (d.addDirective false directive) ∨
      (find? d.directives directive.name.value = none ∧
        Agrees { d with directives := d.directives ++ [directive.distinct] } (d.addDirective false directive)) := by
  simp only [addDirective, Bool.not_false, Bool.true_and]
  split
  · exact .inl (agrees_report ..)
  · split
    · split
      · exact .inl (agrees_report ..)
      · exact .inl (agrees_report ..)
    · rename_i hnone
      exact .inr ⟨hnone, agrees_report ..⟩

/-- What a draft holds besides the prelude. -/
structure Contents (d : Draft) : Prop where
  types : ∃ us, d.types = start.types ++ us ∧ ∀ t ∈ us, t.isBuiltin = false
  directives : ∃ ds, d.directives = start.directives ++ ds ∧ ∀ x ∈ ds, x.isBuiltin = false
  nodup : (names d.types).Nodup

private theorem Contents.of_agrees {d e : Draft} (hd : d.Contents) (h : d.Agrees e) : e.Contents := by
  obtain ⟨types, directives, nodup⟩ := hd
  rw [← h.types] at types nodup
  rw [← h.directives] at directives
  exact ⟨types, directives, nodup⟩

/-- Adding a type keeps what holds of the contents. -/
private theorem Contents.addType {d : Draft} (h : d.Contents) (t : TypeDefinition) : (d.addType false t).Contents := by
  rcases addType_cases d t with hagrees | ⟨hreserved, hnone, hagrees⟩
  · exact h.of_agrees hagrees
  · refine Contents.of_agrees ?_ hagrees
    obtain ⟨us, hus, hbuiltin⟩ := h.types
    refine ⟨⟨us ++ [t.distinct], by rw [hus, List.append_assoc], ?_⟩, h.directives, ?_⟩
    · intro u hu
      rcases List.mem_append.1 hu with hu | hu
      · exact hbuiltin u hu
      · -- a scalar of the prelude would have been found
        obtain rfl := List.mem_singleton.1 hu
        have hscalar : t.name.value ∉ builtinScalars := by
          intro hscalar
          obtain ⟨v, hv, -⟩ := exists_scalar hscalar
          cases hnone.symm.trans (hus ▸ find?_append_of_eq_some us hv)
        simp [TypeDefinition.isBuiltin, TypeDefinition.distinct, hreserved, hscalar]
    · have hnew : t.name.value ∉ names d.types := by
        simpa [names, contains] using find?_eq_none_iff.1 hnone
      rw [names, List.map_append]
      refine List.nodup_append.2 ⟨h.nodup, by simp, ?_⟩
      rintro name hname other hother rfl
      obtain rfl := List.mem_singleton.1 hother
      exact hnew hname

private theorem Contents.addDirective {d : Draft} (h : d.Contents) (directive : DirectiveDefinition) :
    (d.addDirective false directive).Contents := by
  rcases addDirective_cases d directive with hagrees | ⟨hnone, hagrees⟩
  · exact h.of_agrees hagrees
  · refine Contents.of_agrees ?_ hagrees
    obtain ⟨ds, hds, hbuiltin⟩ := h.directives
    refine ⟨h.types, ⟨ds ++ [directive.distinct], by simp only [hds, List.append_assoc], ?_⟩, h.nodup⟩
    intro x hx
    rcases List.mem_append.1 hx with hx | hx
    · exact hbuiltin x hx
    · -- a directive of the prelude would have been found
      obtain rfl := List.mem_singleton.1 hx
      refine Bool.eq_false_iff.2 fun hx => ?_
      obtain ⟨v, hv⟩ := exists_find?_of_contains (contains_start_directives (d := directive) hx)
      cases hnone.symm.trans (hds ▸ find?_append_of_eq_some ds hv)

private theorem Contents.add {d : Draft} (h : d.Contents) (definition : TypeSystemDefinition) :
    (d.add false definition).Contents := by
  cases definition with
  | schema s => exact h.of_agrees (agrees_addSchema d s)
  | schemaExtension s => exact h.of_agrees (agrees_addSchemaParts d s)
  | type t => exact h.addType t
  | typeExtension t => exact ⟨h.types, h.directives, h.nodup⟩
  | directive directive => exact h.addDirective directive

private theorem contents_start : start.Contents :=
  ⟨⟨[], by simp⟩, ⟨[], by simp⟩, start_names_nodup⟩

/-- A property of drafts that every definition keeps holds of the draft of any documents. -/
theorem ofDocuments_induction {P : Draft → Prop} (hstart : P start)
    (hadd : ∀ d definition, P d → P (d.add false definition)) (documents : List SchemaDocument) :
    P (ofDocuments documents) := by
  have hfold {α : Type} (f : Draft → α → Draft) (hf : ∀ d x, P d → P (f d x)) (xs : List α) (d : Draft)
      (hd : P d) : P (xs.foldl f d) := by
    induction xs generalizing d with
    | nil => exact hd
    | cons x xs ih => exact ih _ (hf d x hd)
  exact hfold addDocument (fun d document => hfold _ hadd document.definitions d) documents start hstart

/-- The draft of some documents holds the prelude and, behind it, only what is not built in. -/
theorem contents_ofDocuments (documents : List SchemaDocument) : (ofDocuments documents).Contents :=
  ofDocuments_induction contents_start (fun _ definition h => h.add definition) documents

/-- A type of the prelude is not added by a document. -/
theorem Contents.mem_start_of_isBuiltin {d : Draft} (h : d.Contents) {t : TypeDefinition} (ht : t ∈ d.types)
    (hbuiltin : t.isBuiltin = true) : t ∈ start.types := by
  obtain ⟨us, hus, hothers⟩ := h.types
  rcases List.mem_append.1 (hus ▸ ht) with ht | ht
  · exact ht
  · exact absurd hbuiltin (by simp [hothers t ht])

theorem Contents.directive_mem_start_of_isBuiltin {d : Draft} (h : d.Contents) {directive : DirectiveDefinition}
    (hd : directive ∈ d.directives) (hbuiltin : directive.isBuiltin = true) : directive ∈ start.directives := by
  obtain ⟨ds, hds, hothers⟩ := h.directives
  rcases List.mem_append.1 (hds ▸ hd) with hd | hd
  · exact hd
  · exact absurd hbuiltin (by simp [hothers directive hd])

end Draft

def TypeSystemDefinition.extension? : TypeSystemDefinition → Option TypeDefinition
  | .typeExtension t => some t
  | _ => none

/-- The extensions of types in a document. -/
def SchemaDocument.extensions (d : SchemaDocument) : List TypeDefinition :=
  d.definitions.flatMap (·.extension?.toList)

namespace Draft

/-- Extensions are kept in the order of the definitions, whatever is at fault with them. -/
private theorem extensions_add (d : Draft) (definition : TypeSystemDefinition) :
    (d.add false definition).extensions = d.extensions ++ definition.extension?.toList := by
  cases definition with
  | schema s => exact (agrees_addSchema d s).extensions.trans (List.append_nil _).symm
  | schemaExtension s => exact (agrees_addSchemaParts d s).extensions.trans (List.append_nil _).symm
  | type t =>
    rcases addType_cases d t with hagrees | ⟨-, -, hagrees⟩
    · exact hagrees.extensions.trans (List.append_nil _).symm
    · exact hagrees.extensions.trans (List.append_nil _).symm
  | typeExtension t => rfl
  | directive directive =>
    rcases addDirective_cases d directive with hagrees | ⟨-, hagrees⟩
    · exact hagrees.extensions.trans (List.append_nil _).symm
    · exact hagrees.extensions.trans (List.append_nil _).symm

private theorem extensions_foldl {α : Type} {f : Draft → α → Draft} {g : α → List TypeDefinition}
    (h : ∀ d x, (f d x).extensions = d.extensions ++ g x) (xs : List α) (d : Draft) :
    (xs.foldl f d).extensions = d.extensions ++ xs.flatMap g := by
  induction xs generalizing d with
  | nil => simp
  | cons x xs ih => rw [List.foldl_cons, ih, h, List.flatMap_cons, List.append_assoc]

/-- The draft of some documents has all extensions in them. -/
theorem extensions_ofDocuments (documents : List SchemaDocument) :
    (ofDocuments documents).extensions = documents.flatMap (·.extensions) := by
  have h := extensions_foldl (g := (·.extensions)) (f := addDocument)
    (fun d document => extensions_foldl extensions_add document.definitions d) documents start
  rwa [start_extensions, List.nil_append] at h

end Draft

private theorem Named.fresh_eq_of_repeats {α : Type} [Named α] {kept xs : List α} (h : repeats kept xs = []) :
    fresh kept xs = xs := by
  induction xs generalizing kept with
  | nil => rfl
  | cons x xs ih =>
    rw [repeats] at h
    split at h
    · cases h
    · rename_i hnone
      rw [fresh, if_neg (by simp [find?_eq_none_iff.1 hnone]), ih h]

/-- Where no member is reported, all of them are new. -/
theorem fresh_eq_of_memberFaults {α : Type} [Named α] {parent : String} {kept xs : List α}
    (h : memberFaults parent kept xs = []) : fresh kept xs = xs :=
  fresh_eq_of_repeats (List.map_eq_nil_iff.1 h)

theorem distinctFields_eq_of_fieldListFaults {parent : String} {fields : List FieldDefinition}
    (h : fieldListFaults parent [] fields = []) : distinctFields fields = fields := by
  have hfold (fields kept : List FieldDefinition) (h : fieldListFaults parent kept fields = []) :
      (fresh kept fields).map (·.distinct) = fields := by
    induction fields generalizing kept with
    | nil => rfl
    | cons f fields ih =>
      rw [fieldListFaults] at h
      obtain ⟨harguments, hrest⟩ := List.append_eq_nil_iff.1 h
      have hf : f.distinct = f := by
        rw [FieldDefinition.distinct, fresh_eq_of_memberFaults harguments]
      split at hrest
      · cases hrest
      · rename_i hnew
        have hnew : ¬contains kept (nameOf f) = true := hnew
        rw [fresh, if_neg hnew, List.map_cons, hf, ih _ hrest]
  exact hfold fields [] h

/-- Where a second body of the same kind is added without faults, the members of the one stand before those of the
other. -/
theorem TypeBody.members_merge {parent : String} {a b : TypeBody} (hkind : a.kind = b.kind)
    (h : mergeFaults parent a b = []) :
    (a.merge b).interfaces = a.interfaces ++ b.interfaces ∧ (a.merge b).fields = a.fields ++ b.fields ∧
      (a.merge b).members = a.members ++ b.members ∧ (a.merge b).enumValues = a.enumValues ++ b.enumValues ∧
      (a.merge b).inputFields = a.inputFields ++ b.inputFields := by
  cases a <;> cases b <;> cases hkind
  case scalar.scalar => exact ⟨rfl, rfl, rfl, rfl, rfl⟩
  case object.object | interface.interface =>
    obtain ⟨hinterfaces, hrest⟩ := List.append_eq_nil_iff.1 h
    obtain ⟨hown, hfields⟩ := List.append_eq_nil_iff.1 hrest
    have hdistinct := distinctFields_eq_of_fieldListFaults hown
    rw [hdistinct] at hfields
    simp only [merge, fresh_eq_of_memberFaults hinterfaces, hdistinct, fresh_eq_of_memberFaults hfields]
    exact ⟨rfl, rfl, rfl, rfl, rfl⟩
  case union.union =>
    simp only [merge, fresh_eq_of_memberFaults h]
    exact ⟨rfl, rfl, rfl, rfl, rfl⟩
  case enum.enum | inputObject.inputObject =>
    obtain ⟨hown, hmembers⟩ := List.append_eq_nil_iff.1 h
    rw [fresh_eq_of_memberFaults hown] at hmembers
    simp only [merge, fresh_eq_of_memberFaults hown, fresh_eq_of_memberFaults hmembers]
    exact ⟨rfl, rfl, rfl, rfl, rfl⟩

/-- A body is empty if it has none of the parts that its kind is to have; a scalar is never empty. -/
private theorem TypeBody.isEmpty_iff {b : TypeBody} :
    b.isEmpty ↔ b.kind ≠ .scalar ∧ b.fields = [] ∧ b.members = [] ∧ b.enumValues = [] ∧ b.inputFields = [] := by
  cases b <;> simp [isEmpty, kind, fields, fields?, members, enumValues, inputFields]

/-! ### Types with their extensions -/

/-- The second type is the first with the members that some extensions of its kind add, one after the other. -/
structure TypeDefinition.ExtendedBy (t : TypeDefinition) (extensions : List TypeDefinition)
    (u : TypeDefinition) : Prop where
  name : u.name = t.name
  kind : u.kind = t.kind
  kinds : ∀ e ∈ extensions, e.kind = t.kind
  directives : u.directives = t.directives ++ extensions.flatMap (·.directives)
  interfaces : u.interfaces = t.interfaces ++ extensions.flatMap (·.interfaces)
  fields : u.fields = t.fields ++ extensions.flatMap (·.fields)
  members : u.body.members = t.body.members ++ extensions.flatMap (·.body.members)
  enumValues : u.body.enumValues = t.body.enumValues ++ extensions.flatMap (·.body.enumValues)
  inputFields : u.body.inputFields = t.body.inputFields ++ extensions.flatMap (·.body.inputFields)

namespace TypeDefinition

variable {t u v e : TypeDefinition} {xs ys : List TypeDefinition}

/-- No extensions leave a type as it is. -/
private theorem ExtendedBy.refl (t : TypeDefinition) : t.ExtendedBy [] t := by
  constructor <;> simp

/-- Extensions add up. -/
private theorem ExtendedBy.trans (h : t.ExtendedBy xs u) (h' : u.ExtendedBy ys v) : t.ExtendedBy (xs ++ ys) v where
  name := h'.name.trans h.name
  kind := h'.kind.trans h.kind
  kinds := fun e he => (List.mem_append.1 he).elim (h.kinds e) fun he => (h'.kinds e he).trans h.kind
  directives := by rw [h'.directives, h.directives, List.flatMap_append, List.append_assoc]
  interfaces := by rw [h'.interfaces, h.interfaces, List.flatMap_append, List.append_assoc]
  fields := by rw [h'.fields, h.fields, List.flatMap_append, List.append_assoc]
  members := by rw [h'.members, h.members, List.flatMap_append, List.append_assoc]
  enumValues := by rw [h'.enumValues, h.enumValues, List.flatMap_append, List.append_assoc]
  inputFields := by rw [h'.inputFields, h.inputFields, List.flatMap_append, List.append_assoc]

/-- Extensions take no part of a type away. -/
theorem ExtendedBy.isEmpty_eq_false (h : t.ExtendedBy xs u) (ht : t.body.isEmpty = false) :
    u.body.isEmpty = false := by
  refine Bool.eq_false_iff.2 fun hu => Bool.eq_false_iff.1 ht ?_
  have hkind : u.body.kind = t.body.kind := h.kind
  have hfields : u.body.fields = t.body.fields ++ _ := h.fields
  rw [TypeBody.isEmpty_iff, hkind, hfields, h.members, h.enumValues, h.inputFields] at hu
  simp only [List.append_eq_nil_iff] at hu
  obtain ⟨hscalar, ⟨hfields, -⟩, ⟨hmembers, -⟩, ⟨hvalues, -⟩, ⟨hinputFields, -⟩⟩ := hu
  exact TypeBody.isEmpty_iff.2 ⟨hscalar, hfields, hmembers, hvalues, hinputFields⟩

/-- An extension without faults adds all it has. -/
theorem extendedBy_extend (hkind : t.kind = e.kind) (h : t.extendFaults e = []) :
    t.ExtendedBy [e] (t.extend e) := by
  obtain ⟨hinterfaces, hfields, hmembers, hvalues, hinputFields⟩ := TypeBody.members_merge hkind h
  constructor
  case kind => exact TypeBody.kind_merge ..
  case kinds => simp [hkind]
  case name => rfl
  all_goals simp only [List.flatMap_singleton]
  case directives => rfl
  case interfaces => exact hinterfaces
  case fields => exact hfields
  case members => exact hmembers
  case enumValues => exact hvalues
  case inputFields => exact hinputFields

/-- A type with those of some extensions that have its name. -/
def extendAll (t : TypeDefinition) (extensions : List TypeDefinition) : TypeDefinition :=
  (extensions.filter (·.name.value = t.name.value)).foldl extend t

end TypeDefinition

namespace Draft

/-- What an extension makes of a type: one of its name is extended, any other stays. -/
def extendNamed (e u : TypeDefinition) : TypeDefinition :=
  if u.name.value = e.name.value then u.extend e else u

theorem name_extendNamed (e u : TypeDefinition) : (extendNamed e u).name = u.name := by
  unfold extendNamed
  split <;> rfl

private theorem extendAll_cons (e : TypeDefinition) (extensions : List TypeDefinition) (t : TypeDefinition) :
    t.extendAll (e :: extensions) = (extendNamed e t).extendAll extensions := by
  simp only [TypeDefinition.extendAll, name_extendNamed, List.filter_cons]
  by_cases hname : t.name.value = e.name.value
  · simp [extendNamed, hname]
  · simp [extendNamed, hname, Ne.symm hname]

/-- Extending a type neither adds nor renames one. -/
theorem names_extendType (d : Draft) (e : TypeDefinition) : names (d.extendType e).types = names d.types := by
  simp only [extendType]
  split
  · rfl
  · split
    · change ((d.types.map (extendNamed e)).map nameOf) = _
      rw [List.map_map]
      exact List.map_congr_left fun u _ => congrArg Name.value (name_extendNamed e u)
    · rfl

/-- An extension without faults extends the type of its name, which is of its kind. -/
theorem extendType_of_faults {d : Draft} {e : TypeDefinition} (h : (d.extendType e).faults = []) :
    d.faults = [] ∧ (d.extendType e).types = d.types.map (extendNamed e) ∧
      ∃ t, find? d.types e.name.value = some t ∧ t.kind = e.kind ∧ t.extendFaults e = [] := by
  simp only [extendType] at h ⊢
  split at h
  · simp [report] at h
  · rename_i t ht
    split at h
    · rename_i hkind
      obtain ⟨hd, hfaults⟩ := List.append_eq_nil_iff.1 h
      exact ⟨hd, by rw [if_pos hkind]; rfl, t, ht, hkind, hfaults⟩
    · simp [report] at h

/-- Without a fault, an extension adds to the type of its name and leaves the others alone. -/
private theorem extendedBy_extendNamed {d : Draft} {e : TypeDefinition} (hnames : (names d.types).Nodup)
    (h : (d.extendType e).faults = []) {t : TypeDefinition} (ht : t ∈ d.types) :
    t.ExtendedBy ([e].filter (·.name.value = t.name.value)) (extendNamed e t) := by
  obtain ⟨-, -, u, hu, hkind, hfaults⟩ := extendType_of_faults h
  by_cases hname : t.name.value = e.name.value
  · -- the only type of the name is the one that was found
    obtain rfl := eq_of_nameOf_eq hnames ht (List.mem_of_find?_eq_some hu) (hname.trans (nameOf_of_find? hu).symm)
    simpa [extendNamed, hname] using TypeDefinition.extendedBy_extend hkind hfaults
  · simpa [extendNamed, hname, Ne.symm hname] using TypeDefinition.ExtendedBy.refl t

/-- Where no extension is at fault, each type is extended by just those of its name. -/
theorem foldl_extendType {extensions : List TypeDefinition} {d : Draft} (hnames : (names d.types).Nodup)
    (h : (extensions.foldl extendType d).faults = []) :
    d.faults = [] ∧ (extensions.foldl extendType d).types = d.types.map (·.extendAll extensions) ∧
      ∀ t ∈ d.types, t.ExtendedBy (extensions.filter (·.name.value = t.name.value)) (t.extendAll extensions) := by
  induction extensions generalizing d with
  | nil => exact ⟨h, (List.map_id _).symm, fun t _ => .refl t⟩
  | cons e extensions ih =>
    obtain ⟨hstep, hrest, hextended⟩ := ih (names_extendType d e ▸ hnames) h
    obtain ⟨hd, htypes, -⟩ := extendType_of_faults hstep
    refine ⟨hd, ?_, fun t ht => ?_⟩
    · rw [List.foldl_cons, hrest, htypes, List.map_map]
      exact List.map_congr_left fun t _ => (extendAll_cons e extensions t).symm
    · have hmem : extendNamed e t ∈ (d.extendType e).types := htypes ▸ List.mem_map_of_mem ht
      have hmore := (extendedBy_extendNamed hnames hstep ht).trans (hextended _ hmem)
      rw [name_extendNamed, ← List.filter_append, ← extendAll_cons] at hmore
      exact hmore

private theorem directives_extendType (d : Draft) (e : TypeDefinition) :
    (d.extendType e).directives = d.directives := by
  simp only [extendType]
  split
  · rfl
  · split <;> rfl

/-- What no extension changes stays as it is. -/
private theorem extended_unchanged {β : Type} (g : Draft → β) (h : ∀ d e, g (extendType d e) = g d)
    (hextensions : ∀ d : Draft, g { d with extensions := [] } = g d) (d : Draft) : g d.extended = g d := by
  have hfold (extensions : List TypeDefinition) (e : Draft) : g (extensions.foldl extendType e) = g e := by
    induction extensions generalizing e with
    | nil => rfl
    | cons x extensions ih => rw [List.foldl_cons, ih, h]
  exact (hfold d.extensions _).trans (hextensions d)

theorem directives_extended (d : Draft) : d.extended.directives = d.directives :=
  extended_unchanged (·.directives) directives_extendType (fun _ => rfl) d

theorem names_extended (d : Draft) : names d.extended.types = names d.types :=
  extended_unchanged (fun d => names d.types) names_extendType (fun _ => rfl) d

/-- The types of a draft whose extensions are not at fault: each with the members that those of its name add. -/
theorem extended_types {d : Draft} (hnames : (names d.types).Nodup) (h : d.extended.faults = []) :
    d.extended.types = d.types.map (·.extendAll d.extensions) ∧
      ∀ t ∈ d.types, t.ExtendedBy (d.extensions.filter (·.name.value = t.name.value))
        (t.extendAll d.extensions) :=
  (foldl_extendType (d := { d with extensions := [] }) hnames h).2

end Draft

end GraphQL
