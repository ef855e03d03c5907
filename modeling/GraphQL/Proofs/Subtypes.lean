import GraphQL.Proofs.SchemaReferences

/-!
# Subtypes in a built schema

The comparison of two types looks one step deep: at the members of a union, or at the interfaces that a type says it
implements. In a built schema one step is enough. Types name the interfaces of their interfaces and never
themselves, and members of unions are object types, so that steps compose (`Schema.isPossibleType_trans`) and never
lead back (`Schema.isPossibleType_self`). Hence subtypes are ordered, and all values of a subtype are values of the
type (`Schema.subtypes_ordered`).
-/

namespace GraphQL

open Named

section
variable {types : List TypeDefinition} {t : TypeDefinition}

private theorem isPossibleType_iff {abstract candidate : String} : isPossibleType types abstract candidate ↔
    ∃ t, find? types abstract = some t ∧ (contains t.body.members candidate ∨
      t.kind = .interface ∧ ∃ c, find? types candidate = some c ∧ c.implements abstract) := by
  unfold isPossibleType
  cases find? types abstract with
  | none => simp
  | some t =>
    simp only [Option.some.injEq, exists_eq_left', TypeDefinition.kind]
    cases t.body with
    | interface interfaces fields =>
      cases find? types candidate <;> simp [TypeBody.members, contains, TypeBody.kind]
    | _ => simp [TypeBody.members, contains, TypeBody.kind]

/-- Only unions have members. -/
theorem TypeDefinition.kind_of_contains_members {name : String} (h : contains t.body.members name) :
    t.kind = .union := by
  unfold TypeDefinition.kind
  cases hbody : t.body <;> simp_all [TypeBody.members, contains, TypeBody.kind]

/-- Only unions and interfaces have possible types. -/
theorem isAbstract_of_isPossibleType {abstract candidate : String} (h : isPossibleType types abstract candidate) :
    ∃ t, find? types abstract = some t ∧ t.kind.isAbstract := by
  obtain ⟨t, ht, hmember | ⟨hinterface, -⟩⟩ := isPossibleType_iff.1 h
  · exact ⟨t, ht, TypeDefinition.kind_of_contains_members hmember ▸ rfl⟩
  · exact ⟨t, ht, hinterface ▸ rfl⟩

/-- Unions implement nothing. -/
theorem TypeDefinition.implements_of_union {name : String} (h : t.kind = .union) : t.implements name = false := by
  unfold TypeDefinition.kind at h
  cases hbody : t.body <;>
    simp_all [TypeBody.kind, TypeDefinition.implements, TypeDefinition.interfaces, TypeBody.interfaces, contains]

private theorem TypeRef.equivalent_refl (a : TypeRef) : a.equivalent a := by
  induction a with
  | named name nullable span => simp [equivalent]
  | list element nullable span ih => simp [equivalent, ih]

private theorem TypeRef.equivalent_symm {a b : TypeRef} (h : a.equivalent b) : b.equivalent a := by
  fun_induction equivalent a b with
  | case1 a n _ b m _ =>
    simp only [Bool.and_eq_true, decide_eq_true_eq] at h
    simp [equivalent, h.1, h.2]
  | case2 a n _ b m _ ih =>
    simp only [Bool.and_eq_true, decide_eq_true_eq] at h
    simp [equivalent, h.1, ih h.2]
  | case3 => cases h

theorem isSubtype_named_iff {a b : Name} {n m : Bool} {span span' : Span} :
    isSubtype types (.named a n span) (.named b m span') ↔
      (n → m) ∧ (a.value = b.value ∨ isPossibleType types b.value a.value) := by
  cases n <;> cases m <;> simp [isSubtype]

theorem isSubtype_list_iff {a b : TypeRef} {n m : Bool} {span span' : Span} :
    isSubtype types (.list a n span) (.list b m span') ↔ (n → m) ∧ isSubtype types a b := by
  cases n <;> cases m <;> simp [isSubtype]

private theorem isSubtype_of_equivalent {a b : TypeRef} (h : a.equivalent b) : isSubtype types a b := by
  fun_induction TypeRef.equivalent a b with
  | case1 a n _ b m _ =>
    simp only [Bool.and_eq_true, decide_eq_true_eq] at h
    exact isSubtype_named_iff.2 ⟨h.1 ▸ id, .inl h.2⟩
  | case2 a n _ b m _ ih =>
    simp only [Bool.and_eq_true, decide_eq_true_eq] at h
    exact isSubtype_list_iff.2 ⟨h.1 ▸ id, ih h.2⟩
  | case3 => cases h

end

namespace Schema

variable {documents : List SchemaDocument} {s : Schema}

/-- A type names the interfaces of its interfaces. -/
theorem implements_trans (h : build documents = .ok s) {t u : TypeDefinition} {name other : String}
    (ht : t ∈ s.types) (hu : find? s.types name = some u) (htu : t.implements name) (hother : u.implements other) :
    t.implements other := by
  obtain ⟨i, -, hi, -, hnames, -⟩ := TypeDefinition.conformsTo_iff.1 (conforms h ht name (mem_names.2 htu))
  obtain rfl := Option.some.inj (hu.symm.trans hi)
  exact hnames other (mem_names.2 hother)

/-- No type implements itself. -/
theorem implements_self (h : build documents = .ok s) {t : TypeDefinition} (ht : t ∈ s.types) :
    t.implements t.name.value = false := by
  refine Bool.eq_false_iff.2 fun hself => ?_
  obtain ⟨i, hne, -⟩ := TypeDefinition.conformsTo_iff.1 (conforms h ht t.name.value (mem_names.2 hself))
  exact hne rfl

/-- A member of a union stands for nothing but itself. -/
theorem isPossibleType_of_member (h : build documents = .ok s) {t : TypeDefinition} (ht : t ∈ s.types)
    {member name : String} (hmember : contains t.body.members member) :
    isPossibleType s.types member name = false := by
  obtain ⟨m, hm, rfl⟩ := List.mem_map.1 (mem_names.2 hmember)
  obtain ⟨u, hu, hobject⟩ := hasKind_of_mem_members h ht hm
  refine Bool.eq_false_iff.2 fun hpossible => ?_
  obtain ⟨v, hv, hcase⟩ := isPossibleType_iff.1 hpossible
  obtain rfl := Option.some.inj (hu.symm.trans hv)
  rcases hcase with hcontains | ⟨hinterface, -⟩
  · exact nomatch hobject.symm.trans (TypeDefinition.kind_of_contains_members hcontains)
  · exact nomatch hobject.symm.trans hinterface

/-- What is possible for an interface is possible for the interfaces that it implements. -/
theorem isPossibleType_trans (h : build documents = .ok s) {a b c : String} (hab : isPossibleType s.types b a)
    (hbc : isPossibleType s.types c b) : isPossibleType s.types c a := by
  obtain ⟨t, ht, hmember | ⟨hinterface, u, hu, huc⟩⟩ := isPossibleType_iff.1 hbc
  · rw [isPossibleType_of_member h (List.mem_of_find?_eq_some ht) hmember] at hab
    cases hab
  · obtain ⟨u', hu', hmember | ⟨-, v, hv, hvb⟩⟩ := isPossibleType_iff.1 hab
    · obtain rfl := Option.some.inj (hu.symm.trans hu')
      rw [TypeDefinition.implements_of_union (TypeDefinition.kind_of_contains_members hmember)] at huc
      cases huc
    · exact isPossibleType_iff.2
        ⟨t, ht, .inr ⟨hinterface, v, hv, implements_trans h (List.mem_of_find?_eq_some hv) hu hvb huc⟩⟩

theorem isPossibleType_self (h : build documents = .ok s) (a : String) : isPossibleType s.types a a = false := by
  refine Bool.eq_false_iff.2 fun hself => ?_
  obtain ⟨t, ht, hmember | ⟨-, u, hu, himplements⟩⟩ := isPossibleType_iff.1 hself
  · rw [isPossibleType_of_member h (List.mem_of_find?_eq_some ht) hmember] at hself
    cases hself
  · obtain rfl : u.name.value = a := nameOf_of_find? hu
    rw [implements_self h (List.mem_of_find?_eq_some hu)] at himplements
    cases himplements

private theorem mem_possibleTypes_of_type? {name x : String} {t : TypeDefinition} (ht : s.type? name = some t) :
    x ∈ s.possibleTypes name ↔ t.kind = .object ∧ x = name ∨ contains t.body.members x ∨
      t.kind = .interface ∧ ∃ o ∈ s.types, o.kind = .object ∧ o.implements name ∧ o.name.value = x := by
  simp only [possibleTypes, ht]
  unfold TypeDefinition.kind
  cases t.body with
  | interface interfaces fields =>
    simp only [names, List.mem_map, List.mem_filter, Bool.and_eq_true, decide_eq_true_eq, and_assoc]
    simp [TypeBody.kind, TypeBody.members, contains, nameOf]
  | _ => simp [TypeBody.kind, TypeBody.members, contains, names]

/-- The types that a value of a type can have are the type and its possible types, as far as they are objects. -/
theorem mem_possibleTypes_iff (h : build documents = .ok s) {name x : String} : x ∈ s.possibleTypes name ↔
    HasKind s.types x (· = .object) ∧ (x = name ∨ isPossibleType s.types name x) := by
  constructor
  · intro hx
    cases ht : s.type? name with
    | none => simp [possibleTypes, ht] at hx
    | some t =>
      rcases (mem_possibleTypes_of_type? ht).1 hx with
        ⟨hobject, rfl⟩ | hmember | ⟨hinterface, o, ho, hobject, himplements, rfl⟩
      · exact ⟨⟨t, ht, hobject⟩, .inl rfl⟩
      · obtain ⟨m, hm, rfl⟩ := List.mem_map.1 (mem_names.2 hmember)
        exact ⟨hasKind_of_mem_members h (List.mem_of_find?_eq_some ht) hm,
          .inr (isPossibleType_iff.2 ⟨t, ht, .inl hmember⟩)⟩
      · have hfind := find?_of_mem_types h ho
        exact ⟨⟨o, hfind, hobject⟩, .inr (isPossibleType_iff.2 ⟨t, ht, .inr ⟨hinterface, o, hfind, himplements⟩⟩)⟩
  · rintro ⟨⟨o, ho, hobject⟩, rfl | hpossible⟩
    · exact (mem_possibleTypes_of_type? ho).2 (.inl ⟨hobject, rfl⟩)
    · obtain ⟨t, ht, hmember | ⟨hinterface, c, hc, himplements⟩⟩ := isPossibleType_iff.1 hpossible
      · exact (mem_possibleTypes_of_type? ht).2 (.inr (.inl hmember))
      · obtain rfl := Option.some.inj (ho.symm.trans hc)
        exact (mem_possibleTypes_of_type? ht).2
          (.inr (.inr ⟨hinterface, o, List.mem_of_find?_eq_some ho, hobject, himplements, nameOf_of_find? ho⟩))

/-- What a value of a possible type can be, a value of the type can be. -/
theorem possibleTypes_subset (h : build documents = .ok s) {a b : String} (hab : isPossibleType s.types b a) :
    s.possibleTypes a ⊆ s.possibleTypes b := by
  intro x hx
  obtain ⟨hobject, hxa⟩ := (mem_possibleTypes_iff h).1 hx
  refine (mem_possibleTypes_iff h).2 ⟨hobject, .inr ?_⟩
  rcases hxa with rfl | hxa
  · exact hab
  · exact isPossibleType_trans h hxa hab

/-- Subtypes of a subtype are subtypes. -/
private theorem isSubtype_trans (h : build documents = .ok s) {a b c : TypeRef} (hab : isSubtype s.types a b)
    (hbc : isSubtype s.types b c) : isSubtype s.types a c := by
  induction a generalizing b c with
  | named a n _ =>
    cases b with
    | list => cases hab
    | named b m _ =>
      cases c with
      | list => cases hbc
      | named c k _ =>
        obtain ⟨hnm, hab⟩ := isSubtype_named_iff.1 hab
        obtain ⟨hmk, hbc⟩ := isSubtype_named_iff.1 hbc
        refine isSubtype_named_iff.2 ⟨fun hn => hmk (hnm hn), ?_⟩
        rcases hab with hab | hab
        · exact hab ▸ hbc
        · rcases hbc with hbc | hbc
          · exact .inr (hbc ▸ hab)
          · exact .inr (isPossibleType_trans h hab hbc)
  | list a n _ ih =>
    cases b with
    | named => cases hab
    | list b m _ =>
      cases c with
      | named => cases hbc
      | list c k _ =>
        obtain ⟨hnm, hab⟩ := isSubtype_list_iff.1 hab
        obtain ⟨hmk, hbc⟩ := isSubtype_list_iff.1 hbc
        exact isSubtype_list_iff.2 ⟨fun hn => hmk (hnm hn), ih hab hbc⟩

private theorem equivalent_of_isSubtype (h : build documents = .ok s) {a b : TypeRef} (hab : isSubtype s.types a b)
    (hba : isSubtype s.types b a) : a.equivalent b := by
  induction a generalizing b with
  | named a n _ =>
    cases b with
    | list => cases hab
    | named b m _ =>
      obtain ⟨hnm, hab⟩ := isSubtype_named_iff.1 hab
      obtain ⟨hmn, hba⟩ := isSubtype_named_iff.1 hba
      have hname : a.value = b.value := by
        rcases hab with hab | hab
        · exact hab
        · rcases hba with hba | hba
          · exact hba.symm
          · -- the two steps would lead from the type to itself
            have hself := isPossibleType_trans h hab hba
            rw [isPossibleType_self h] at hself
            cases hself
      simp [TypeRef.equivalent, hname, Bool.eq_iff_iff.2 ⟨hnm, hmn⟩]
  | list a n _ ih =>
    cases b with
    | named => cases hab
    | list b m _ =>
      obtain ⟨hnm, hab⟩ := isSubtype_list_iff.1 hab
      obtain ⟨hmn, hba⟩ := isSubtype_list_iff.1 hba
      simp [TypeRef.equivalent, ih hab hba, Bool.eq_iff_iff.2 ⟨hnm, hmn⟩]

/-- In a built schema subtypes are ordered, types being the same that differ in spans only, and a value of a named
subtype is one of the type. -/
theorem subtypes_ordered (h : build documents = .ok s) :
    (∀ a, isSubtype s.types a a) ∧
    (∀ a b c, isSubtype s.types a b → isSubtype s.types b c → isSubtype s.types a c) ∧
    (∀ a b, isSubtype s.types a b ∧ isSubtype s.types b a ↔ a.equivalent b) ∧
    ∀ a b n m span span', isSubtype s.types (.named a n span) (.named b m span') →
      s.possibleTypes a.value ⊆ s.possibleTypes b.value := by
  refine ⟨fun a => isSubtype_of_equivalent a.equivalent_refl, fun _ _ _ => isSubtype_trans h, fun a b => ?_, ?_⟩
  · constructor
    · exact fun hab => equivalent_of_isSubtype h hab.1 hab.2
    · exact fun hab => ⟨isSubtype_of_equivalent hab, isSubtype_of_equivalent (TypeRef.equivalent_symm hab)⟩
  · intro a b n m span span' hab
    rcases (isSubtype_named_iff.1 hab).2 with hname | hpossible
    · rw [hname]
      exact List.Subset.refl _
    · exact possibleTypes_subset h hpossible

/-- An object type without null is a subtype of the interface it implements, by way of the object type with null,
and its values are values of the interface. -/
theorem subtypes_ordered_of_extended_scalar :
    ∃ document s,
      SchemaDocument.parse
        "interface I \x7b a: ID \x7d type Query implements I \x7b a: ID \x7d union U = Query extend scalar Int @t" =
          .ok document ∧
      build [document] = .ok s ∧
      isSubtype s.types (.named ⟨"Query", .emptyAt .origin⟩ false (.emptyAt .origin))
        (.named ⟨"I", .emptyAt .origin⟩ true (.emptyAt .origin)) ∧
      "Query" ∈ s.possibleTypes "I" := by
  obtain ⟨document, s, hparse, hs, hpossible, hobject, -⟩ := exists_of_extended_scalar
  obtain ⟨-, htrans, -, hsubset⟩ := subtypes_ordered hs
  have hnull : isSubtype s.types (.named ⟨"Query", .emptyAt .origin⟩ false (.emptyAt .origin))
      (.named ⟨"Query", .emptyAt .origin⟩ true (.emptyAt .origin)) := by simp [isSubtype]
  have himplements : isSubtype s.types (.named ⟨"Query", .emptyAt .origin⟩ true (.emptyAt .origin))
      (.named ⟨"I", .emptyAt .origin⟩ true (.emptyAt .origin)) := by simp [isSubtype, hpossible]
  exact ⟨document, s, hparse, hs, htrans _ _ _ hnull himplements, hsubset _ _ _ _ _ _ himplements hobject⟩

end Schema

end GraphQL
