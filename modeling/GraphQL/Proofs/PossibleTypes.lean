import GraphQL.Proofs.CompactReferences
import GraphQL.Proofs.ExtendedTypes
import GraphQL.Proofs.Subtypes

/-!
# Possible types

The possible types of an interface or a union are looked for among all types each time they are asked for. An index
that is made in one pass over the types lists the same ones in the same order (`Schema.indexedTypes_eq`): what it
lists under a name is what the types tell of the name, one after the other (`possibleIndex_apply`). Whether a type is
a possible type of another can also be told from the two types alone, and so can whether two types overlap
(`Schema.possibleTypes_exact`).
-/

namespace GraphQL

open Named
open GraphQL.Compact (intern)

/-- The index with what one type tells: an object is listed under its interfaces, and members under their union. -/
def enterType (index : String → List String) (t : TypeDefinition) : String → List String :=
  match t.body with
  | .object interfaces _ =>
    (names interfaces).foldl (fun index i => Function.update index i (intern (index i) t.name.value)) index
  | .union members => Function.update index t.name.value ((names members).foldl intern (index t.name.value))
  | _ => index

/-- The object types that belong to each name, each listed once. -/
def possibleIndex (types : List TypeDefinition) : String → List String := types.foldl enterType fun _ => []

/-- The possible types of a name when those of abstract types are taken from the index. -/
def Schema.indexedTypes (s : Schema) (name : String) : List String :=
  match s.type? name with
  | some t => match t.kind with
    | .object => [name]
    | .interface | .union => possibleIndex s.types name
    | _ => []
  | none => []

/-- What a type tells of a name: an object that it implements it, a union of that name its members. -/
def TypeDefinition.tells (t : TypeDefinition) (name : String) : List String :=
  match t.body with
  | .object interfaces _ => if contains interfaces name then [t.name.value] else []
  | .union members => if t.name.value = name then names members else []
  | _ => []

private theorem intern_intern (xs : List String) (x : String) : intern (intern xs x) x = intern xs x := by
  have hx : x ∈ intern xs x := Compact.mem_intern.2 (.inr rfl)
  rw [intern, if_pos hx]

private theorem foldl_update_apply (interfaces : List Name) (object name : String) (index : String → List String) :
    (names interfaces).foldl (fun index i => Function.update index i (intern (index i) object)) index name =
      if contains interfaces name then intern (index name) object else index name := by
  induction interfaces generalizing index with
  | nil => rfl
  | cons i interfaces ih =>
    have hcons : contains (i :: interfaces) name = (decide (nameOf i = name) || contains interfaces name) := rfl
    rw [names, List.map_cons, List.foldl_cons]
    refine (ih _).trans ?_
    by_cases hi : nameOf i = name
    · subst hi
      simp [hcons, intern_intern]
    · simp [hcons, hi, Function.update_of_ne (Ne.symm hi)]

/-- One type adds what it tells of a name to what is listed under the name. -/
theorem enterType_apply (index : String → List String) (t : TypeDefinition) (name : String) :
    enterType index t name = (t.tells name).foldl intern (index name) := by
  unfold enterType TypeDefinition.tells
  cases t.body with
  | object interfaces fields =>
    refine (foldl_update_apply ..).trans ?_
    by_cases hi : contains interfaces name
    · simp only [if_pos hi]
      rfl
    · simp only [if_neg hi]
      rfl
  | union members =>
    by_cases hname : t.name.value = name
    · subst hname
      simp only [Function.update_self, if_pos]
    · simp only [Function.update_of_ne (Ne.symm hname), if_neg hname]
      rfl
  | scalar | interface | enum | inputObject => rfl

/-- The index lists under a name what all types tell of it, each object once. -/
theorem possibleIndex_apply (types : List TypeDefinition) (name : String) :
    possibleIndex types name = (types.flatMap (·.tells name)).foldl intern [] := by
  have hrun (index : String → List String) :
      types.foldl enterType index name = (types.flatMap (·.tells name)).foldl intern (index name) := by
    induction types generalizing index with
    | nil => rfl
    | cons t types ih => rw [List.foldl_cons, ih, enterType_apply, List.flatMap_cons, List.foldl_append]
  exact hrun _

private theorem foldl_intern_of_nodup {xs ys : List String} (h : (xs ++ ys).Nodup) : ys.foldl intern xs = xs ++ ys := by
  induction ys generalizing xs with
  | nil => exact (List.append_nil xs).symm
  | cons y ys ih =>
    have hy : y ∉ xs := fun hy => (List.nodup_append.1 h).2.2 y hy y (List.mem_cons_self ..) rfl
    have hsplit : xs ++ [y] ++ ys = xs ++ y :: ys := by rw [List.append_assoc, List.singleton_append]
    rw [List.foldl_cons, intern, if_neg hy, ih (hsplit ▸ h), hsplit]

namespace Named

variable {α β : Type} [Named α]

private theorem names_filter (p : α → Bool) (xs : List α) :
    names (xs.filter p) = xs.flatMap fun x => if p x then [nameOf x] else [] := by
  induction xs with
  | nil => rfl
  | cons x xs ih =>
    by_cases hx : p x
    · simp [names, hx, ← ih]
    · simp [hx, ← ih]

/-- Where only items of one name give anything, the item of that name gives all. -/
theorem flatMap_of_unique {xs : List α} {x : α} {f : α → List β} (hnames : (names xs).Nodup) (hx : x ∈ xs)
    (hothers : ∀ y ∈ xs, nameOf y ≠ nameOf x → f y = []) : xs.flatMap f = f x := by
  induction xs with
  | nil => cases hx
  | cons y xs ih =>
    rw [names, List.map_cons, List.nodup_cons] at hnames
    rw [List.flatMap_cons]
    rcases List.mem_cons.1 hx with rfl | hx
    · have hrest : xs.flatMap f = [] := List.flatMap_eq_nil_iff.2 fun z hz =>
        hothers z (List.mem_cons_of_mem _ hz) fun hname => hnames.1 (hname ▸ List.mem_map_of_mem hz)
      rw [hrest, List.append_nil]
    · have hy : f y = [] := hothers y (List.mem_cons_self ..) fun hname => hnames.1 (hname ▸ List.mem_map_of_mem hx)
      rw [hy, List.nil_append]
      exact ih hnames.2 hx fun z hz => hothers z (List.mem_cons_of_mem _ hz)

end Named

namespace Schema

variable {documents : List SchemaDocument} {s : Schema}

/-! ### What the types of a schema tell -/

/-- In a built schema no type names an interface or a member twice. -/
private theorem distinctParts_of_build (h : build documents = .ok s) {t : TypeDefinition} (ht : t ∈ s.types) :
    DistinctParts [t] := by
  obtain ⟨hfree, htypes, -⟩ := faultFree_of_build h
  obtain ⟨-, -, hmap, hgathers⟩ := Draft.gathers_of_faults hfree.own
  rw [htypes, hmap] at ht
  obtain ⟨u, hu, rfl⟩ := List.mem_map.1 ht
  exact (hgathers u hu).distinct

/-- Of an interface the objects tell that implement it, and no other types. -/
theorem tells_of_interface (h : build documents = .ok s) {i : TypeDefinition} (hi : i ∈ s.types)
    (hkind : i.kind = .interface) : s.types.flatMap (·.tells i.name.value) =
      names (s.types.filter fun o => o.kind = .object && o.implements i.name.value) := by
  have htells : ∀ t ∈ s.types, t.tells i.name.value =
      if t.kind = .object && t.implements i.name.value then [nameOf t] else [] := by
    intro t ht
    unfold TypeDefinition.tells TypeDefinition.kind TypeDefinition.implements TypeDefinition.interfaces
    cases hbody : t.body with
    | object => simp [TypeBody.kind, TypeBody.interfaces, nameOf]
    | union members =>
      have hne : t.name.value ≠ i.name.value := by
        intro hname
        obtain rfl := eq_of_nameOf_eq (names_nodup h) ht hi hname
        simp [TypeDefinition.kind, hbody, TypeBody.kind] at hkind
      simp [TypeBody.kind, hne]
    | scalar | interface | enum | inputObject => simp [TypeBody.kind]
  rw [List.flatMap_congr htells, names_filter]

/-- Of a union only the union itself tells: no object implements it. -/
theorem tells_of_union (h : build documents = .ok s) {u : TypeDefinition} (hu : u ∈ s.types) {members : List Name}
    (hbody : u.body = .union members) : s.types.flatMap (·.tells u.name.value) = names members := by
  have hown : u.tells u.name.value = names members := by simp [TypeDefinition.tells, hbody]
  rw [← hown]
  refine flatMap_of_unique (names_nodup h) hu fun t ht hname => ?_
  unfold TypeDefinition.tells
  cases htbody : t.body with
  | object interfaces fields =>
    have himplements : contains interfaces u.name.value = false := by
      refine Bool.eq_false_iff.2 fun himplements => ?_
      obtain ⟨i, hi, hiu⟩ := List.mem_map.1 (mem_names.2 himplements)
      have hi : i ∈ t.interfaces := by rwa [TypeDefinition.interfaces, htbody]
      obtain ⟨v, hv, hinterface⟩ := hasKind_of_mem_interfaces h ht hi
      have hiu : i.value = u.name.value := hiu
      rw [hiu, find?_of_mem_types h hu] at hv
      obtain rfl := Option.some.inj hv
      simp [TypeDefinition.kind, hbody, TypeBody.kind] at hinterface
    simp [himplements]
  | union others => exact if_neg hname
  | scalar | interface | enum | inputObject => rfl

/-- No possible type of a built schema is listed twice. -/
private theorem nodup_possibleTypes (h : build documents = .ok s) (name : String) : (s.possibleTypes name).Nodup := by
  unfold possibleTypes
  split
  · rename_i t ht
    have hparts := distinctParts_of_build h (List.mem_of_find?_eq_some ht)
    split
    · exact List.pairwise_singleton _ _
    · exact (List.filter_sublist.map nameOf).nodup (names_nodup h)
    · rename_i members hbody
      have hmembers := hparts.members
      rw [List.flatMap_singleton, hbody] at hmembers
      exact hmembers
    · exact List.nodup_nil
  · exact List.nodup_nil

/-- The index lists just the possible types. -/
theorem indexedTypes_eq (h : build documents = .ok s) (name : String) :
    s.indexedTypes name = s.possibleTypes name := by
  have hlisted (ys : List String) (htells : s.types.flatMap (·.tells name) = ys) (hys : ys.Nodup) :
      possibleIndex s.types name = ys := by
    rw [possibleIndex_apply, htells, @foldl_intern_of_nodup [] ys hys, List.nil_append]
  have hnodup := nodup_possibleTypes h name
  unfold indexedTypes
  unfold possibleTypes at hnodup ⊢
  cases ht : s.type? name with
  | none => rfl
  | some t =>
    have hmem := List.mem_of_find?_eq_some ht
    obtain rfl : t.name.value = name := nameOf_of_find? ht
    simp only [ht] at hnodup ⊢
    unfold TypeDefinition.kind
    cases hbody : t.body with
    | object | scalar | enum | inputObject => rfl
    | interface interfaces fields =>
      rw [hbody] at hnodup
      exact hlisted _ (tells_of_interface h hmem (by rw [TypeDefinition.kind, hbody]; rfl)) hnodup
    | union members =>
      rw [hbody] at hnodup
      exact hlisted _ (tells_of_union h hmem hbody) hnodup

/-- An object type stands for itself alone. -/
theorem possibleTypes_of_object {name : String} (hname : HasKind s.types name (· = .object)) :
    s.possibleTypes name = [name] := by
  obtain ⟨t, ht, hkind⟩ := hname
  have ht : s.type? name = some t := ht
  unfold TypeDefinition.kind at hkind
  simp only [possibleTypes, ht]
  cases hbody : t.body with
  | object => rfl
  | scalar | interface | union | enum | inputObject => simp [hbody, TypeBody.kind] at hkind

/-- Two types overlap if they are the same or an object type is a possible type of both, or one of them and a possible
type of the other. -/
theorem overlap_iff (h : build documents = .ok s) (a b : String) : s.overlap a b ↔ a = b ∨
    ∃ o, HasKind s.types o (· = .object) ∧ (o = a ∨ s.isPossible a o) ∧ (o = b ∨ s.isPossible b o) := by
  simp only [overlap, Bool.or_eq_true, decide_eq_true_eq, List.any_eq_true, mem_possibleTypes_iff h]
  refine or_congr_right ⟨?_, ?_⟩
  · rintro ⟨o, ⟨hobject, ha⟩, -, hb⟩
    exact ⟨o, hobject, ha, hb⟩
  · rintro ⟨o, hobject, ha, hb⟩
    exact ⟨o, ⟨hobject, ha⟩, hobject, hb⟩

private theorem overlap_symm (h : build documents = .ok s) {a b : String} (hab : s.overlap a b) : s.overlap b a := by
  rw [overlap_iff h] at hab ⊢
  rcases hab with rfl | ⟨o, hobject, ha, hb⟩
  · exact .inl rfl
  · exact .inr ⟨o, hobject, hb, ha⟩

/-- In a built schema the possible types of a name are listed once each, they are object types, and an index that is
made once lists the same. Those of an interface or a union are the object types that are possible for it one by one,
an object type has none but itself, and different types overlap just where they have one in common. -/
theorem possibleTypes_exact (h : build documents = .ok s) :
    (∀ a, s.indexedTypes a = s.possibleTypes a ∧ (s.possibleTypes a).Nodup ∧
      ∀ o ∈ s.possibleTypes a, HasKind s.types o (· = .object)) ∧
    (∀ o, HasKind s.types o (· = .object) → s.possibleTypes o = [o]) ∧
    (∀ a o, HasKind s.types a (·.isAbstract) → HasKind s.types o (· = .object) →
      (o ∈ s.possibleTypes a ↔ s.isPossible a o)) ∧
    (∀ a b, a ≠ b → (s.overlap a b ↔
      ∃ o, HasKind s.types o (· = .object) ∧ (o = a ∨ s.isPossible a o) ∧ (o = b ∨ s.isPossible b o))) ∧
    ∀ a b, s.overlap a b = s.overlap b a := by
  refine ⟨fun a => ⟨indexedTypes_eq h a, nodup_possibleTypes h a, fun o ho => ((mem_possibleTypes_iff h).1 ho).1⟩,
    fun o ho => possibleTypes_of_object ho, ?_, ?_, ?_⟩
  · intro a o ⟨t, ht, habstract⟩ ho
    have hne : o ≠ a := by
      rintro rfl
      obtain ⟨u, hu, hobject⟩ := ho
      obtain rfl := Option.some.inj (ht.symm.trans hu)
      rw [hobject] at habstract
      cases habstract
    rw [mem_possibleTypes_iff h]
    exact ⟨fun hmem => hmem.2.resolve_left hne, fun hpossible => ⟨ho, .inr hpossible⟩⟩
  · intro a b hne
    rw [overlap_iff h, or_iff_right hne]
  · intro a b
    exact Bool.eq_iff_iff.2 ⟨overlap_symm h, overlap_symm h⟩

/-- The object that implements an interface is listed under it, and the two overlap. -/
theorem possibleTypes_exact_of_extended_scalar :
    ∃ document s,
      SchemaDocument.parse
        "interface I \x7b a: ID \x7d type Query implements I \x7b a: ID \x7d union U = Query extend scalar Int @t" =
          .ok document ∧
      build [document] = .ok s ∧ "Query" ∈ s.indexedTypes "I" ∧ s.overlap "I" "Query" ∧ s.overlap "Query" "I" := by
  obtain ⟨document, s, hparse, hs, himplements, hquery, -⟩ := exists_of_extended_scalar
  obtain ⟨hindex, -, hpossible, hoverlap, hsymm⟩ := possibleTypes_exact hs
  have hobject : HasKind s.types "Query" (· = .object) := (hindex "Query").2.2 "Query" hquery
  have habstract : HasKind s.types "I" (·.isAbstract) := isAbstract_of_isPossibleType himplements
  have hboth : s.overlap "I" "Query" :=
    (hoverlap "I" "Query" (by decide)).2 ⟨"Query", hobject, .inr himplements, .inl rfl⟩
  refine ⟨document, s, hparse, hs, ?_, hboth, ?_⟩
  · rw [(hindex "I").1]
    exact (hpossible "I" "Query" habstract hobject).2 himplements
  · rw [hsymm "Query" "I"]
    exact hboth

end Schema

end GraphQL
