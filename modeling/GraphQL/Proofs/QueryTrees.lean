import GraphQL.Proofs.DocumentParts
import GraphQL.Proofs.Evaluation
import GraphQL.Proofs.NearestDoubles
import GraphQL.Proofs.Visits
import GraphQL.Syntax.QueryTree
import Mathlib.Data.List.Induction
import Mathlib.Data.String.Basic

/-!
# What query trees show

A query tree shows a document when both are built alike: the same definitions and selections in the same order, with
the same names, arguments, directives, types and values, where an object has its fields sorted by name and of repeated
names the last (`QueryTree.Definition.Shows`). A document has no such tree when some variable has directives or some
integer does not fit into 32 bits (`Document.HasMisfit`). Each routine that builds a part of the tree is described by
one lemma, which says what it returns and what it reports (`QueryTree.Settles`): it returns just what shows the part,
and what it reports stands in the part (`Document.toQueryTree_settles`).
-/

namespace GraphQL

namespace QueryTree

/-- The fields sorted by name, with the last of each name. -/
structure SortedLast {α : Type} (fields sorted : List (String × α)) : Prop where
  increasing : sorted.Pairwise (·.1 < ·.1)
  lookup : ∀ name, sorted.lookup name = fields.reverse.lookup name

mutual

inductive Value.Shows : GraphQL.Value → Value → Prop where
  | var (use : VariableUse) : Value.Shows (.var use) (.var use.name.value)
  | int {raw : String} {span : Span} {n : Int} (h : Number.WritesInt raw.toList n) (h32 : Number.IsInt32 n) :
    Value.Shows (.int raw span) (.int n)
  | float {raw : String} {span : Span} {x : Float} (h : Number.WritesDouble raw.toList x) :
    Value.Shows (.float raw span) (.float x)
  | notANumber {raw : String} {span : Span} (h : ¬∃ q, Number.WritesDecimal raw.toList q) :
    Value.Shows (.float raw span) (.float (0.0 / 0.0))
  | string (literal : StringLiteral) : Value.Shows (.string literal) (.string literal.value)
  | boolean (b : Bool) (span : Span) : Value.Shows (.boolean b span) (.boolean b)
  | null (span : Span) : Value.Shows (.null span) .null
  | enum (value : String) (span : Span) : Value.Shows (.enum value span) (.enum value)
  | list {items : List GraphQL.Value} {ts : List Value} {span : Span} (h : List.Forall₂ Value.Shows items ts) :
    Value.Shows (.list items span) (.list ts)
  | object {fields : List ObjectField} {us ts : List (String × Value)} {span : Span}
    (h : List.Forall₂ FieldShows fields us) (hts : SortedLast us ts) : Value.Shows (.object fields span) (.object ts)

inductive FieldShows : ObjectField → String × Value → Prop where
  | mk {f : ObjectField} {t : Value} (h : Value.Shows f.value t) : FieldShows f (f.name.value, t)

end

inductive TypeRef.Shows : GraphQL.TypeRef → TypeRef → Prop where
  | named (name : Name) (span : Span) : Shows (.named name true span) (.named name.value)
  | namedNonNull (name : Name) (span : Span) : Shows (.named name false span) (.nonNull (.named name.value))
  | list {element : GraphQL.TypeRef} {t : TypeRef} {span : Span} (h : Shows element t) :
    Shows (.list element true span) (.list t)
  | listNonNull {element : GraphQL.TypeRef} {t : TypeRef} {span : Span} (h : Shows element t) :
    Shows (.list element false span) (.nonNull (.list t))

inductive ArgumentShows : Argument → String × Value → Prop where
  | mk {a : Argument} {t : Value} (h : Value.Shows a.value t) : ArgumentShows a (a.name.value, t)

inductive Directive.Shows : GraphQL.Directive → Directive → Prop where
  | mk {d : GraphQL.Directive} {arguments : List (String × Value)}
    (h : List.Forall₂ ArgumentShows d.arguments arguments) : Shows d ⟨startOf d.span, d.name.value, arguments⟩

mutual

/-- A field without a selection set is shown with an empty one at its start. -/
inductive Selection.Shows : GraphQL.Selection → Selection → Prop where
  | leaf {f : Field} {arguments : List (String × Value)} {directives : List Directive} (hset : f.selectionSet = none)
    (harguments : List.Forall₂ ArgumentShows f.arguments arguments)
    (hdirectives : List.Forall₂ Directive.Shows f.directives directives) :
    Selection.Shows (.field f) (.field (startOf f.span) (f.aliasName.map (·.value)) f.name.value arguments directives
      ⟨startOf f.span, startOf f.span, []⟩)
  | field {f : Field} {set : GraphQL.SelectionSet} {arguments : List (String × Value)} {directives : List Directive}
    {t : SelectionSet} (hset : f.selectionSet = some set)
    (harguments : List.Forall₂ ArgumentShows f.arguments arguments)
    (hdirectives : List.Forall₂ Directive.Shows f.directives directives) (h : SelectionSet.Shows set t) :
    Selection.Shows (.field f) (.field (startOf f.span) (f.aliasName.map (·.value)) f.name.value arguments directives t)
  | spread {s : FragmentSpread} {directives : List Directive}
    (hdirectives : List.Forall₂ Directive.Shows s.directives directives) :
    Selection.Shows (.spread s) (.spread (startOf s.span) s.name.value directives)
  | inline {i : InlineFragment} {directives : List Directive} {t : SelectionSet}
    (hdirectives : List.Forall₂ Directive.Shows i.directives directives) (h : SelectionSet.Shows i.selectionSet t) :
    Selection.Shows (.inline i) (.inline (startOf i.span) (i.condition.map (·.typeName.value)) directives t)

inductive SelectionSet.Shows : GraphQL.SelectionSet → SelectionSet → Prop where
  | mk {set : GraphQL.SelectionSet} {items : List Selection} (h : List.Forall₂ Selection.Shows set.selections items) :
    SelectionSet.Shows set ⟨startOf set.span, set.span.stop.lineColumn, items⟩

end

structure VariableDefinition.Shows (v : GraphQL.VariableDefinition) (t : VariableDefinition) : Prop where
  place : t.place = startOf v.span
  name : t.name = v.name.value
  type : TypeRef.Shows v.type t.type
  defaultValue : Option.Rel Value.Shows v.defaultValue t.defaultValue
  directives : v.directives = []

/-- A query without a name, variables and directives is shown as its selection set. -/
inductive Definition.Shows : GraphQL.Definition → Definition → Prop where
  | bare {o : Operation} {t : SelectionSet} (hbare : o.IsBare) (h : SelectionSet.Shows o.selectionSet t) :
    Shows (.operation o) (.bare t)
  | operation {o : Operation} {definitions : List VariableDefinition} {directives : List Directive} {t : SelectionSet}
    (hbare : ¬o.IsBare) (hdefinitions : List.Forall₂ VariableDefinition.Shows o.variableDefinitions definitions)
    (hdirectives : List.Forall₂ Directive.Shows o.directives directives) (h : SelectionSet.Shows o.selectionSet t) :
    Shows (.operation o) (.operation o.kind (startOf o.span) (o.name.map (·.value)) definitions directives t)
  | fragment {f : Fragment} {directives : List Directive} {t : SelectionSet}
    (hdirectives : List.Forall₂ Directive.Shows f.directives directives) (h : SelectionSet.Shows f.selectionSet t) :
    Shows (.fragment f) (.fragment (startOf f.span) f.name.value f.condition.typeName.value directives t)

section
variable {α : Type}

private theorem lookup_cons (name key : String) (a : α) (fields : List (String × α)) :
    ((key, a) :: fields).lookup name = if name = key then some a else fields.lookup name := by
  rw [List.lookup_cons]
  split
  · next h => rw [if_pos (beq_iff_eq.1 h)]
  · next h => rw [if_neg (beq_eq_false_iff_ne.1 h)]

/-- A field that is inserted takes the place of one by the same name. -/
private theorem lookup_insertField (name : String) (a : α) (fields : List (String × α)) (other : String) :
    (insertField name a fields).lookup other = if other = name then some a else fields.lookup other := by
  induction fields with
  | nil => rw [insertField, lookup_cons]
  | cons field fields ih =>
    obtain ⟨key, b⟩ := field
    rw [insertField]
    split
    · next hkey =>
      subst hkey
      rw [lookup_cons, lookup_cons]
      split <;> rfl
    · next hne =>
      split
      · rw [lookup_cons]
      · rw [lookup_cons, lookup_cons, ih]
        by_cases h : other = key
        · rw [if_pos h, if_neg (h ▸ Ne.symm hne), if_pos h]
        · rw [if_neg h, if_neg h]

/-- The names of fields with another one put in. -/
theorem mem_insertField {name : String} {a : α} {fields : List (String × α)} {field : String × α}
    (h : field ∈ insertField name a fields) : field.1 = name ∨ field ∈ fields := by
  induction fields with
  | nil => exact .inl (congrArg Prod.fst (List.mem_singleton.1 h))
  | cons other fields ih =>
    obtain ⟨key, b⟩ := other
    rw [insertField] at h
    split at h
    · rcases List.mem_cons.1 h with rfl | h
      · exact .inl rfl
      · exact .inr (List.mem_cons_of_mem _ h)
    · split at h
      · rcases List.mem_cons.1 h with rfl | h
        · exact .inl rfl
        · exact .inr h
      · rcases List.mem_cons.1 h with rfl | h
        · exact .inr (List.mem_cons_self ..)
        · exact (ih h).imp_right (List.mem_cons_of_mem _)

/-- Inserting a field keeps the names in order. -/
private theorem increasing_insertField (name : String) (a : α) {fields : List (String × α)}
    (h : fields.Pairwise (·.1 < ·.1)) : (insertField name a fields).Pairwise (·.1 < ·.1) := by
  induction fields with
  | nil => exact List.pairwise_singleton ..
  | cons field fields ih =>
    obtain ⟨key, b⟩ := field
    obtain ⟨hkey, hfields⟩ := List.pairwise_cons.1 h
    rw [insertField]
    split
    · next heq =>
      subst heq
      exact List.pairwise_cons.2 ⟨hkey, hfields⟩
    · split
      · next hlt =>
        exact List.pairwise_cons.2 ⟨List.forall_mem_cons.2 ⟨hlt, fun field hfield => hlt.trans (hkey field hfield)⟩, h⟩
      · next hne hge =>
        have hlt : key < name := lt_of_le_of_ne (not_lt.1 hge) (Ne.symm hne)
        refine List.pairwise_cons.2 ⟨fun field hfield => ?_, ih hfields⟩
        rcases mem_insertField hfield with hname | hfield
        · exact hname ▸ hlt
        · exact hkey field hfield

/-- The sorted fields are in order, and keep the last of each name. -/
private theorem sortedLast_sortFields (fields : List (String × α)) : SortedLast fields (sortFields fields) := by
  rw [sortFields]
  induction fields using List.reverseRecOn with
  | nil => exact ⟨.nil, fun _ => rfl⟩
  | append_singleton fields field ih =>
    rw [List.foldl_concat]
    refine ⟨increasing_insertField _ _ ih.increasing, fun name => ?_⟩
    rw [lookup_insertField, ih.lookup, List.reverse_concat, lookup_cons]

private theorem lookup_eq_some_iff_mem {fields : List (String × α)} (h : fields.Pairwise (·.1 < ·.1)) {name : String}
    {a : α} : fields.lookup name = some a ↔ (name, a) ∈ fields := by
  induction fields with
  | nil => simp
  | cons field fields ih =>
    obtain ⟨key, b⟩ := field
    obtain ⟨hkey, hfields⟩ := List.pairwise_cons.1 h
    rw [lookup_cons, List.mem_cons, Prod.mk.injEq]
    by_cases heq : name = key
    · subst heq
      have hnot : (name, a) ∉ fields := fun hmem => lt_irrefl name (hkey _ hmem)
      simp [hnot, eq_comm]
    · simp [heq, ih hfields]

/-- There is one way only to sort fields by name and keep the last of each. -/
private theorem SortedLast.unique {fields sorted sorted' : List (String × α)} (h : SortedLast fields sorted)
    (h' : SortedLast fields sorted') : sorted = sorted' := by
  have hmem (field : String × α) : field ∈ sorted ↔ field ∈ sorted' := by
    rw [← lookup_eq_some_iff_mem h.increasing, ← lookup_eq_some_iff_mem h'.increasing, h.lookup, h'.lookup]
  have hnodup {fields : List (String × α)} (hfields : fields.Pairwise (·.1 < ·.1)) : fields.Nodup :=
    hfields.imp fun {a b} hlt (heq : a = b) => lt_irrefl b.1 (heq ▸ hlt)
  refine List.Perm.eq_of_pairwise (fun a b _ _ hab hba => absurd hba (lt_asymm hab)) h.increasing h'.increasing ?_
  exact (List.perm_ext_iff_of_nodup (hnodup h.increasing) (hnodup h'.increasing)).2 hmem

private theorem sortedLast_iff {fields sorted : List (String × α)} :
    SortedLast fields sorted ↔ sorted = sortFields fields :=
  ⟨fun h => h.unique (sortedLast_sortFields fields), fun h => h ▸ sortedLast_sortFields fields⟩

end

/-! ### Routines that may fail -/

/-- What a routine comes to that builds the tree of a part: it returns just the trees that show the part, it reports
only what does not fit in the part, and a part that can be shown fits as a whole. -/
structure Settles {α : Type} (outcome : Except Misfit α) (shown : α → Prop) (misfit : Misfit → Prop) : Prop where
  ok : ∀ a, outcome = .ok a ↔ shown a
  error : ∀ m, outcome = .error m → misfit m
  fits : ∀ a, shown a → ∀ m, ¬misfit m

namespace Settles

variable {α β : Type}

private theorem pure (a : α) : Settles (Pure.pure a) (· = a) fun _ => False where
  ok _ := ⟨fun h => (Except.ok.inj h).symm, fun h => h ▸ rfl⟩
  error _ h := nomatch h
  fits _ _ _ h := h

private theorem throw (m : Misfit) : Settles (.error m : Except Misfit α) (fun _ => False) (· = m) where
  ok _ := ⟨(nomatch ·), False.elim⟩
  error _ h := (Except.error.inj h).symm
  fits _ h := h.elim

/-- Two routines settle a part in two steps: what is shown is shown by both, and the second reports only if the first
does not. -/
private theorem bind {x : Except Misfit α} {f : α → Except Misfit β} {shown : α → Prop} {shown' : α → β → Prop}
    {misfit misfit' : Misfit → Prop} (hx : Settles x shown misfit)
    (hf : ∀ a, shown a → Settles (f a) (shown' a) misfit') :
    Settles (x >>= f) (fun b => ∃ a, shown a ∧ shown' a b) fun m => misfit m ∨ misfit' m := by
  cases x with
  | error m =>
    refine ⟨fun b => ⟨(nomatch ·), ?_⟩, fun m' h => .inl (Except.error.inj h ▸ hx.error m rfl), ?_⟩
    · rintro ⟨a, ha, -⟩
      cases (hx.ok a).2 ha
    · rintro b ⟨a, ha, -⟩
      cases (hx.ok a).2 ha
  | ok a =>
    have ha : shown a := (hx.ok a).1 rfl
    have hunique {a' : α} (ha' : shown a') : a = a' := Except.ok.inj ((hx.ok a').2 ha')
    refine ⟨fun b => ?_, fun m h => .inr ((hf a ha).error m h), ?_⟩
    · constructor
      · exact fun h => ⟨a, ha, ((hf a ha).ok b).1 h⟩
      · rintro ⟨a', ha', hb⟩
        obtain rfl := hunique ha'
        exact ((hf a ha).ok b).2 hb
    · rintro b ⟨a', ha', hb⟩ m (hm | hm)
      · exact hx.fits a' ha' m hm
      · exact (hf a' ha').fits b hb m hm

private theorem map {x : Except Misfit α} {shown : α → Prop} {misfit : Misfit → Prop} (h : Settles x shown misfit)
    (f : α → β) : Settles (x >>= fun a => Pure.pure (f a)) (fun b => ∃ a, shown a ∧ b = f a) misfit :=
  have hbind := h.bind fun a _ => pure (f a)
  ⟨hbind.ok, fun m hm => (hbind.error m hm).resolve_right id, fun b hb m hm => hbind.fits b hb m (.inl hm)⟩

private theorem congr {x : Except Misfit α} {shown shown' : α → Prop} {misfit misfit' : Misfit → Prop}
    (h : Settles x shown misfit) (hshown : ∀ a, shown' a ↔ shown a) (hmisfit : ∀ m, misfit' m ↔ misfit m) :
    Settles x shown' misfit' where
  ok a := (h.ok a).trans (hshown a).symm
  error m hm := (hmisfit m).2 (h.error m hm)
  fits a ha m hm := h.fits a ((hshown a).1 ha) m ((hmisfit m).1 hm)

/-- A routine for each part of a list settles the list; the first part that does not fit is reported. -/
private theorem mapM {f : α → Except Misfit β} {shown : α → β → Prop} {misfit : α → Misfit → Prop} {xs : List α}
    (h : ∀ x ∈ xs, Settles (f x) (shown x) (misfit x)) :
    Settles (xs.mapM f) (List.Forall₂ shown xs) fun m => ∃ x ∈ xs, misfit x m := by
  induction xs with
  | nil => exact (pure []).congr (by simp) (by simp)
  | cons x xs ih =>
    obtain ⟨hx, hxs⟩ := List.forall_mem_cons.1 h
    rw [List.mapM_cons]
    refine (hx.bind fun y _ => (ih hxs).map (y :: ·)).congr (fun zs => ?_) fun m => by simp
    simp only [List.forall₂_cons_left_iff, exists_and_left]

end Settles

/-- The integer literals among some values that write no integer of 32 bits. -/
def Overflows (values : List GraphQL.Value) (m : Misfit) : Prop :=
  ∃ raw span, .int raw span ∈ values ∧ (¬∃ n, Number.WritesInt raw.toList n ∧ Number.IsInt32 n) ∧
    m = .intOutOfRange raw span

private theorem overflows_append {vs ws : List GraphQL.Value} {m : Misfit} :
    Overflows (vs ++ ws) m ↔ Overflows vs m ∨ Overflows ws m := by
  simp only [Overflows, List.mem_append, or_and_right, exists_or]

private theorem overflows_flatMap {α : Type} {xs : List α} {f : α → List GraphQL.Value} {m : Misfit} :
    Overflows (xs.flatMap f) m ↔ ∃ x ∈ xs, Overflows (f x) m := by
  simp only [Overflows, List.mem_flatMap]
  constructor
  · rintro ⟨raw, span, ⟨x, hx, hmem⟩, h⟩
    exact ⟨x, hx, raw, span, hmem, h⟩
  · rintro ⟨x, hx, raw, span, hmem, h⟩
    exact ⟨raw, span, ⟨x, hx, hmem⟩, h⟩

/-- Of a value that is no integer only the values inside it count. -/
theorem overflows_cons {v : GraphQL.Value} {vs : List GraphQL.Value} {m : Misfit}
    (h : ∀ raw span, v ≠ .int raw span) : Overflows (v :: vs) m ↔ Overflows vs m := by
  simp only [Overflows, List.mem_cons, Ne.symm (h _ _), false_or]

mutual

/-- A value settles to the one value that shows it, unless there is an integer in it that does not fit. -/
private theorem value_settles : (v : GraphQL.Value) → Settles (value v) (Value.Shows v) (Overflows v.all)
  | .var use => (Settles.pure _).congr (fun t => ⟨fun h => by cases h; rfl, fun h => h ▸ .var use⟩) fun m => by
      simp [Value.all, Overflows]
  | .int raw span => by
    have hshown (t : Value) :
        Value.Shows (.int raw span) t ↔ ∃ n, Number.int32OfLiteral? raw = some n ∧ t = .int n := by
      simp only [Number.int32OfLiteral?_eq_some_iff]
      constructor
      · intro h
        cases h with
        | int h h32 => exact ⟨_, ⟨h, h32⟩, rfl⟩
      · rintro ⟨n, ⟨h, h32⟩, rfl⟩
        exact .int h h32
    have hmisfit (m : Misfit) : Overflows (Value.all (.int raw span)) m ↔
        Number.int32OfLiteral? raw = none ∧ m = .intOutOfRange raw span := by
      simp [Overflows, Value.all, ← Number.int32OfLiteral?_eq_some_iff, Option.eq_none_iff_forall_ne_some]
    rw [value]
    cases hint : Number.int32OfLiteral? raw with
    | some n =>
      exact (Settles.pure (Value.int n)).congr (fun t => by simp [hshown, hint]) fun m => by simp [hmisfit, hint]
    | none =>
      exact (Settles.throw _).congr (fun t => by simp [hshown, hint]) fun m => by simp [hmisfit, hint]
  | .float raw span => by
    refine (Settles.pure (Value.float (Number.floatOfLiteral raw))).congr (fun t => ?_) fun m => by
      simp [Value.all, Overflows]
    constructor
    · intro h
      cases h with
      | float h => rw [Number.floatOfLiteral_eq_iff.2 (.inl h)]
      | notANumber h => rw [Number.floatOfLiteral_eq_iff.2 (.inr ⟨h, rfl⟩)]
    · rintro rfl
      rcases Number.floatOfLiteral_eq_iff.1 (rfl : Number.floatOfLiteral raw = _) with h | ⟨h, hx⟩
      · exact .float h
      · exact hx ▸ .notANumber h
  | .string literal => (Settles.pure _).congr (fun t => ⟨fun h => by cases h; rfl, fun h => h ▸ .string literal⟩)
      fun m => by simp [Value.all, Overflows]
  | .boolean b span => (Settles.pure _).congr (fun t => ⟨fun h => by cases h; rfl, fun h => h ▸ .boolean b span⟩)
      fun m => by simp [Value.all, Overflows]
  | .null span => (Settles.pure _).congr (fun t => ⟨fun h => by cases h; rfl, fun h => h ▸ .null span⟩)
      fun m => by simp [Value.all, Overflows]
  | .enum name span => (Settles.pure _).congr (fun t => ⟨fun h => by cases h; rfl, fun h => h ▸ .enum name span⟩)
      fun m => by simp [Value.all, Overflows]
  | .list items span => by
    refine ((valueItems_settles items).map Value.list).congr (fun t => ?_) fun m => ?_
    · constructor
      · intro h
        cases h with
        | list h => exact ⟨_, h, rfl⟩
      · rintro ⟨ts, h, rfl⟩
        exact .list h
    · rw [Value.all, overflows_cons (by simp)]
  | .object fields span => by
    refine ((valueFields_settles fields).map fun us => Value.object (sortFields us)).congr (fun t => ?_) fun m => ?_
    · constructor
      · intro h
        cases h with
        | object h hts => exact ⟨_, h, congrArg _ (sortedLast_iff.1 hts)⟩
      · rintro ⟨us, h, rfl⟩
        exact .object h (sortedLast_sortFields us)
    · rw [Value.all, overflows_cons (by simp)]

private theorem valueItems_settles : (items : List GraphQL.Value) →
    Settles (valueItems items) (List.Forall₂ Value.Shows items) (Overflows (Value.allOfItems items))
  | [] => (Settles.pure []).congr (by simp) (by simp [Value.allOfItems, Overflows])
  | v :: vs => by
    refine ((value_settles v).bind fun t _ => (valueItems_settles vs).map (t :: ·)).congr (fun ts => ?_) fun m => ?_
    · simp only [List.forall₂_cons_left_iff, exists_and_left]
    · rw [Value.allOfItems, overflows_append]

private theorem valueFields_settles : (fields : List ObjectField) →
    Settles (valueFields fields) (List.Forall₂ FieldShows fields) (Overflows (Value.allOfFields fields))
  | [] => (Settles.pure []).congr (by simp) (by simp [Value.allOfFields, Overflows])
  | ⟨name, v, span⟩ :: fs => by
    refine ((value_settles v).bind fun t _ => (valueFields_settles fs).map ((name.value, t) :: ·)).congr
      (fun us => ?_) fun m => ?_
    · rw [List.forall₂_cons_left_iff]
      constructor
      · rintro ⟨_, us, ⟨h⟩, hs, rfl⟩
        exact ⟨_, h, us, hs, rfl⟩
      · rintro ⟨t, h, us, hs, rfl⟩
        exact ⟨_, us, .mk h, hs, rfl⟩
    · rw [Value.allOfFields, overflows_append]

end

/-- A type reference always fits: it has the one tree that shows it. -/
private theorem typeRef_eq_iff {type : GraphQL.TypeRef} {t : TypeRef} : typeRef type = t ↔ TypeRef.Shows type t := by
  induction type generalizing t with
  | named name isNullable span =>
    cases isNullable
    · exact ⟨fun h => h ▸ .namedNonNull name span, fun h => by cases h; rfl⟩
    · exact ⟨fun h => h ▸ .named name span, fun h => by cases h; rfl⟩
  | list element isNullable span ih =>
    have helement := ih.1 rfl
    cases isNullable
    · exact ⟨fun h => h ▸ .listNonNull helement, fun h => by cases h with | listNonNull h => rw [← ih.2 h]; rfl⟩
    · exact ⟨fun h => h ▸ .list helement, fun h => by cases h with | list h => rw [← ih.2 h]; rfl⟩

private theorem argument_settles (a : Argument) :
    Settles (do return (a.name.value, ← value a.value)) (ArgumentShows a) (Overflows a.value.all) := by
  refine ((value_settles a.value).map fun t => (a.name.value, t)).congr (fun t => ?_) fun _ => Iff.rfl
  exact ⟨fun h => by cases h with | mk h => exact ⟨_, h, rfl⟩, fun ⟨t, h, heq⟩ => heq ▸ .mk h⟩

private theorem arguments_settles (as : List Argument) :
    Settles (arguments as) (List.Forall₂ ArgumentShows as) (Overflows (argumentValues as)) :=
  (Settles.mapM fun a _ => argument_settles a).congr (fun _ => Iff.rfl) fun _ => overflows_flatMap

/-- A directive settles as its arguments do. -/
private theorem directive_settles (d : GraphQL.Directive) :
    Settles (do return ⟨startOf d.span, d.name.value, ← arguments d.arguments⟩) (Directive.Shows d)
      (Overflows (argumentValues d.arguments)) := by
  refine ((arguments_settles d.arguments).map fun as => (⟨startOf d.span, d.name.value, as⟩ : Directive)).congr
    (fun t => ?_) fun _ => Iff.rfl
  exact ⟨fun h => by cases h with | mk h => exact ⟨_, h, rfl⟩, fun ⟨t, h, heq⟩ => heq ▸ .mk h⟩

private theorem directives_settles (ds : List GraphQL.Directive) :
    Settles (directives ds) (List.Forall₂ Directive.Shows ds) (Overflows (directiveValues ds)) :=
  (Settles.mapM fun d _ => directive_settles d).congr (fun _ => Iff.rfl) fun _ => overflows_flatMap

mutual

/-- A selection set settles to the one that shows it, unless there is an integer in it that does not fit. -/
private theorem selectionSet_settles : (set : GraphQL.SelectionSet) →
    Settles (selectionSet set) (SelectionSet.Shows set) (Overflows set.values)
  | ⟨items, span⟩ => by
    refine ((selections_settles items).map fun ts => (⟨startOf span, span.stop.lineColumn, ts⟩ : SelectionSet)).congr
      (fun t => ?_) fun _ => Iff.rfl
    exact ⟨fun h => by cases h with | mk h => exact ⟨_, h, rfl⟩, fun ⟨ts, h, heq⟩ => heq ▸ .mk h⟩

private theorem selections_settles : (items : List GraphQL.Selection) →
    Settles (selections items) (List.Forall₂ Selection.Shows items)
      (Overflows ((allOfSelections items).flatMap (·.ownValues)))
  | [] => (Settles.pure []).congr (by simp) (by simp [allOfSelections, Overflows])
  | s :: rest => by
    refine ((selection_settles s).bind fun t _ => (selections_settles rest).map (t :: ·)).congr (fun ts => ?_)
      fun m => ?_
    · simp only [List.forall₂_cons_left_iff, exists_and_left]
    · rw [allOfSelections, List.flatMap_append, overflows_append]

private theorem selection_settles : (s : GraphQL.Selection) →
    Settles (selection s) (Selection.Shows s) (Overflows (s.allSelections.flatMap (·.ownValues)))
  | .field ⟨aliasName, name, args, dirs, none, span⟩ => by
    refine ((arguments_settles args).bind fun as _ => (directives_settles dirs).bind fun ds _ =>
      (Settles.pure (⟨startOf span, startOf span, []⟩ : SelectionSet)).map
        (Selection.field (startOf span) (aliasName.map (·.value)) name.value as ds)).congr (fun t => ?_) fun m => ?_
    · constructor
      · intro h
        cases h with
        | leaf _ harguments hdirectives => exact ⟨_, harguments, _, hdirectives, _, rfl, rfl⟩
        | field hset => cases hset
      · rintro ⟨as, harguments, ds, hdirectives, _, rfl, rfl⟩
        exact .leaf rfl harguments hdirectives
    · rw [Selection.allSelections, List.flatMap_singleton, Selection.ownValues, overflows_append, or_false]
  | .field ⟨aliasName, name, args, dirs, some set, span⟩ => by
    refine ((arguments_settles args).bind fun as _ => (directives_settles dirs).bind fun ds _ =>
      (selectionSet_settles set).map
        (Selection.field (startOf span) (aliasName.map (·.value)) name.value as ds)).congr (fun t => ?_) fun m => ?_
    · constructor
      · intro h
        cases h with
        | leaf hset => cases hset
        | field hset harguments hdirectives h =>
          cases hset
          exact ⟨_, harguments, _, hdirectives, _, h, rfl⟩
      · rintro ⟨as, harguments, ds, hdirectives, _, h, rfl⟩
        exact .field rfl harguments hdirectives h
    · rw [Selection.allSelections, List.flatMap_cons, Selection.ownValues, overflows_append, overflows_append,
        or_assoc]
      rfl
  | .spread s => by
    refine ((directives_settles s.directives).map (Selection.spread (startOf s.span) s.name.value)).congr
      (fun t => ?_) fun m => ?_
    · exact ⟨fun h => by cases h with | spread h => exact ⟨_, h, rfl⟩, fun ⟨ds, h, heq⟩ => heq ▸ .spread h⟩
    · rw [Selection.allSelections, List.flatMap_singleton, Selection.ownValues]
  | .inline ⟨condition, dirs, set, span⟩ => by
    refine ((directives_settles dirs).bind fun ds _ => (selectionSet_settles set).map
      (Selection.inline (startOf span) (condition.map (·.typeName.value)) ds)).congr (fun t => ?_) fun m => ?_
    · constructor
      · intro h
        cases h with
        | inline hdirectives h => exact ⟨_, hdirectives, _, h, rfl⟩
      · rintro ⟨ds, hdirectives, _, h, rfl⟩
        exact .inline hdirectives h
    · rw [Selection.allSelections, List.flatMap_cons, Selection.ownValues, overflows_append]
      rfl

end

/-- What does not fit of a variable: its directives, or integers in its default value. -/
def VariableMisfit (v : GraphQL.VariableDefinition) (m : Misfit) : Prop :=
  v.directives ≠ [] ∧ m = .variableDirectives v.name.value v.span ∨ Overflows v.values m

private theorem defaultValue_settles (v : Option GraphQL.Value) :
    Settles (v.mapM value) (Option.Rel Value.Shows v) (Overflows (v.toList.flatMap (·.all))) := by
  cases v with
  | none =>
    refine (Settles.pure none).congr (fun t => ?_) (by simp [Overflows])
    exact ⟨fun h => by cases h; rfl, fun h => h ▸ .none⟩
  | some v =>
    have hmap : Option.mapM value (some v) = (do return some (← value v)) := rfl
    rw [hmap]
    refine ((value_settles v).map some).congr (fun t => ?_) fun m => by simp
    exact ⟨fun h => by cases h with | some h => exact ⟨_, h, rfl⟩, fun ⟨t, h, heq⟩ => heq ▸ .some h⟩

/-- A variable settles unless it has directives, or its default value does not fit. -/
private theorem variableDefinition_settles (v : GraphQL.VariableDefinition) :
    Settles (variableDefinition v) (VariableDefinition.Shows v) (VariableMisfit v) := by
  cases hdirectives : v.directives with
  | cons d ds =>
    have hthrow : variableDefinition v = .error (.variableDirectives v.name.value v.span) := by
      simp [variableDefinition, hdirectives, bind, Except.bind, throw, throwThe, MonadExceptOf.throw]
    refine ⟨fun t => ⟨fun h => ?_, fun h => ?_⟩, fun m h => ?_, fun t h => ?_⟩
    · rw [hthrow] at h
      cases h
    · cases hdirectives.symm.trans h.directives
    · rw [hthrow] at h
      exact .inl ⟨by simp [hdirectives], (Except.error.inj h).symm⟩
    · cases hdirectives.symm.trans h.directives
  | nil =>
    have hreturn : variableDefinition v = (do
        return ⟨startOf v.span, v.name.value, typeRef v.type, ← v.defaultValue.mapM value⟩) := by
      simp [variableDefinition, hdirectives]
    rw [hreturn]
    refine ((defaultValue_settles v.defaultValue).map
      (VariableDefinition.mk (startOf v.span) v.name.value (typeRef v.type))).congr (fun t => ?_) fun m => ?_
    · constructor
      · intro h
        obtain ⟨place, name, type, default⟩ := t
        obtain ⟨rfl, rfl, htype, hdefault, -⟩ := h
        exact ⟨default, hdefault, by rw [typeRef_eq_iff.2 htype]⟩
      · rintro ⟨default, hdefault, rfl⟩
        exact ⟨rfl, rfl, typeRef_eq_iff.1 rfl, hdefault, hdirectives⟩
    · simp [VariableMisfit, hdirectives, GraphQL.VariableDefinition.values, directiveValues]

/-- An operation settles also where a bare query returns early: it has no variables and no directives to look at. -/
private theorem operation_settles (o : Operation) :
    Settles (operation o) (Definition.Shows (.operation o))
      fun m => Overflows o.selectionSet.values m ∨ (∃ v ∈ o.variableDefinitions, VariableMisfit v m) ∨
        Overflows (directiveValues o.directives) m := by
  have hcond : (o.kind = .query && o.name.isNone && o.variableDefinitions.isEmpty && o.directives.isEmpty) = true ↔
      o.IsBare := by
    simp [Operation.IsBare, and_assoc]
  rw [operation]
  by_cases hbare : o.IsBare
  · simp only [hcond.2 hbare, if_true]
    refine ((selectionSet_settles o.selectionSet).map Definition.bare).congr (fun t => ?_) fun m => ?_
    · constructor
      · intro h
        cases h with
        | bare _ h => exact ⟨_, h, rfl⟩
        | operation hnot => exact absurd hbare hnot
      · rintro ⟨set, h, rfl⟩
        exact .bare hbare h
    · -- there are no variables and directives
      simp [hbare.2.2.1, hbare.2.2.2, directiveValues, Overflows]
  · simp only [mt hcond.1 hbare]
    refine ((selectionSet_settles o.selectionSet).bind fun set _ =>
      (Settles.mapM fun v _ => variableDefinition_settles v).bind fun definitions _ =>
        (directives_settles o.directives).map fun ds =>
          Definition.operation o.kind (startOf o.span) (o.name.map (·.value)) definitions ds set).congr
      (fun t => ?_) fun m => Iff.rfl
    · constructor
      · intro h
        cases h with
        | bare hnot => exact absurd hnot hbare
        | operation _ hdefinitions hdirectives h => exact ⟨_, h, _, hdefinitions, _, hdirectives, rfl⟩
      · rintro ⟨set, h, definitions, hdefinitions, ds, hdirectives, rfl⟩
        exact .operation hbare hdefinitions hdirectives h

private theorem fragment_settles (f : Fragment) :
    Settles (fragment f) (Definition.Shows (.fragment f)) (Overflows (GraphQL.Definition.fragment f).values) := by
  refine ((directives_settles f.directives).bind fun ds _ => (selectionSet_settles f.selectionSet).map
    (Definition.fragment (startOf f.span) f.name.value f.condition.typeName.value ds)).congr (fun t => ?_) fun m => ?_
  · constructor
    · intro h
      cases h with
      | fragment hdirectives h => exact ⟨_, hdirectives, _, h, rfl⟩
    · rintro ⟨ds, hdirectives, set, h, rfl⟩
      exact .fragment hdirectives h
  · rw [GraphQL.Definition.values, overflows_append]

/-- What does not fit of a definition: a variable with directives, or an integer. -/
def DefinitionMisfit (definition : GraphQL.Definition) (m : Misfit) : Prop :=
  (∃ o, definition = .operation o ∧ ∃ v ∈ o.variableDefinitions, v.directives ≠ [] ∧
    m = .variableDirectives v.name.value v.span) ∨ Overflows definition.values m

/-- A definition settles to the one definition that shows it, unless something in it does not fit. -/
private theorem definition_settles (d : GraphQL.Definition) :
    Settles (definition d) (Definition.Shows d) (DefinitionMisfit d) := by
  cases d with
  | operation o =>
    refine (operation_settles o).congr (fun _ => Iff.rfl) fun m => ?_
    simp only [DefinitionMisfit, GraphQL.Definition.operation.injEq, exists_eq_left', GraphQL.Definition.values,
      overflows_append, overflows_flatMap, VariableMisfit, and_or_left, exists_or]
    simp only [or_assoc, or_comm, or_left_comm]
  | fragment f => exact (fragment_settles f).congr (fun _ => Iff.rfl) fun m => by simp [DefinitionMisfit]

/-! ### Selection sets of fields -/

mutual

/-- The selection sets of the fields in a selection set, nested ones included. -/
def SelectionSet.fieldSets : SelectionSet → List SelectionSet
  | ⟨_, _, items⟩ => fieldSetsOf items

def fieldSetsOf : List Selection → List SelectionSet
  | [] => []
  | s :: rest => s.fieldSets ++ fieldSetsOf rest

def Selection.fieldSets : Selection → List SelectionSet
  | .field _ _ _ _ _ set => set :: set.fieldSets
  | .spread .. => []
  | .inline _ _ _ set => set.fieldSets

end

namespace Definition

def selectionSet : Definition → SelectionSet
  | bare set => set
  | operation _ _ _ _ _ set => set
  | fragment _ _ _ _ set => set

end Definition

/-- Whether a field selects nothing inside it. -/
def IsLeaf (f : Field) : Bool := f.selectionSet.all (·.selections.isEmpty)

private theorem SelectionSet.Shows.isEmpty {set : GraphQL.SelectionSet} {t : SelectionSet}
    (h : SelectionSet.Shows set t) :
    t.items.isEmpty = set.selections.isEmpty := by
  obtain ⟨h⟩ := h
  rw [Bool.eq_iff_iff, List.isEmpty_iff_length_eq_zero, List.isEmpty_iff_length_eq_zero, h.length_eq]

mutual

/-- A field is shown with an empty selection set if and only if it selects nothing. -/
private theorem isEmpty_fieldSets : (set : GraphQL.SelectionSet) → ∀ {t}, SelectionSet.Shows set t →
    t.fieldSets.map (·.items.isEmpty) = (set.allSelections.filterMap Selection.field?).map IsLeaf
  | ⟨items, span⟩, _, .mk h => isEmpty_fieldSetsOf items h

private theorem isEmpty_fieldSetsOf : (items : List GraphQL.Selection) → ∀ {ts}, List.Forall₂ Selection.Shows items ts →
    (fieldSetsOf ts).map (·.items.isEmpty) = ((allOfSelections items).filterMap Selection.field?).map IsLeaf
  | [], _, .nil => rfl
  | s :: rest, _, .cons h hs => by
    rw [fieldSetsOf, allOfSelections, List.map_append, List.filterMap_append, List.map_append,
      isEmpty_fieldSets_selection s h, isEmpty_fieldSetsOf rest hs]

private theorem isEmpty_fieldSets_selection : (s : GraphQL.Selection) → ∀ {t}, Selection.Shows s t →
    t.fieldSets.map (·.items.isEmpty) = (s.allSelections.filterMap Selection.field?).map IsLeaf
  | .field ⟨aliasName, name, args, dirs, none, span⟩, _, .leaf .. => rfl
  | .field ⟨aliasName, name, args, dirs, some set, span⟩, _, .field rfl _ _ h =>
    congrArg₂ List.cons h.isEmpty (isEmpty_fieldSets set h)
  | .spread _, _, .spread _ => rfl
  | .inline ⟨condition, dirs, set, span⟩, _, .inline _ h => isEmpty_fieldSets set h

end

private theorem isEmpty_fieldSets_definition {d : GraphQL.Definition} {t : Definition} (h : Definition.Shows d t) :
    t.selectionSet.fieldSets.map (·.items.isEmpty) =
      (d.selectionSet.allSelections.filterMap Selection.field?).map IsLeaf := by
  cases h with
  | bare _ h | operation _ _ _ h | fragment _ h => exact isEmpty_fieldSets _ h

private theorem isEmpty_fieldSets_definitions {ds : List GraphQL.Definition} {ts : List Definition}
    (h : List.Forall₂ Definition.Shows ds ts) : (ts.flatMap (·.selectionSet.fieldSets)).map (·.items.isEmpty) =
      ((ds.flatMap (·.selectionSet.allSelections)).filterMap Selection.field?).map IsLeaf := by
  induction h with
  | nil => rfl
  | cons hdefinition _ ih =>
    rw [List.flatMap_cons, List.flatMap_cons, List.map_append, List.filterMap_append, List.map_append, ih,
      isEmpty_fieldSets_definition hdefinition]

end QueryTree

/-- What of a document has no place in a query tree: a variable with directives, or an integer literal that writes no
integer of 32 bits. -/
inductive Document.HasMisfit (d : Document) : QueryTree.Misfit → Prop where
  | variableDirectives {o : Operation} {v : VariableDefinition} (ho : o ∈ d.operations)
    (hv : v ∈ o.variableDefinitions) (h : v.directives ≠ []) : HasMisfit d (.variableDirectives v.name.value v.span)
  | intOutOfRange {raw : String} {span : Span} (hmem : .int raw span ∈ d.values)
    (h : ¬∃ n, Number.WritesInt raw.toList n ∧ Number.IsInt32 n) : HasMisfit d (.intOutOfRange raw span)

namespace Document

open QueryTree

/-- A document settles to the one tree that shows it, unless something in it does not fit. -/
theorem toQueryTree_settles (d : Document) :
    Settles d.toQueryTree (List.Forall₂ Definition.Shows d.definitions) d.HasMisfit := by
  refine (Settles.mapM fun x _ => definition_settles x).congr (fun _ => Iff.rfl) fun m => ?_
  constructor
  · rintro (⟨ho, hv, h⟩ | ⟨hmem, h⟩)
    · exact ⟨_, mem_operations.1 ho, .inl ⟨_, rfl, _, hv, h, rfl⟩⟩
    · obtain ⟨x, hx, hmem⟩ := List.mem_flatMap.1 hmem
      exact ⟨x, hx, .inr ⟨_, _, hmem, h, rfl⟩⟩
  · rintro ⟨x, hx, ⟨o, rfl, v, hv, h, rfl⟩ | ⟨raw, span, hmem, h, rfl⟩⟩
    · exact .variableDirectives (mem_operations.2 hx) hv h
    · exact .intOutOfRange (List.mem_flatMap.2 ⟨x, hx, hmem⟩) h

/-- Where no selection set of a field is empty, the fields without one are those shown with an empty one. -/
theorem isEmpty_fieldSets {d : Document} (hd : ∀ s ∈ d.selections, ∀ set ∈ s.children, set.selections ≠ [])
    {ts : List QueryTree.Definition} (h : List.Forall₂ Definition.Shows d.definitions ts) :
    (ts.flatMap (·.selectionSet.fieldSets)).map (·.items.isEmpty) =
      (d.selections.filterMap Selection.field?).map (·.selectionSet.isNone) := by
  have hleaf : (d.selections.filterMap Selection.field?).map IsLeaf =
      (d.selections.filterMap Selection.field?).map (·.selectionSet.isNone) := by
    refine List.map_congr_left fun f hf => ?_
    obtain ⟨s, hs, hfield⟩ := List.mem_filterMap.1 hf
    cases s with
    | field g =>
      obtain rfl : g = f := Option.some.inj hfield
      cases hset : g.selectionSet with
      | none => simp [IsLeaf, hset]
      | some set => simpa [IsLeaf, hset] using hd _ hs set hset
    | spread | inline => cases hfield
  rw [← hleaf, selections]
  exact isEmpty_fieldSets_definitions h

/-- A document fails to be shown if and only if a variable of it has directives or an integer of it takes more than
32 bits, wherever that stands, and the first failure that is reported is one of these. Otherwise it has just the query
tree that shows it, in which a float is the double nearest to what is written, and a field has an empty selection set
exactly if it was written without one. -/
theorem toQueryTree_faithful (d : Document) :
    ((∃ m, d.toQueryTree = .error m) ↔ ∃ m, d.HasMisfit m) ∧ (∀ m, d.toQueryTree = .error m → d.HasMisfit m) ∧
    (∀ ts, d.toQueryTree = .ok ts ↔ List.Forall₂ Definition.Shows d.definitions ts) ∧
    ∀ source, Document.parse source = .ok d →
      (∀ raw span, .int raw span ∈ d.values → ∃ n, Number.WritesInt raw.toList n ∧
        (d.HasMisfit (.intOutOfRange raw span) ↔ ¬Number.IsInt32 n)) ∧
      (∀ raw span, .float raw span ∈ d.values → ∃ x, Number.WritesDouble raw.toList x) ∧
      ∀ ts, d.toQueryTree = .ok ts → (ts.flatMap (·.selectionSet.fieldSets)).map (·.items.isEmpty) =
        (d.selections.filterMap Selection.field?).map (·.selectionSet.isNone) := by
  have hsettles := d.toQueryTree_settles
  refine ⟨⟨fun ⟨m, h⟩ => ⟨m, hsettles.error m h⟩, fun ⟨m, h⟩ => ?_⟩, hsettles.error, hsettles.ok,
    fun source h => ⟨?_, ?_, ?_⟩⟩
  · cases houtcome : d.toQueryTree with
    | error m' => exact ⟨m', rfl⟩
    | ok ts => exact absurd h (hsettles.fits ts ((hsettles.ok ts).1 houtcome) m)
  · intro raw span hmem
    obtain ⟨n, hn⟩ := writes_int h hmem
    refine ⟨n, hn, fun hmisfit h32 => ?_, fun h32 => .intOutOfRange hmem ?_⟩
    · cases hmisfit with
      | intOutOfRange _ hnot => exact hnot ⟨n, hn, h32⟩
    · -- a text writes one integer only
      rintro ⟨n', hn', h32'⟩
      obtain rfl := Option.some.inj ((Number.intOf?_eq_some_iff.2 hn).symm.trans (Number.intOf?_eq_some_iff.2 hn'))
      exact h32 h32'
  · intro raw span hmem
    obtain ⟨q, hq⟩ := writes_decimal h hmem
    obtain ⟨decimal, hdecimal, -⟩ := Number.exists_decimalOfLiteral?_iff.2 hq
    exact ⟨_, Number.writesDouble_iff.2 ⟨decimal, hdecimal, rfl⟩⟩
  · intro ts hts
    exact isEmpty_fieldSets (fun s hs set hset => children_ne_nil h hs hset) ((hsettles.ok ts).1 hts)

/-- Whether an integer written so is reported. -/
def reportsInt (text : String) : Except Misfit (List QueryTree.Definition) → Bool
  | .error (.intOutOfRange raw _) => raw = text
  | _ => false

set_option maxRecDepth 20000 in
/-- A field is shown with an empty selection set when it has none, and an integer of 33 bits is reported wherever it
stands. -/
theorem toQueryTree_of_nested :
    (∃ d ts, Document.parse "\x7b a(x: 7) \x7b b \x7d \x7d" = .ok d ∧ List.Forall₂ Definition.Shows d.definitions ts ∧
      (d.selections.filterMap Selection.field?).map (·.selectionSet.isNone) = [false, true]) ∧
    ∃ d span n, Document.parse "\x7b a \x7b b @c(x: [\x7by: 4294967296\x7d]) \x7d \x7d" = .ok d ∧
      d.toQueryTree = .error (.intOutOfRange "4294967296" span) ∧ .int "4294967296" span ∈ d.values ∧
      Number.WritesInt "4294967296".toList n ∧ ¬Number.IsInt32 n := by
  constructor
  · obtain ⟨d, hd, hcheck⟩ : ∃ d, Document.parse "\x7b a(x: 7) \x7b b \x7d \x7d" = .ok d ∧
        d.toQueryTree.toOption.any fun ts =>
          (ts.flatMap (·.selectionSet.fieldSets)).map (·.items.isEmpty) = [false, true] :=
      Document.exists_of_run String.toList_ofList (by decide +kernel)
    cases hts : d.toQueryTree with
    | error m => simp [hts, Except.toOption] at hcheck
    | ok ts =>
      obtain ⟨-, -, hshows, hparsed⟩ := toQueryTree_faithful d
      refine ⟨d, ts, hd, (hshows ts).1 hts, ?_⟩
      rw [← (hparsed _ hd).2.2 ts hts]
      simpa [hts, Except.toOption] using hcheck
  · obtain ⟨d, hd, hcheck⟩ : ∃ d,
        Document.parse "\x7b a \x7b b @c(x: [\x7by: 4294967296\x7d]) \x7d \x7d" = .ok d ∧
        reportsInt "4294967296" d.toQueryTree :=
      Document.exists_of_run String.toList_ofList (by decide +kernel)
    cases houtcome : d.toQueryTree with
    | ok ts => simp [houtcome, reportsInt] at hcheck
    | error m =>
      rw [houtcome] at hcheck
      obtain ⟨-, herror, -, hparsed⟩ := toQueryTree_faithful d
      cases herror m houtcome with
      | variableDirectives => cases hcheck
      | @intOutOfRange raw span hmem hnot =>
        obtain rfl : raw = "4294967296" := of_decide_eq_true hcheck
        obtain ⟨n, hn, hiff⟩ := (hparsed _ hd).1 _ _ hmem
        exact ⟨d, span, n, hd, houtcome, hmem, hn, hiff.1 (.intOutOfRange hmem hnot)⟩

end Document

end GraphQL
