import GraphQL.Proofs.InterfaceWalk
import GraphQL.Proofs.Worklist

/-!
# Conformance to all interfaces

What a type owes to the interfaces that it reaches through others (`TypeDefinition.ConformsThroughout`) comes down to
what it owes to those it names: it names the interfaces of each of them, so that there is nothing further to reach
(`TypeDefinition.ReachesInterface.named_of_conforms`). Hence the walk over interfaces finds nothing exactly when the
type conforms throughout. Every interface is entered once at most, also where interfaces lead back to each other, and
so the walk ends after as many tasks as there are interfaces of interfaces, all counted (`conformance_decided`).
-/

namespace GraphQL

open Named

/-- The type names the interface, or an interface that it reaches names it. -/
inductive TypeDefinition.ReachesInterface (types : List TypeDefinition) (t : TypeDefinition) : String → Prop where
  | named {name : String} (h : t.implements name) : ReachesInterface types t name
  | through {name other : String} {i : TypeDefinition} (h : ReachesInterface types t name)
    (hi : find? types name = some i) (hother : i.implements other) : ReachesInterface types t other

/-- A field can take the place of the field `required` of an interface: its type is a subtype, it has the parameters
of the other with equivalent types, and requires no further ones. -/
structure FieldDefinition.Fulfils (types : List TypeDefinition) (f required : FieldDefinition) : Prop where
  type : isSubtype types f.type required.type
  parameters : ∀ p ∈ required.arguments, ∃ q, find? f.arguments p.name.value = some q ∧ q.type.equivalent p.type
  additional : ∀ q ∈ f.arguments, contains required.arguments q.name.value = false → q.isRequired = false

/-- The type does not reach itself. What it reaches is an interface, of which it names the interfaces and fulfils the
fields. -/
structure TypeDefinition.ConformsThroughout (types : List TypeDefinition) (t : TypeDefinition) : Prop where
  acyclic : ¬ t.ReachesInterface types t.name.value
  interfaces : ∀ name, t.ReachesInterface types name → ∃ i, find? types name = some i ∧ i.kind = .interface
  named : ∀ name i, t.ReachesInterface types name → find? types name = some i →
    ∀ c ∈ i.interfaces, t.implements c.value
  fields : ∀ name i, t.ReachesInterface types name → find? types name = some i →
    ∀ required ∈ i.fields, ∃ f, find? t.fields required.name.value = some f ∧ f.Fulfils types required

variable {types : List TypeDefinition} {t : TypeDefinition}

private theorem fieldConformanceFaults_eq_nil_iff {interface : String} {required f : FieldDefinition} :
    fieldConformanceFaults types t interface required f = [] ↔ f.Fulfils types required := by
  unfold fieldConformanceFaults
  rw [List.append_eq_nil_iff, List.append_eq_nil_iff]
  refine (and_congr (and_congr ?parameters ?additional) ?type).trans
    ⟨fun ⟨⟨hparameters, hadditional⟩, htype⟩ => ⟨htype, hparameters, hadditional⟩,
      fun h => ⟨⟨h.parameters, h.additional⟩, h.type⟩⟩
  case parameters =>
    rw [List.flatMap_eq_nil_iff]
    refine forall₂_congr fun p _ => ?_
    cases find? f.arguments p.name.value <;> simp
  case additional =>
    rw [List.map_eq_nil_iff, List.filter_eq_nil_iff]
    refine forall₂_congr fun q _ => ?_
    cases contains required.arguments q.name.value <;> simp
  case type => simp

/-- The fields of one interface are met if the type has a field for each that can take its place. -/
private theorem interfaceFieldFaults_eq_nil_iff {i : TypeDefinition} : interfaceFieldFaults types t i = [] ↔
    ∀ required ∈ i.fields, ∃ f, find? t.fields required.name.value = some f ∧ f.Fulfils types required := by
  rw [interfaceFieldFaults, List.flatMap_eq_nil_iff]
  refine forall₂_congr fun required _ => ?_
  cases find? t.fields required.name.value with
  | none => simp
  | some f => simp [fieldConformanceFaults_eq_nil_iff]

/-- A type that conforms to the interfaces it names reaches no others. -/
theorem TypeDefinition.ReachesInterface.named_of_conforms (h : t.Conforms types) {name : String}
    (hname : t.ReachesInterface types name) : t.implements name := by
  induction hname with
  | named hname => exact hname
  | through _ hi hother ih =>
    obtain ⟨i, -, hfind, -, hnamed, -⟩ := conformsTo_iff.1 (h _ (mem_names.2 ih))
    obtain rfl := Option.some.inj (hi.symm.trans hfind)
    exact hnamed _ (mem_names.2 hother)

private theorem TypeDefinition.conforms_iff_conformsThroughout : t.Conforms types ↔ t.ConformsThroughout types := by
  constructor
  · intro h
    have hreached {name : String} (hname : t.ReachesInterface types name) : ∃ i, name ≠ t.name.value ∧
        find? types name = some i ∧ i.kind = .interface ∧ (∀ c ∈ names i.interfaces, t.implements c) ∧
        interfaceFieldFaults types t i = [] :=
      conformsTo_iff.1 (h name (mem_names.2 (hname.named_of_conforms h)))
    constructor
    case acyclic =>
      intro hself
      obtain ⟨i, hne, -⟩ := hreached hself
      exact hne rfl
    case interfaces =>
      intro name hname
      obtain ⟨i, -, hi, hkind, -⟩ := hreached hname
      exact ⟨i, hi, hkind⟩
    case named =>
      intro name i hname hi c hc
      exact (ReachesInterface.through hname hi (mem_names.1 (List.mem_map_of_mem hc))).named_of_conforms h
    case fields =>
      intro name i hname hi
      obtain ⟨j, -, hj, -, -, hfields⟩ := hreached hname
      obtain rfl := Option.some.inj (hi.symm.trans hj)
      exact interfaceFieldFaults_eq_nil_iff.1 hfields
  · intro h name hname
    have hreached : t.ReachesInterface types name := .named (mem_names.1 hname)
    obtain ⟨i, hi, hkind⟩ := h.interfaces name hreached
    refine conformsTo_iff.2 ⟨i, ?_, hi, hkind, ?_, interfaceFieldFaults_eq_nil_iff.2 (h.fields name i hreached hi)⟩
    · rintro rfl
      exact h.acyclic hreached
    · exact List.forall_mem_map.2 (h.named name i hreached hi)

/-- One task of the walk over the interfaces of `t`; the state holds the names not looked at yet. -/
def interfaceStep (types : List TypeDefinition) (t : TypeDefinition) (unseen : List String) :
    InterfaceTask → WalkStep (List String) InterfaceTask SchemaFault
  | .compare interface => ⟨interfaceFieldFaults types t interface, unseen, []⟩
  | .enter path name =>
    if name ∈ unseen then
      match implementedInterface types t name with
      | .error cause => ⟨[⟨cause, [implementsSpan t name]⟩], unseen.erase name, []⟩
      | .ok interface =>
        ⟨missingInterfaceFaults t interface (path ++ [name]), unseen.erase name,
          (interfaceOrder interface.interfaces).map (.enter (path ++ [name])) ++ [.compare interface]⟩
    else ⟨[], unseen, []⟩

private theorem doesTasks_interfaceStep : DoesTasks (interfaceStep types t) (walkInterfaces types t) where
  nil _ := by rw [walkInterfaces]
  cons unseen task tasks := by
    cases task with
    | compare i => rw [walkInterfaces, interfaceStep, List.nil_append]
    | enter path name =>
      rw [walkInterfaces, interfaceStep]
      by_cases hname : name ∈ unseen
      · rw [dif_pos hname, if_pos hname]
        cases implementedInterface types t name with
        | error cause => rfl
        | ok i => simp only [List.append_assoc, List.cons_append, List.nil_append]
      · rw [dif_neg hname, if_neg hname]
        rfl

/-- The tasks that come of entering an interface: to enter each of its own, and to compare its fields. -/
def interfaceSize (types : List TypeDefinition) (name : String) : Nat :=
  (find? types name).elim 0 (·.interfaces.length + 1)

/-- The tasks that come of entering interfaces that have not been looked at. -/
def interfaceWork (types : List TypeDefinition) (unseen : List String) : Nat :=
  (unseen.map (interfaceSize types)).sum

private theorem length_next_interfaceStep (unseen : List String) (task : InterfaceTask) :
    interfaceWork types (interfaceStep types t unseen task).state + (interfaceStep types t unseen task).next.length ≤
      interfaceWork types unseen := by
  unfold interfaceWork
  cases task with
  | compare i => exact Nat.le_refl _
  | enter path name =>
    rw [interfaceStep]
    split
    · rename_i hname
      have hsum := List.sum_map_erase (interfaceSize types) hname
      split
      · simp only [List.length_nil]
        omega
      · rename_i i himplemented
        obtain ⟨-, hi, -⟩ := implementedInterface_eq_ok_iff.1 himplemented
        have hsize : interfaceSize types name = i.interfaces.length + 1 := by rw [interfaceSize, hi, Option.elim]
        have hlength : (interfaceOrder i.interfaces).length = i.interfaces.length := by
          simp [interfaceOrder, names]
        simp only [List.length_append, List.length_map, List.length_singleton, hlength]
        omega
    · exact Nat.le_refl _

/-- The walk over the interfaces of a type finds nothing exactly when the type conforms to all that it reaches, and
ends after no more tasks than the type has interfaces and all interfaces have in turn, with one more for each. -/
theorem conformance_decided (types : List TypeDefinition) (t : TypeDefinition) :
    (conformanceFaults types t = [] ↔ t.ConformsThroughout types) ∧
    ∀ n, t.interfaces.length + interfaceWork types (interfaceNames (t :: types)) ≤ n →
      walkWithin (interfaceStep types t) n (interfaceNames (t :: types))
        ((interfaceOrder t.interfaces).map (.enter [])) = some (conformanceFaults types t) := by
  refine ⟨conformanceFaults_eq_nil_iff.trans TypeDefinition.conforms_iff_conformsThroughout, fun n hn => ?_⟩
  refine doesTasks_interfaceStep.walkWithin_eq length_next_interfaceStep ?_
  simpa [interfaceOrder, names] using hn

/-- A type with a field of its own type. -/
def TypeDefinition.withSelf (name : String) (interfaces : List String)
    (body : List Name → List FieldDefinition → TypeBody) : TypeDefinition :=
  ⟨none, ⟨name, .nowhere⟩, [], body (interfaces.map fun i => ⟨i, .nowhere⟩)
    [⟨none, ⟨"self", .nowhere⟩, [], .named ⟨name, .nowhere⟩ true .nowhere, [], .nowhere⟩], .nowhere⟩

/-- Of two interfaces that implement each other neither conforms, but an object that implements both does. -/
theorem conformance_decided_of_cycle :
    let a := TypeDefinition.withSelf "A" ["B"] .interface
    let b := TypeDefinition.withSelf "B" ["A"] .interface
    let t := TypeDefinition.withSelf "T" ["B", "A"] .object
    let types := [a, b, t]
    (conformanceFaults types t = [] ∧ t.ConformsThroughout types ∧
      walkWithin (interfaceStep types t) 6 (interfaceNames (t :: types))
        ((interfaceOrder t.interfaces).map (.enter [])) = some []) ∧
    a.ReachesInterface types "A" ∧ conformanceFaults types a ≠ [] := by
  intro a b t types
  have hnone : conformanceFaults types t = [] := conformanceFaults_eq_nil_iff.2 (by decide +kernel)
  obtain ⟨hiff, hends⟩ := conformance_decided types t
  have hb : a.ReachesInterface types "B" := .named (by decide)
  have hself : a.ReachesInterface types "A" := .through hb (i := b) rfl (by decide)
  refine ⟨⟨hnone, hiff.1 hnone, ?_⟩, hself, fun h => ?_⟩
  · rw [hends 6 (by decide +kernel), hnone]
  · exact ((conformance_decided types a).1.1 h).acyclic hself

end GraphQL
