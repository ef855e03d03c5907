import GraphQL.Proofs.NamedOrder
import GraphQL.Schema.Conformance

/-!
# What the walk over interfaces decides

The walk from a type visits every interface that the type names, directly or through others, and finds nothing
exactly when the type conforms to each one it names itself: the interface is another type, its own interfaces are
named by the type as well, and its fields are met (`conformanceFaults_eq_nil_iff`). So there is no need to look
further than one step, although the walk does.
-/

namespace GraphQL

/-- The type may implement the interface called `name`, and meets its fields. -/
def TypeDefinition.ConformsTo (types : List TypeDefinition) (t : TypeDefinition) (name : String) : Prop :=
  ∃ i ∈ (implementedInterface types t name).toOption,
    (∀ c ∈ Named.names i.interfaces, t.implements c) ∧ interfaceFieldFaults types t i = []

instance (types : List TypeDefinition) (t : TypeDefinition) (name : String) :
    Decidable (t.ConformsTo types name) :=
  inferInstanceAs (Decidable (∃ i ∈ (implementedInterface types t name).toOption, _ ∧ _))

/-- The type conforms to every interface it names. -/
def TypeDefinition.Conforms (types : List TypeDefinition) (t : TypeDefinition) : Prop :=
  ∀ name ∈ Named.names t.interfaces, t.ConformsTo types name

instance (types : List TypeDefinition) (t : TypeDefinition) : Decidable (t.Conforms types) :=
  inferInstanceAs (Decidable (∀ name ∈ Named.names t.interfaces, _))

variable {types : List TypeDefinition} {t : TypeDefinition}

/-- A name leads to an interface if it is the name of one, and not that of the type itself. -/
theorem implementedInterface_eq_ok_iff {name : String} {i : TypeDefinition} :
    implementedInterface types t name = .ok i ↔
      name ≠ t.name.value ∧ Named.find? types name = some i ∧ i.kind = .interface := by
  unfold implementedInterface
  by_cases hself : name = t.name.value
  · simp [hself]
  · cases Named.find? types name with
    | none => simp [hself]
    | some u =>
      by_cases hkind : u.kind = .interface
      · simp only [hself, if_false, hkind, if_true, Except.ok.injEq, ne_eq, not_false_eq_true, true_and,
          Option.some.injEq]
        exact ⟨fun h => ⟨h, h ▸ hkind⟩, And.left⟩
      · simp only [hself, if_false, hkind, reduceCtorEq, ne_eq, not_false_eq_true, true_and, Option.some.injEq,
          false_iff, not_and]
        rintro rfl
        exact hkind

private theorem mem_toOption_implementedInterface_iff {name : String} {i : TypeDefinition} :
    i ∈ (implementedInterface types t name).toOption ↔
      name ≠ t.name.value ∧ Named.find? types name = some i ∧ i.kind = .interface := by
  rw [← implementedInterface_eq_ok_iff]
  cases implementedInterface types t name <;> simp [Except.toOption, eq_comm]

/-- What conformance to one interface says. -/
theorem TypeDefinition.conformsTo_iff {name : String} : t.ConformsTo types name ↔
    ∃ i, name ≠ t.name.value ∧ Named.find? types name = some i ∧ i.kind = .interface ∧
      (∀ c ∈ Named.names i.interfaces, t.implements c) ∧ interfaceFieldFaults types t i = [] := by
  simp only [ConformsTo, mem_toOption_implementedInterface_iff, and_assoc]

private theorem mem_interfaceOrder {interfaces : List Name} {name : String} :
    name ∈ interfaceOrder interfaces ↔ name ∈ Named.names interfaces := by
  simp [interfaceOrder]

private theorem mem_interfaceNames {name : String} (ht : t ∈ types) (h : name ∈ Named.names t.interfaces) :
    name ∈ interfaceNames types :=
  List.mem_eraseDups.2 (List.mem_flatMap.2 ⟨t, ht, h⟩)

private theorem nodup_eraseDups (names : List String) : names.eraseDups.Nodup := by
  induction h : names.length using Nat.strongRecOn generalizing names with
  | ind n ih =>
    cases names with
    | nil => simp
    | cons name names =>
      rw [List.eraseDups_cons, List.nodup_cons]
      refine ⟨by simp [List.mem_eraseDups], ih _ ?_ _ rfl⟩
      have := List.length_filter_le (fun other => !other == name) names
      rw [← h, List.length_cons]
      omega

private theorem implements_of_missingInterfaceFaults {i : TypeDefinition} {path : List String}
    (h : missingInterfaceFaults t i path = []) {name : String} (hname : name ∈ Named.names i.interfaces)
    (hne : name ≠ t.name.value) : t.implements name := by
  have hnone := List.filter_eq_nil_iff.1 (List.map_eq_nil_iff.1 h) name (mem_interfaceOrder.2 hname)
  simpa [hne] using hnone

private theorem missingInterfaceFaults_eq_nil {i : TypeDefinition} (path : List String)
    (h : ∀ c ∈ Named.names i.interfaces, t.implements c) : missingInterfaceFaults t i path = [] := by
  refine List.map_eq_nil_iff.2 (List.filter_eq_nil_iff.2 fun c hc => ?_)
  simp [h c (mem_interfaceOrder.1 hc)]

/-- What the walk has made sure of for a name it looked at; the names in `left` have not been looked at. -/
private def Passes (types : List TypeDefinition) (t : TypeDefinition) (left : List String) (name : String) : Prop :=
  ∃ i path, implementedInterface types t name = .ok i ∧ missingInterfaceFaults t i path = [] ∧
    interfaceFieldFaults types t i = [] ∧ ∀ c ∈ Named.names i.interfaces, c ∉ left

/-- The names that a walk without findings leaves unseen: none is of a task, and all others pass. -/
private theorem exists_left_of_walkInterfaces {unseen : List String} {tasks : List InterfaceTask}
    (hnodup : unseen.Nodup) (h : walkInterfaces types t unseen tasks = []) :
    ∃ left ⊆ unseen, (∀ path name, .enter path name ∈ tasks → name ∉ left) ∧
      (∀ i, .compare i ∈ tasks → interfaceFieldFaults types t i = []) ∧
      ∀ name ∈ unseen, name ∉ left → Passes types t left name := by
  fun_induction walkInterfaces types t unseen tasks with
  | case1 unseen => exact ⟨unseen, List.Subset.refl _, by simp, by simp, fun _ hn hl => absurd hn hl⟩
  | case2 unseen i tasks ih =>
    obtain ⟨hi, hrest⟩ := List.append_eq_nil_iff.1 h
    obtain ⟨left, hsub, henter, hcompare, hpass⟩ := ih hnodup hrest
    refine ⟨left, hsub, by simpa using henter, ?_, hpass⟩
    simpa using ⟨hi, hcompare⟩
  | case3 => simp at h
  | case4 unseen path name tasks hname rest i himplemented path' ih =>
    obtain ⟨hmissing, hrest⟩ := List.append_eq_nil_iff.1 h
    obtain ⟨left, hsub, henter, hcompare, hpass⟩ := ih (hnodup.erase name) hrest
    -- the name is taken off the unseen ones for good
    have hnot : name ∉ left := fun hl => hnodup.not_mem_erase (hsub hl)
    refine ⟨left, fun n hn => List.mem_of_mem_erase (hsub hn), ?_, ?_, ?_⟩
    · intro path n hn
      rcases List.mem_cons.1 hn with heq | hn
      · cases heq
        exact hnot
      · exact henter path n (List.mem_append_right _ (List.mem_cons_of_mem _ hn))
    · intro j hj
      have hj : InterfaceTask.compare j ∈ tasks := by simpa using hj
      exact hcompare j (List.mem_append_right _ (List.mem_cons_of_mem _ hj))
    · intro n hn hl
      by_cases hne : n = name
      · subst hne
        refine ⟨i, path', himplemented, hmissing, hcompare i (by simp), fun c hc => henter path' c ?_⟩
        exact List.mem_append_left _ (List.mem_map_of_mem (mem_interfaceOrder.2 hc))
      · exact hpass n ((List.mem_erase_of_ne hne).2 hn) hl
  | case5 unseen path name tasks hname ih =>
    obtain ⟨left, hsub, henter, hcompare, hpass⟩ := ih hnodup h
    refine ⟨left, hsub, ?_, by simpa using hcompare, hpass⟩
    intro path' n hn
    rcases List.mem_cons.1 hn with heq | hn
    · cases heq
      exact fun hl => hname (hsub hl)
    · exact henter path' n hn

/-- A type that conforms to the interfaces it names keeps the walk among these. -/
private theorem walkInterfaces_eq_nil {unseen : List String} {tasks : List InterfaceTask} (h : t.Conforms types)
    (henter : ∀ path name, .enter path name ∈ tasks → name ∈ Named.names t.interfaces)
    (hcompare : ∀ i, .compare i ∈ tasks → interfaceFieldFaults types t i = []) :
    walkInterfaces types t unseen tasks = [] := by
  fun_induction walkInterfaces types t unseen tasks with
  | case1 => rfl
  | case2 unseen i tasks ih =>
    rw [hcompare i (by simp), List.nil_append]
    exact ih (fun path name hn => henter path name (List.mem_cons_of_mem _ hn))
      fun j hj => hcompare j (List.mem_cons_of_mem _ hj)
  | case3 unseen path name tasks hname rest cause herror ih =>
    obtain ⟨i, hi, -⟩ := h name (henter path name (by simp))
    simp [herror, Except.toOption] at hi
  | case4 unseen path name tasks hname rest i himplemented path' ih =>
    obtain ⟨j, hj, hinterfaces, hfields⟩ := h name (henter path name (by simp))
    obtain rfl : i = j := by simpa [himplemented, Except.toOption] using hj
    rw [missingInterfaceFaults_eq_nil path' hinterfaces, List.nil_append]
    refine ih ?_ ?_
    · intro p n hn
      rcases List.mem_append.1 hn with hn | hn
      · obtain ⟨c, hc, heq⟩ := List.mem_map.1 hn
        cases heq
        exact Named.mem_names.2 (hinterfaces n (mem_interfaceOrder.1 hc))
      · exact henter p n (by simpa using Or.inr hn)
    · intro k hk
      rcases List.mem_append.1 hk with hk | hk
      · simp at hk
      · rcases List.mem_cons.1 hk with heq | hk
        · cases heq
          exact hfields
        · exact hcompare k (List.mem_cons_of_mem _ hk)
  | case5 unseen path name tasks hname ih =>
    exact ih (fun path name hn => henter path name (List.mem_cons_of_mem _ hn))
      fun j hj => hcompare j (List.mem_cons_of_mem _ hj)

/-- The walk over the interfaces of a type finds nothing exactly when the type conforms to those it names. -/
theorem conformanceFaults_eq_nil_iff : conformanceFaults types t = [] ↔ t.Conforms types := by
  constructor
  · intro h name hname
    obtain ⟨left, -, henter, -, hpass⟩ := exists_left_of_walkInterfaces (nodup_eraseDups _) h
    have hpasses {n : String} {u : TypeDefinition} (hu : u ∈ t :: types) (hn : n ∈ Named.names u.interfaces)
        (hl : n ∉ left) : Passes types t left n := hpass n (mem_interfaceNames hu hn) hl
    have hleft : name ∉ left := henter [] name (List.mem_map_of_mem (mem_interfaceOrder.2 hname))
    obtain ⟨i, path, himplemented, hmissing, hfields, hinner⟩ := hpasses (List.mem_cons_self ..) hname hleft
    have himplements := implementedInterface_eq_ok_iff.1 himplemented
    refine ⟨i, mem_toOption_implementedInterface_iff.2 himplements, fun c hc => ?_, hfields⟩
    -- an interface of the interface has been looked at as well, so that it is not the type itself
    have hi : i ∈ t :: types := List.mem_cons_of_mem _ (List.mem_of_find?_eq_some himplements.2.1)
    obtain ⟨j, -, hj, -⟩ := hpasses hi hc (hinner c hc)
    exact implements_of_missingInterfaceFaults hmissing hc (implementedInterface_eq_ok_iff.1 hj).1
  · intro h
    refine walkInterfaces_eq_nil h (fun path name hn => ?_) (by simp)
    obtain ⟨c, hc, heq⟩ := List.mem_map.1 hn
    cases heq
    exact mem_interfaceOrder.1 hc

end GraphQL
