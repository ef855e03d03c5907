import GraphQL.Proofs.SchemaReferences
import Mathlib.Logic.Relation

/-!
# Input objects that require themselves

An input object requires another one where it has a field of that type which is neither nullable nor a list
(`TypeDefinition.Requires`). The search for a chain of such fields passes no type twice on its way, yet it finds one
wherever there is one: a chain that comes back to a type can leave out the round trip
(`RequiredChain.exists_without`). So a fault is reported exactly for the input objects that require themselves, with
a chain that shows it, and a schema that is built has none (`Schema.input_cycles_found`).
-/

namespace GraphQL

open Named

private theorem TypeRef.requiredName?_eq_some_iff {type : TypeRef} {name : String} :
    type.requiredName? = some name ↔ ∃ n span, type = .named n false span ∧ n.value = name := by
  unfold requiredName?
  split
  · rename_i n span
    constructor
    · intro h
      exact ⟨n, span, rfl, Option.some.inj h⟩
    · rintro ⟨n', span', htype, rfl⟩
      cases htype
      rfl
  · rename_i hnot
    constructor
    · intro h
      cases h
    · rintro ⟨n, span, rfl, -⟩
      exact absurd rfl (hnot n span)

/-- A field of `t` that is neither nullable nor a list has the input object `u` for its type. -/
def TypeDefinition.Requires (types : List TypeDefinition) (t u : TypeDefinition) : Prop :=
  ∃ f ∈ t.body.inputFields, ∃ name span,
    f.type = .named name false span ∧ find? types name.value = some u ∧ u.kind = .inputObject

/-- The path of a chain of fields from the type `t` on: each of them belongs to the type of the one before it and is
neither nullable nor a list, and the type of the last is called `goal`. -/
inductive RequiredChain (types : List TypeDefinition) (goal : String) : TypeDefinition → List String → Prop where
  | last {t : TypeDefinition} {f : InputValueDefinition} (hf : f ∈ t.body.inputFields)
    (hgoal : f.type.requiredName? = some goal) :
    RequiredChain types goal t [t.name.value ++ "." ++ f.name.value, goal]
  | step {t u : TypeDefinition} {f : InputValueDefinition} {name : String} {path : List String}
    (hf : f ∈ t.body.inputFields) (hname : f.type.requiredName? = some name) (hu : find? types name = some u)
    (hrest : RequiredChain types goal u path) :
    RequiredChain types goal t ((t.name.value ++ "." ++ f.name.value) :: path)

private theorem TypeDefinition.kind_of_mem_inputFields {t : TypeDefinition} {f : InputValueDefinition}
    (h : f ∈ t.body.inputFields) : t.kind = .inputObject := by
  unfold kind
  cases hbody : t.body with
  | inputObject fields => rfl
  | _ => simp [hbody, TypeBody.inputFields] at h

namespace RequiredChain

variable {types types' : List TypeDefinition} {goal : String} {t u : TypeDefinition} {path : List String}

private theorem kind (h : RequiredChain types goal t path) : t.kind = .inputObject := by
  cases h with
  | last hf _ => exact TypeDefinition.kind_of_mem_inputFields hf
  | step hf _ _ _ => exact TypeDefinition.kind_of_mem_inputFields hf

private theorem mono (hfind : ∀ name x, find? types name = some x → find? types' name = some x)
    (h : RequiredChain types goal t path) : RequiredChain types' goal t path := by
  induction h with
  | last hf hgoal => exact .last hf hgoal
  | step hf hname hu _ ih => exact .step hf hname (hfind _ _ hu) ih

/-- A chain leads on from the type called `name` without passing it again, or it does not pass it at all. -/
theorem without_or (name : String) (h : RequiredChain types goal t path) :
    (∃ path', RequiredChain (without types name) goal t path') ∨
      ∃ x path', find? types name = some x ∧ RequiredChain (without types name) goal x path' := by
  induction h with
  | last hf hgoal => exact .inl ⟨_, .last hf hgoal⟩
  | @step t u f other path hf hname hu _ ih =>
    rcases ih with ⟨path', hrest⟩ | hagain
    · by_cases hother : other = name
      · subst hother
        exact .inr ⟨u, path', hu, hrest⟩
      · rw [← find?_without hother] at hu
        exact .inl ⟨_, .step hf hname hu hrest⟩
    · exact .inr hagain

/-- A chain that starts from a type need not come back to it. -/
theorem exists_without {name : String} (hu : find? types name = some u) (h : RequiredChain types goal u path) :
    ∃ path', RequiredChain (without types name) goal u path' := by
  rcases h.without_or name with hrest | ⟨x, path', hx, hrest⟩
  · exact hrest
  · obtain rfl := Option.some.inj (hu.symm.trans hx)
    exact ⟨path', hrest⟩

/-- A chain of fields shows that its first type requires its last. -/
private theorem transGen (h : RequiredChain types goal t path) (hu : find? types goal = some u)
    (hkind : u.kind = .inputObject) : Relation.TransGen (TypeDefinition.Requires types) t u := by
  induction h with
  | last hf hgoal =>
    obtain ⟨n, span, htype, rfl⟩ := TypeRef.requiredName?_eq_some_iff.1 hgoal
    exact .single ⟨_, hf, n, span, htype, hu, hkind⟩
  | step hf hname hnext hrest ih =>
    obtain ⟨n, span, htype, rfl⟩ := TypeRef.requiredName?_eq_some_iff.1 hname
    exact .head ⟨_, hf, n, span, htype, hnext, hrest.kind⟩ ih

end RequiredChain

private theorem exists_requiredChain {types : List TypeDefinition} {t u : TypeDefinition}
    (h : Relation.TransGen (TypeDefinition.Requires types) t u) :
    ∃ path, RequiredChain types u.name.value t path := by
  induction h using Relation.TransGen.head_induction_on with
  | single h =>
    obtain ⟨f, hf, n, span, htype, hu, -⟩ := h
    have hname : nameOf u = n.value := nameOf_of_find? hu
    exact ⟨_, .last hf (TypeRef.requiredName?_eq_some_iff.2 ⟨n, span, htype, hname.symm⟩)⟩
  | head h _ ih =>
    obtain ⟨f, hf, n, span, htype, hnext, -⟩ := h
    obtain ⟨path, hrest⟩ := ih
    exact ⟨_, .step hf (TypeRef.requiredName?_eq_some_iff.2 ⟨n, span, htype, rfl⟩) hnext hrest⟩

/-! ### The search -/

/-- A search looks at the fields in order, and leaves each type that it enters out of those to come. -/
theorem requiredChain?_eq (goal : String) (unvisited : List TypeDefinition) (t : TypeDefinition) :
    requiredChain? goal unvisited t = t.body.inputFields.findSome? fun f => f.type.requiredName?.bind fun target =>
      if target = goal then some [t.name.value ++ "." ++ f.name.value, goal]
      else (find? unvisited target).bind fun next =>
        (requiredChain? goal (without unvisited target) next).map ((t.name.value ++ "." ++ f.name.value) :: ·) := by
  rw [requiredChain?]
  refine congrArg (List.findSome? · _) (funext fun f => ?_)
  cases f.type.requiredName? with
  | none => rfl
  | some target =>
    simp only [Option.bind_some]
    by_cases hgoal : target = goal
    · rw [if_pos hgoal, if_pos hgoal]
    · rw [if_neg hgoal, if_neg hgoal]
      split
      · rename_i hnone
        rw [hnone, Option.bind_none]
      · rename_i next hnext
        rw [hnext, Option.bind_some]

/-- The search as far as `n` types deep. -/
def requiredChainWithin (goal : String) : Nat → List TypeDefinition → TypeDefinition → Option (List String)
  | 0, _, _ => none
  | n + 1, unvisited, t =>
    t.body.inputFields.findSome? fun f => f.type.requiredName?.bind fun target =>
      if target = goal then some [t.name.value ++ "." ++ f.name.value, goal]
      else (find? unvisited target).bind fun next =>
        (requiredChainWithin goal n (without unvisited target) next).map ((t.name.value ++ "." ++ f.name.value) :: ·)

/-- The search goes no deeper than there are types. -/
theorem requiredChainWithin_eq {goal : String} {n : Nat} {unvisited : List TypeDefinition}
    (h : unvisited.length < n) (t : TypeDefinition) :
    requiredChainWithin goal n unvisited t = requiredChain? goal unvisited t := by
  induction n generalizing unvisited t with
  | zero => omega
  | succ n ih =>
    rw [requiredChain?_eq, requiredChainWithin]
    refine congrArg (List.findSome? · _) (funext fun f => congrArg (Option.bind _) (funext fun target => ?_))
    cases hnext : find? unvisited target with
    | none => rfl
    | some next =>
      have hless := length_without_lt hnext
      simp only [Option.bind_some, ih (show (without unvisited target).length < n by omega)]

/-- What the search finds is a chain, with at most one field for each type that it may pass. -/
theorem chain_of_requiredChain? {goal : String} {unvisited : List TypeDefinition} {t g : TypeDefinition}
    {path : List String} (hg : find? unvisited goal = some g) (h : requiredChain? goal unvisited t = some path) :
    RequiredChain unvisited goal t path ∧ path.length ≤ unvisited.length + 1 := by
  induction hn : unvisited.length using Nat.strongRecOn generalizing unvisited t path with
  | ind n ih =>
    subst hn
    rw [requiredChain?_eq] at h
    obtain ⟨f, hf, hstep⟩ := List.exists_of_findSome?_eq_some h
    obtain ⟨target, htarget, hstep⟩ := Option.bind_eq_some_iff.1 hstep
    have hsome : 0 < unvisited.length := List.length_pos_of_mem (List.mem_of_find?_eq_some hg)
    split at hstep
    · rename_i hgoal
      obtain rfl := Option.some.inj hstep
      subst hgoal
      exact ⟨.last hf htarget, Nat.succ_le_succ hsome⟩
    · rename_i hgoal
      obtain ⟨next, hnext, hstep⟩ := Option.bind_eq_some_iff.1 hstep
      obtain ⟨rest, hrest, rfl⟩ := Option.map_eq_some_iff.1 hstep
      have hless := length_without_lt hnext
      have hg' : find? (without unvisited target) goal = some g := by rwa [find?_without (Ne.symm hgoal)]
      obtain ⟨hchain, hlength⟩ := ih _ hless hg' hrest rfl
      refine ⟨.step hf htarget hnext (hchain.mono fun _ _ hx => (find?_of_without hx).2), ?_⟩
      simp only [List.length_cons]
      omega

/-- The search finds a chain wherever there is one. -/
theorem isSome_requiredChain? {goal : String} {unvisited : List TypeDefinition} {t : TypeDefinition}
    {path : List String} (h : RequiredChain unvisited goal t path) : (requiredChain? goal unvisited t).isSome := by
  induction hn : unvisited.length using Nat.strongRecOn generalizing unvisited t path with
  | ind n ih =>
    subst hn
    rw [requiredChain?_eq, List.findSome?_isSome_iff]
    cases h with
    | @last _ f hf hgoal =>
      refine ⟨f, hf, ?_⟩
      rw [hgoal, Option.bind_some, if_pos rfl]
      rfl
    | @step _ u f name _ hf hname hu hrest =>
      refine ⟨f, hf, ?_⟩
      rw [hname, Option.bind_some]
      split
      · rfl
      · -- the rest of the chain, without its round trips through `u`, is a chain among fewer types
        obtain ⟨path', hshort⟩ := hrest.exists_without hu
        rw [hu, Option.bind_some, Option.isSome_map]
        exact ih _ (length_without_lt hu) hshort rfl

private theorem cause_of_mem_inputTypeFaults {types : List TypeDefinition} {path : String} {type : TypeRef}
    {fault : SchemaFault} (h : fault ∈ inputTypeFaults types path type) (chain : List String) :
    fault.cause ≠ .inputCycle chain := by
  unfold inputTypeFaults at h
  dsimp only at h
  split at h
  · split at h
    · cases h
    · rw [List.mem_singleton.1 h]
      simp
  · rw [List.mem_singleton.1 h]
    simp

/-- The faults of an input object that speak of a cycle are what the search finds. -/
theorem mem_typeFaults_inputCycle_iff {types : List TypeDefinition} {t : TypeDefinition}
    (hkind : t.kind = .inputObject) {fault : SchemaFault} {path : List String} :
    fault ∈ Draft.typeFaults types t ∧ fault.cause = .inputCycle path ↔
      requiredChain? t.name.value types t = some path ∧ fault = ⟨.inputCycle path, [t.span]⟩ := by
  obtain ⟨fields, hbody⟩ : ∃ fields, t.body = .inputObject fields := by
    unfold TypeDefinition.kind at hkind
    cases hbody : t.body with
    | inputObject fields => exact ⟨fields, rfl⟩
    | _ => simp [hbody, TypeBody.kind] at hkind
  simp only [Draft.typeFaults, hbody, List.mem_append, List.mem_flatMap]
  constructor
  · rintro ⟨⟨f, -, hf⟩ | hcycle, hcause⟩
    · exact absurd hcause (cause_of_mem_inputTypeFaults hf path)
    · unfold inputCycleFaults at hcycle
      split at hcycle
      · rename_i found hfound
        obtain rfl := List.mem_singleton.1 hcycle
        obtain rfl := SchemaFault.Cause.inputCycle.inj hcause
        exact ⟨hfound, rfl⟩
      · cases hcycle
  · rintro ⟨hfound, rfl⟩
    refine ⟨.inr ?_, rfl⟩
    rw [inputCycleFaults, hfound]
    exact List.mem_singleton_self _

/-- Among types of different names, an input object has a fault that speaks of a cycle exactly when it requires
itself. The fault has a chain from the type back to it, with at most one field for each of the types, and the search
for it goes no deeper than that. The types of a draft have different names, and in a schema that is built no type
requires itself. -/
theorem Schema.input_cycles_found (documents : List SchemaDocument) :
    (∀ types : List TypeDefinition, (names types).Nodup → ∀ t ∈ types, t.kind = .inputObject →
      ((∃ fault ∈ Draft.typeFaults types t, ∃ path, fault.cause = .inputCycle path) ↔
        Relation.TransGen (TypeDefinition.Requires types) t t) ∧
      (∀ fault ∈ Draft.typeFaults types t, ∀ path, fault.cause = .inputCycle path → fault.spans = [t.span] ∧
        RequiredChain types t.name.value t path ∧ path.length ≤ types.length + 1) ∧
      ∀ n, types.length < n →
        requiredChainWithin t.name.value n types t = requiredChain? t.name.value types t) ∧
    (names (Draft.ofDocuments documents).extended.types).Nodup ∧
    ∀ s, build documents = .ok s → ∀ t, ¬ Relation.TransGen (TypeDefinition.Requires s.types) t t := by
  have hsearch {types : List TypeDefinition} {t : TypeDefinition} (ht : find? types t.name.value = some t)
      (hkind : t.kind = .inputObject) : (∃ path, requiredChain? t.name.value types t = some path) ↔
        Relation.TransGen (TypeDefinition.Requires types) t t := by
    constructor
    · rintro ⟨path, hpath⟩
      exact (chain_of_requiredChain? ht hpath).1.transGen ht hkind
    · intro hcycle
      obtain ⟨path, hchain⟩ := exists_requiredChain hcycle
      exact Option.isSome_iff_exists.1 (isSome_requiredChain? hchain)
  refine ⟨fun types hnames t ht hkind => ⟨?_, ?_, fun n hn => requiredChainWithin_eq hn t⟩, ?_, ?_⟩
  · rw [← hsearch (find?_of_mem hnames ht) hkind]
    constructor
    · rintro ⟨fault, hfault, path, hcause⟩
      exact ⟨path, ((mem_typeFaults_inputCycle_iff hkind).1 ⟨hfault, hcause⟩).1⟩
    · rintro ⟨path, hpath⟩
      obtain ⟨hfault, hcause⟩ := (mem_typeFaults_inputCycle_iff hkind).2 ⟨hpath, rfl⟩
      exact ⟨_, hfault, path, hcause⟩
  · intro fault hfault path hcause
    obtain ⟨hpath, rfl⟩ := (mem_typeFaults_inputCycle_iff hkind).1 ⟨hfault, hcause⟩
    exact ⟨rfl, chain_of_requiredChain? (find?_of_mem hnames ht) hpath⟩
  · rw [Draft.names_extended]
    exact (Draft.contents_ofDocuments documents).nodup
  · intro s hs t hcycle
    obtain ⟨path, hchain⟩ := exists_requiredChain hcycle
    -- the last field of the cycle leads to `t`, so that `t` is one of the types
    obtain ⟨u, -, f, -, name, span, -, ht, hkind⟩ := Relation.TransGen.tail'_iff.1 hcycle
    have hmem : t ∈ s.types := List.mem_of_find?_eq_some ht
    have hfind := find?_of_mem_types hs hmem
    obtain ⟨path, hpath⟩ := (hsearch hfind hkind).2 hcycle
    have hfault := ((mem_typeFaults_inputCycle_iff hkind).2 ⟨hpath, rfl⟩).1
    rw [typeFaults_of_build hs hmem] at hfault
    cases hfault

/-- An input object with a single field, which is neither nullable nor a list. -/
def TypeDefinition.requiring (name field type : String) : TypeDefinition :=
  ⟨none, ⟨name, .nowhere⟩, [], .inputObject
    [⟨none, ⟨field, .nowhere⟩, .named ⟨type, .nowhere⟩ false .nowhere, none, [], .nowhere⟩], .nowhere⟩

/-- Two input objects that require each other, beside a schema that is built. -/
theorem Schema.input_cycles_found_of_pair :
    let types := [TypeDefinition.requiring "A" "b" "B", TypeDefinition.requiring "B" "a" "A"]
    (∃ fault ∈ Draft.typeFaults types (.requiring "A" "b" "B"), fault.cause = .inputCycle ["A.b", "B.a", "A"] ∧
      RequiredChain types "A" (.requiring "A" "b" "B") ["A.b", "B.a", "A"]) ∧
    Relation.TransGen (TypeDefinition.Requires types) (.requiring "A" "b" "B") (.requiring "A" "b" "B") ∧
    ∃ document s, build [document] = .ok s ∧ ∀ t, ¬ Relation.TransGen (TypeDefinition.Requires s.types) t t := by
  intro types
  obtain ⟨document, s, -, hs, -⟩ := exists_of_extended_scalar
  obtain ⟨hfound, -, hbuilt⟩ := input_cycles_found [document]
  have hnames : (names types).Nodup := by decide
  obtain ⟨hiff, hchain, hdepth⟩ := hfound types hnames (.requiring "A" "b" "B") (by simp [types]) rfl
  have hpath : requiredChain? "A" types (.requiring "A" "b" "B") = some ["A.b", "B.a", "A"] :=
    (hdepth 3 (by decide)).symm.trans (by decide)
  obtain ⟨hfault, hcause⟩ := (mem_typeFaults_inputCycle_iff (t := .requiring "A" "b" "B") rfl).2 ⟨hpath, rfl⟩
  exact ⟨⟨_, hfault, hcause, (hchain _ hfault _ hcause).2.1⟩, hiff.1 ⟨_, hfault, _, hcause⟩,
    document, s, hs, hbuilt s hs⟩

end GraphQL
