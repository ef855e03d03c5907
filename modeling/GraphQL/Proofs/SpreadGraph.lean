import GraphQL.Proofs.Worklist
import GraphQL.Validation.SpreadGraph

/-!
# Fragments that spread one another

Spreads lead from the name of a fragment to the names spread in the first fragment so called (`Document.Spreads`). A
walk over fragments, whichever of the spreads in a fragment it follows, comes to just those that its names lead to
(`Document.mem_fragmentsFrom_iff`). So the walk from an operation comes to the fragments that the operation reaches
and to no others (`Document.mem_reachedBy_iff`), to each of them once (`Document.names_reachedBy_nodup`), and to its
end after one task for each spread at most (`Document.walkWithin_reachStep`).
-/

namespace GraphQL

namespace Document

/-- The first fragment of the name spreads the other name. -/
def Spreads (d : Document) (name other : String) : Prop :=
  ∃ f, d.fragment? name = some f ∧ ∃ spread ∈ f.selectionSet.spreads, spread.name.value = other

/-- Spreads lead from the operation to the fragment, directly or through other fragments. -/
inductive Reaches (d : Document) (o : Operation) : Fragment → Prop where
  | spread {spread : FragmentSpread} {f : Fragment} (h : spread ∈ o.selectionSet.spreads)
    (hf : d.fragment? spread.name.value = some f) : Reaches d o f
  | through {g : Fragment} {spread : FragmentSpread} {f : Fragment} (hg : Reaches d o g)
    (h : spread ∈ g.selectionSet.spreads) (hf : d.fragment? spread.name.value = some f) : Reaches d o f

end Document

section
variable {next : Fragment → List String}

/-- The fragments that a walk comes to from some names, each one once, where it goes on from a fragment with the names
that `next` gives; `unreached` holds the fragments not reached yet. -/
def fragmentsFrom (next : Fragment → List String) (unreached : List Fragment) : List String → List Fragment
  | [] => []
  | name :: names =>
    match _h : Named.find? unreached name with
    | none => fragmentsFrom next unreached names
    | some f => f :: fragmentsFrom next (Named.without unreached name) (next f ++ names)
termination_by names => (unreached.length, names.length)
decreasing_by
  · exact Prod.Lex.right _ (by simp)
  · exact Prod.Lex.left _ _ (Named.length_without_lt _h)

/-- Names lead to the fragment, the first of its name, at once or through other fragments. -/
inductive Document.LeadsTo (d : Document) (next : Fragment → List String) (names : List String) : Fragment → Prop where
  | first {name : String} {f : Fragment} (h : name ∈ names) (hf : d.fragment? name = some f) : LeadsTo d next names f
  | through {g : Fragment} {name : String} {f : Fragment} (hg : LeadsTo d next names g) (h : name ∈ next g)
    (hf : d.fragment? name = some f) : LeadsTo d next names f

namespace Document.LeadsTo

variable {d : Document} {names names' : List String} {f : Fragment}

/-- More names lead to more fragments. -/
theorem mono (h : d.LeadsTo next names f) (hnames : names ⊆ names') : d.LeadsTo next names' f := by
  induction h with
  | first h hf => exact .first (hnames h) hf
  | through _ h hf ih => exact .through ih h hf

/-- What the names in a fragment lead to, those lead to that lead to the fragment. -/
theorem trans {g : Fragment} (hg : d.LeadsTo next names g) (h : d.LeadsTo next (next g) f) :
    d.LeadsTo next names f := by
  induction h with
  | first h hf => exact .through hg h hf
  | through _ h hf ih => exact .through ih h hf

end Document.LeadsTo

theorem fragmentsFrom_cons_of_none {unreached : List Fragment} {name : String} {names : List String}
    (hf : Named.find? unreached name = none) :
    fragmentsFrom next unreached (name :: names) = fragmentsFrom next unreached names := by
  rw [fragmentsFrom]
  split <;> simp_all

theorem fragmentsFrom_cons_of_some {unreached : List Fragment} {name : String} {names : List String} {f : Fragment}
    (hf : Named.find? unreached name = some f) :
    fragmentsFrom next unreached (name :: names) =
      f :: fragmentsFrom next (Named.without unreached name) (next f ++ names) := by
  rw [fragmentsFrom]
  split
  · simp_all
  · rename_i g hg
    obtain rfl := Option.some.inj (hf.symm.trans hg)
    rfl

/-- A walk comes to the fragments that its names mean, and with a fragment to those that it goes on with. -/
theorem fragmentsFrom_closed (unreached : List Fragment) (names : List String) :
    (∀ name ∈ names, ∀ f, Named.find? unreached name = some f → f ∈ fragmentsFrom next unreached names) ∧
    ∀ g ∈ fragmentsFrom next unreached names, ∀ name ∈ next g, ∀ f,
      Named.find? unreached name = some f → f ∈ fragmentsFrom next unreached names := by
  induction unreached, names using fragmentsFrom.induct next with
  | case1 unreached => simp [fragmentsFrom]
  | case2 unreached name names hnone ih =>
    rw [fragmentsFrom_cons_of_none hnone]
    refine ⟨fun other hother f hf => ?_, ih.2⟩
    rcases List.mem_cons.1 hother with rfl | hother
    · simp [hnone] at hf
    · exact ih.1 other hother f hf
  | case3 unreached name names g hg ih =>
    rw [fragmentsFrom_cons_of_some hg]
    -- `g` is what `name` means, and the walk goes on without it
    have hname {f : Fragment} {rest : List Fragment} (hf : Named.find? unreached name = some f) : f ∈ g :: rest :=
      Option.some.inj (hg.symm.trans hf) ▸ List.mem_cons_self ..
    have hother {other : String} {f : Fragment} (hne : other ≠ name) (hf : Named.find? unreached other = some f) :
        Named.find? (Named.without unreached name) other = some f := (Named.find?_without hne).trans hf
    constructor
    · intro other hmem f hf
      by_cases hne : other = name
      · exact hname (hne ▸ hf)
      · have hmem := (List.mem_cons.1 hmem).resolve_left hne
        exact List.mem_cons_of_mem _ (ih.1 other (List.mem_append_right _ hmem) f (hother hne hf))
    · intro h hh other hmem f hf
      by_cases hne : other = name
      · exact hname (hne ▸ hf)
      · refine List.mem_cons_of_mem _ ?_
        rcases List.mem_cons.1 hh with rfl | hh
        · exact ih.1 _ (List.mem_append_left _ hmem) f (hother hne hf)
        · exact ih.2 h hh other hmem f (hother hne hf)

/-- A walk only comes to fragments that are there. -/
private theorem fragmentsFrom_subset (unreached : List Fragment) (names : List String) :
    fragmentsFrom next unreached names ⊆ unreached := by
  induction unreached, names using fragmentsFrom.induct next with
  | case1 unreached => simp [fragmentsFrom]
  | case2 unreached name names hnone ih => rwa [fragmentsFrom_cons_of_none hnone]
  | case3 unreached name names f hf ih =>
    rw [fragmentsFrom_cons_of_some hf]
    exact List.cons_subset.2 ⟨List.mem_of_find?_eq_some hf, fun g hg => (List.mem_filter.1 (ih hg)).1⟩

/-- No two fragments that a walk comes to have one name. -/
theorem names_fragmentsFrom_nodup (unreached : List Fragment) (names : List String) :
    (Named.names (fragmentsFrom next unreached names)).Nodup := by
  induction unreached, names using fragmentsFrom.induct next with
  | case1 unreached => simp [fragmentsFrom, Named.names]
  | case2 unreached name names hnone ih => rwa [fragmentsFrom_cons_of_none hnone]
  | case3 unreached name names f hf ih =>
    rw [fragmentsFrom_cons_of_some hf]
    refine List.nodup_cons.2 ⟨fun hmem => ?_, ih⟩
    -- what comes after `f` is left when those of its name are left out
    obtain ⟨g, hg, hname⟩ := List.mem_map.1 hmem
    have hother := (List.mem_filter.1 (fragmentsFrom_subset _ _ hg)).2
    have hfname := List.find?_some hf
    simp_all

/-- A walk comes to no other fragments than those that its names mean, and those that these lead to. -/
theorem leadsTo_of_mem_fragmentsFrom {d : Document} {start : List String} {unreached : List Fragment}
    {names : List String} (hfirst : ∀ name f, Named.find? unreached name = some f → d.fragment? name = some f)
    (hnames : ∀ name ∈ names, ∀ f, d.fragment? name = some f → d.LeadsTo next start f) {g : Fragment}
    (h : g ∈ fragmentsFrom next unreached names) : d.LeadsTo next start g := by
  induction unreached, names using fragmentsFrom.induct next with
  | case1 unreached => simp [fragmentsFrom] at h
  | case2 unreached name names hnone ih =>
    rw [fragmentsFrom_cons_of_none hnone] at h
    exact ih hfirst (List.forall_mem_cons.1 hnames).2 h
  | case3 unreached name names f hf ih =>
    rw [fragmentsFrom_cons_of_some hf] at h
    obtain ⟨hname, hrest⟩ := List.forall_mem_cons.1 hnames
    have hleads := hname f (hfirst name f hf)
    rcases List.mem_cons.1 h with rfl | h
    · exact hleads
    · refine ih (fun other g hg => hfirst other g (Named.find?_of_without hg).2) ?_ h
      exact List.forall_mem_append.2 ⟨fun other hother g => .through hleads hother, hrest⟩

theorem Document.mem_fragmentsFrom_iff {d : Document} {names : List String} {f : Fragment} :
    f ∈ fragmentsFrom next d.fragments names ↔ d.LeadsTo next names f := by
  constructor
  · exact leadsTo_of_mem_fragmentsFrom (fun _ _ hf => hf) fun name hname g => .first hname
  · intro h
    induction h with
    | first h hf => exact (fragmentsFrom_closed d.fragments names).1 _ h _ hf
    | through _ h hf ih => exact (fragmentsFrom_closed d.fragments names).2 _ ih _ h _ hf

end

theorem reachedFrom_cons_of_none {unreached : List Fragment} {name : String} {names : List String}
    (hf : Named.find? unreached name = none) : reachedFrom unreached (name :: names) = reachedFrom unreached names := by
  rw [reachedFrom]
  split <;> simp_all

theorem reachedFrom_cons_of_some {unreached : List Fragment} {name : String} {names : List String} {f : Fragment}
    (hf : Named.find? unreached name = some f) :
    reachedFrom unreached (name :: names) =
      f :: reachedFrom (Named.without unreached name) (f.selectionSet.spreads.map (·.name.value) ++ names) := by
  rw [reachedFrom]
  split
  · simp_all
  · rename_i g hg
    obtain rfl := Option.some.inj (hf.symm.trans hg)
    rfl

/-- The walk from an operation goes on from a fragment with the names that it spreads. -/
theorem reachedFrom_eq (unreached : List Fragment) (names : List String) :
    reachedFrom unreached names =
      fragmentsFrom (fun f => f.selectionSet.spreads.map (·.name.value)) unreached names := by
  induction unreached, names using reachedFrom.induct with
  | case1 unreached => rw [reachedFrom, fragmentsFrom]
  | case2 unreached name names hnone ih => rw [reachedFrom_cons_of_none hnone, fragmentsFrom_cons_of_none hnone, ih]
  | case3 unreached name names f hf ih => rw [reachedFrom_cons_of_some hf, fragmentsFrom_cons_of_some hf, ih]

/-- One name on a walk from an operation; the state holds the fragments not reached yet. -/
def reachStep (unreached : List Fragment) (name : String) : WalkStep (List Fragment) String Fragment :=
  match Named.find? unreached name with
  | none => ⟨[], unreached, []⟩
  | some f => ⟨[f], Named.without unreached name, f.selectionSet.spreads.map (·.name.value)⟩

private theorem doesTasks_reachStep : DoesTasks reachStep reachedFrom where
  nil _ := by rw [reachedFrom]
  cons unreached name names := by
    rw [reachStep]
    cases hf : Named.find? unreached name with
    | none => rw [reachedFrom_cons_of_none hf, List.nil_append, List.nil_append]
    | some f => rw [reachedFrom_cons_of_some hf, List.singleton_append]

/-- The number of spreads written in some fragments. -/
def spreadCount (fragments : List Fragment) : Nat := (fragments.map (·.selectionSet.spreads.length)).sum

/-- Taking a fragment off takes its spreads off. -/
theorem spreadCount_without_le {fragments : List Fragment} {name : String} {f : Fragment}
    (h : Named.find? fragments name = some f) :
    spreadCount (Named.without fragments name) + f.selectionSet.spreads.length ≤ spreadCount fragments := by
  have hsum := Named.sum_without_le (fun f : Fragment => f.selectionSet.spreads.length) h
  rw [spreadCount, spreadCount]
  omega

private theorem length_next_reachStep (unreached : List Fragment) (name : String) :
    spreadCount (reachStep unreached name).state + (reachStep unreached name).next.length ≤ spreadCount unreached := by
  rw [reachStep]
  cases hf : Named.find? unreached name with
  | none => exact Nat.le_refl _
  | some f => simpa using spreadCount_without_le hf

namespace Document

variable {d : Document} {o : Operation} {f : Fragment}

theorem Reaches.mem_fragments (h : d.Reaches o f) : f ∈ d.fragments := by
  cases h with
  | spread _ hf => exact List.mem_of_find?_eq_some hf
  | through _ _ hf => exact List.mem_of_find?_eq_some hf

/-- What an operation reaches is what the names of its spreads lead to. -/
private theorem reaches_iff_leadsTo : d.Reaches o f ↔ d.LeadsTo (fun g => g.selectionSet.spreads.map (·.name.value))
    (o.selectionSet.spreads.map (·.name.value)) f := by
  constructor
  · intro h
    induction h with
    | spread h hf => exact .first (List.mem_map_of_mem h) hf
    | through _ h hf ih => exact .through ih (List.mem_map_of_mem h) hf
  · intro h
    induction h with
    | first h hf =>
      obtain ⟨spread, hspread, rfl⟩ := List.mem_map.1 h
      exact .spread hspread hf
    | through _ h hf ih =>
      obtain ⟨spread, hspread, rfl⟩ := List.mem_map.1 h
      exact .through ih hspread hf

/-- The walk from an operation comes to all fragments that it reaches, and to no others. -/
theorem mem_reachedBy_iff : f ∈ d.reachedBy o ↔ d.Reaches o f := by
  rw [reachedBy, reachedFrom_eq, mem_fragmentsFrom_iff, reaches_iff_leadsTo]

theorem names_reachedBy_nodup : (Named.names (d.reachedBy o)).Nodup := by
  rw [reachedBy, reachedFrom_eq]
  exact names_fragmentsFrom_nodup ..

theorem walkWithin_reachStep {n : Nat} (hn : o.selectionSet.spreads.length + spreadCount d.fragments ≤ n) :
    walkWithin reachStep n d.fragments (o.selectionSet.spreads.map (·.name.value)) = some (d.reachedBy o) := by
  refine doesTasks_reachStep.walkWithin_eq length_next_reachStep ?_
  rwa [List.length_map]

end Document

end GraphQL
