import GraphQL.Proofs.Evaluation
import GraphQL.Proofs.SpreadGraph
import Mathlib.Logic.Relation

/-!
# Cycles of fragments

The walk over all fragments keeps the path of spreads that leads to where it is, and meets a cycle where a spread
leads back into that path. What it meets are closed paths (`Document.isCycle_of_mem_fragmentCycles`). For the other
direction, single out some names. A walk that meets no cycle through these has gone through all paths among them, and
every one of these paths ends (`Document.ends_of_fragmentCycles`). The names that can be reached from a fragment and
lead back to it have paths without end, if there are any: so a cycle through one of them is met, and as a closed path
it lies within them (`Document.exists_fragmentCycle`). In particular there is no cycle where none is met
(`Document.fragmentCycles_eq_nil_iff`), and this is what is reported (`fragmentCycle_finds_cycles`).
-/

namespace GraphQL

namespace Document

/-- The spreads lead from one name to another: each is written in the fragment that the one before it names, the
first one so called. -/
inductive SpreadPath (d : Document) : String → List SpreadStep → String → Prop where
  | nil (name : String) : SpreadPath d name [] name
  | cons {step : SpreadStep} {f : Fragment} {steps : List SpreadStep} {goal : String}
    (hf : d.fragment? step.source = some f) (hspread : step.spread ∈ f.selectionSet.spreads)
    (hsteps : SpreadPath d step.spread.name.value steps goal) : SpreadPath d step.source (step :: steps) goal

/-- The spreads lead from a fragment back to it. -/
def IsCycle (d : Document) (cycle : List SpreadStep) : Prop :=
  cycle ≠ [] ∧ ∃ name, d.SpreadPath name cycle name

/-- Spreads lead from each of the two names to the other. -/
def Linked (d : Document) (a b : String) : Prop :=
  Relation.TransGen d.Spreads a b ∧ Relation.TransGen d.Spreads b a

variable {d : Document} {a b c : String} {path path' : List SpreadStep}

namespace SpreadPath

private theorem append (h : d.SpreadPath a path b) (h' : d.SpreadPath b path' c) :
    d.SpreadPath a (path ++ path') c := by
  induction h with
  | nil => exact h'
  | cons hf hspread _ ih => exact .cons hf hspread (ih h')

/-- A path that comes through a fragment leads on from there. -/
theorem cycleTo (h : d.SpreadPath a path b) {name : String} (hne : GraphQL.cycleTo name path ≠ []) :
    d.SpreadPath name (GraphQL.cycleTo name path) b := by
  induction h with
  | nil => exact absurd rfl hne
  | @cons step f steps goal hf hspread hsteps ih =>
    by_cases hstep : step.source = name
    · have hall : GraphQL.cycleTo name (step :: steps) = step :: steps := by simp [GraphQL.cycleTo, hstep]
      rw [hall, ← hstep]
      exact .cons hf hspread hsteps
    · have hrest : GraphQL.cycleTo name (step :: steps) = GraphQL.cycleTo name steps := by
        simp [GraphQL.cycleTo, hstep]
      rw [hrest] at hne ⊢
      exact ih hne

private theorem reflTransGen (h : d.SpreadPath a path b) : Relation.ReflTransGen d.Spreads a b := by
  induction h with
  | nil => exact .refl
  | cons hf hspread _ ih => exact .head ⟨_, hf, _, hspread, rfl⟩ ih

/-- The names along a path can be reached from its start, and lead to its end. -/
theorem source (h : d.SpreadPath a path b) {step : SpreadStep} (hstep : step ∈ path) :
    Relation.ReflTransGen d.Spreads a step.source ∧ Relation.TransGen d.Spreads step.source b := by
  induction h with
  | nil => cases hstep
  | cons hf hspread hsteps ih =>
    have hfirst := Relation.TransGen.head' ⟨_, hf, _, hspread, rfl⟩ hsteps.reflTransGen
    rcases List.mem_cons.1 hstep with rfl | hstep
    · exact ⟨.refl, hfirst⟩
    · exact ⟨.head ⟨_, hf, _, hspread, rfl⟩ (ih hstep).1, (ih hstep).2⟩

end SpreadPath

/-- All names along a cycle lead to one another. -/
theorem IsCycle.linked {cycle : List SpreadStep} (h : d.IsCycle cycle) {step other : SpreadStep}
    (hstep : step ∈ cycle) (hother : other ∈ cycle) : d.Linked step.source other.source := by
  obtain ⟨-, name, hpath⟩ := h
  exact ⟨(hpath.source hstep).2.trans_left (hpath.source hother).1,
    (hpath.source hother).2.trans_left (hpath.source hstep).1⟩

end Document

section Entry

variable {unvisited : List Fragment} {path : List SpreadStep} {name : String}
  {entries : List (List SpreadStep × String)}

private theorem cyclesFrom_cons_of_cycle (hcycle : cycleTo name path ≠ []) :
    cyclesFrom unvisited ((path, name) :: entries) = cycleTo name path :: cyclesFrom unvisited entries := by
  rw [cyclesFrom]
  split
  · simp_all
  · exact absurd ‹_› hcycle

private theorem cyclesFrom_cons_of_none (hcycle : cycleTo name path = [])
    (hf : Named.find? unvisited name = none) :
    cyclesFrom unvisited ((path, name) :: entries) = cyclesFrom unvisited entries := by
  rw [cyclesFrom, hcycle]
  simp only
  split <;> simp_all

private theorem cyclesFrom_cons_of_some {f : Fragment} (hcycle : cycleTo name path = [])
    (hf : Named.find? unvisited name = some f) :
    cyclesFrom unvisited ((path, name) :: entries) = cyclesFrom (Named.without unvisited name)
      ((f.selectionSet.spreads.map fun s => (path ++ [⟨name, s⟩], s.name.value)) ++ entries) := by
  rw [cyclesFrom, hcycle]
  simp only
  split <;> simp_all

end Entry

/-- If the path of each entry leads to the entry, what a walk meets are cycles. -/
theorem isCycle_of_mem_cyclesFrom {d : Document} {unvisited : List Fragment}
    {entries : List (List SpreadStep × String)}
    (hfirst : ∀ name f, Named.find? unvisited name = some f → d.fragment? name = some f)
    (hpaths : ∀ entry ∈ entries, ∃ start, d.SpreadPath start entry.1 entry.2) {cycle : List SpreadStep}
    (h : cycle ∈ cyclesFrom unvisited entries) : d.IsCycle cycle := by
  induction unvisited, entries using cyclesFrom.induct with
  | case1 => simp [cyclesFrom] at h
  | case2 unvisited path name entries step steps hcycle ih =>
    have hne : cycleTo name path ≠ [] := by simp [hcycle]
    obtain ⟨⟨start, hpath⟩, hrest⟩ := List.forall_mem_cons.1 hpaths
    rw [cyclesFrom_cons_of_cycle hne] at h
    rcases List.mem_cons.1 h with rfl | h
    · exact ⟨hne, name, hpath.cycleTo hne⟩
    · exact ih hfirst hrest h
  | case3 unvisited path name entries hcycle hf ih =>
    rw [cyclesFrom_cons_of_none hcycle hf] at h
    exact ih hfirst (List.forall_mem_cons.1 hpaths).2 h
  | case4 unvisited path name entries hcycle f hf ih =>
    rw [cyclesFrom_cons_of_some hcycle hf] at h
    obtain ⟨⟨start, hpath⟩, hrest⟩ := List.forall_mem_cons.1 hpaths
    refine ih (fun other g hg => hfirst other g (Named.find?_of_without hg).2) ?_ h
    refine List.forall_mem_append.2 ⟨List.forall_mem_map.2 fun spread hspread => ⟨start, hpath.append ?_⟩, hrest⟩
    exact @Document.SpreadPath.cons d ⟨name, spread⟩ f [] _ (hfirst name f hf) hspread (.nil _)

/-! ### Walks that meet no cycle among some names -/

/-- No path of spreads goes on without end from the name among the names with the property. -/
def Document.Ends (d : Document) (P : String → Prop) (name : String) : Prop :=
  Acc (fun other name => d.Spreads name other ∧ P other) name

/-- What holds during a walk that has met no cycle through a name with the property; `entered` are the names on the
path to where the walk is. -/
structure WalkState (d : Document) (P : String → Prop) (unvisited : List Fragment) (entered : List String) :
    Prop where
  first : ∀ name f, Named.find? unvisited name = some f → d.fragment? name = some f
  settled : ∀ name, Named.contains unvisited name = false → name ∉ entered → d.Ends P name

/-- No cycle goes through a name with the property. -/
def Avoids (P : String → Prop) (cycles : List (List SpreadStep)) : Prop :=
  ∀ cycle ∈ cycles, ∀ step ∈ cycle, ¬P step.source

namespace WalkState

variable {d : Document} {P : String → Prop} {unvisited : List Fragment} {entered : List String} {name : String}

private theorem enter (h : WalkState d P unvisited entered) (name : String) :
    WalkState d P (Named.without unvisited name) (entered ++ [name]) where
  first other f hf := h.first other f (Named.find?_of_without hf).2
  settled other hother hentered := by
    simp only [List.mem_append, List.mem_singleton, not_or] at hentered
    simp only [Named.contains_without, hentered.2, ne_eq, not_false_eq_true, decide_true, Bool.and_true] at hother
    exact h.settled other hother hentered.1

private theorem leave (h : WalkState d P unvisited (entered ++ [name])) (hname : d.Ends P name) :
    WalkState d P unvisited entered where
  first := h.first
  settled other hother hentered := by
    by_cases hne : other = name
    · exact hne ▸ hname
    · exact h.settled other hother (by simp [hentered, hne])

end WalkState

private theorem not_mem_of_cycleTo_eq_nil {name : String} {path : List SpreadStep} (h : cycleTo name path = []) :
    name ∉ path.map (·.source) := by
  induction path with
  | nil => simp
  | cons step path ih =>
    by_cases hstep : step.source = name
    · simp [cycleTo, hstep] at h
    · simp only [cycleTo, List.dropWhile_cons, ne_eq, hstep, not_false_eq_true, decide_true, ↓reduceIte] at h
      simp only [List.map_cons, List.mem_cons, not_or]
      exact ⟨Ne.symm hstep, ih h⟩

private theorem exists_source_of_cycleTo_ne_nil {name : String} {path : List SpreadStep}
    (h : cycleTo name path ≠ []) : ∃ step ∈ cycleTo name path, step.source = name := by
  obtain ⟨step, steps, hcycle⟩ := List.exists_cons_of_ne_nil h
  have hhead := List.head?_dropWhile_not (fun step : SpreadStep => decide (step.source ≠ name)) path
  rw [← cycleTo, hcycle] at hhead
  exact ⟨step, hcycle ▸ List.mem_cons_self .., by simpa using hhead⟩

/-- The first entries of a walk are dealt with before the others: then all names with the property that they lead to
have been visited and are not on the path. -/
theorem exists_walkState_of_cyclesFrom_append {d : Document} {P : String → Prop} {n : Nat}
    {unvisited : List Fragment} {entered : List String} {entries rest : List (List SpreadStep × String)}
    (hn : unvisited.length < n) (hstate : WalkState d P unvisited entered)
    (hentries : ∀ entry ∈ entries, entry.1.map (·.source) = entered)
    (h : Avoids P (cyclesFrom unvisited (entries ++ rest))) :
    ∃ unvisited', WalkState d P unvisited' entered ∧ Avoids P (cyclesFrom unvisited' rest) ∧
      unvisited'.length ≤ unvisited.length ∧
      (∀ name, Named.contains unvisited name = false → Named.contains unvisited' name = false) ∧
      ∀ entry ∈ entries, P entry.2 → Named.contains unvisited' entry.2 = false ∧ entry.2 ∉ entered := by
  induction n generalizing unvisited entered entries rest with
  | zero => omega
  | succ n ihn =>
    induction entries generalizing unvisited with
    | nil => exact ⟨unvisited, hstate, h, Nat.le_refl _, fun _ h => h, nofun⟩
    | cons entry entries ih =>
      obtain ⟨path, name⟩ := entry
      obtain ⟨rfl, hentries⟩ := List.forall_mem_cons.1 hentries
      rw [List.cons_append] at h
      by_cases hcycle : cycleTo name path = []
      case neg =>
        -- a cycle is met, but not through a name with the property
        obtain ⟨step, hstep, hsource⟩ := exists_source_of_cycleTo_ne_nil hcycle
        rw [cyclesFrom_cons_of_cycle hcycle] at h
        obtain ⟨hnot, h⟩ := List.forall_mem_cons.1 h
        obtain ⟨unvisited', hstate', hrest, hlength, hvisited, hall⟩ := ih hn hstate hentries h
        exact ⟨unvisited', hstate', hrest, hlength, hvisited,
          List.forall_mem_cons.2 ⟨fun hP => absurd (hsource ▸ hP) (hnot step hstep), hall⟩⟩
      case pos =>
        have hname := not_mem_of_cycleTo_eq_nil hcycle
        cases hf : Named.find? unvisited name with
        | none =>
          rw [cyclesFrom_cons_of_none hcycle hf] at h
          obtain ⟨unvisited', hstate', hrest, hlength, hvisited, hall⟩ := ih hn hstate hentries h
          have hseen := hvisited name (Named.find?_eq_none_iff.1 hf)
          exact ⟨unvisited', hstate', hrest, hlength, hvisited,
            List.forall_mem_cons.2 ⟨fun _ => ⟨hseen, hname⟩, hall⟩⟩
        | some f =>
          have hshort := Named.length_without_lt hf
          rw [cyclesFrom_cons_of_some hcycle hf] at h
          -- first the spreads of `f`, one step further down, and then the other entries
          obtain ⟨inner, hinner, hrest, hlength, hvisited, hspreads⟩ := ihn (by omega) (hstate.enter name)
            (List.forall_mem_map.2 fun s _ => by simp) h
          -- what `f` spreads with the property has been gone through and is not on the path
          have hends : d.Ends P name := by
            apply Acc.intro
            rintro other ⟨⟨g, hg, spread, hspread, rfl⟩, hP⟩
            obtain rfl := Option.some.inj ((hstate.first name f hf).symm.trans hg)
            have hseen := hspreads _ (List.mem_map.2 ⟨spread, hspread, rfl⟩) hP
            exact hinner.settled _ hseen.1 hseen.2
          obtain ⟨unvisited', hstate', hrest, hlength', hvisited', hall⟩ :=
            ih (by omega) (hinner.leave hends) hentries hrest
          have hwithout {other : String} (h : Named.contains (Named.without unvisited name) other = false) :
              Named.contains unvisited' other = false := hvisited' other (hvisited other h)
          exact ⟨unvisited', hstate', hrest, by omega,
            fun other hother => hwithout (by simp [Named.contains_without, hother]),
            List.forall_mem_cons.2 ⟨fun _ => ⟨hwithout (by simp [Named.contains_without]), hname⟩, hall⟩⟩

namespace Document

variable {d : Document} {P : String → Prop}

/-- Where the walk over all fragments meets no cycle through a name with the property, every path among such names
ends. -/
theorem ends_of_fragmentCycles (h : Avoids P d.fragmentCycles) {name : String} (hP : P name) : d.Ends P name := by
  -- a name that no fragment has leads nowhere
  have hno {name : String} (hname : Named.contains d.fragments name = false) : d.Ends P name := by
    apply Acc.intro
    rintro other ⟨⟨f, hf, -⟩, -⟩
    exact nomatch (Named.find?_eq_none_iff.2 hname).symm.trans hf
  have hstart : WalkState d P d.fragments [] := ⟨fun _ _ hf => hf, fun _ hname _ => hno hname⟩
  have hentries : ∀ entry ∈ d.fragments.map fun f => (([] : List SpreadStep), f.name.value),
      entry.1.map (·.source) = [] := List.forall_mem_map.2 fun _ _ => rfl
  rw [fragmentCycles, ← List.append_nil (d.fragments.map _)] at h
  obtain ⟨unvisited', hstate, -, -, -, hall⟩ :=
    exists_walkState_of_cyclesFrom_append (Nat.lt_succ_self _) hstart hentries h
  cases hname : Named.contains d.fragments name with
  | false => exact hno hname
  | true =>
    obtain ⟨f, hf, hfname⟩ := List.any_eq_true.1 hname
    have hfname : f.name.value = name := of_decide_eq_true hfname
    have hseen := hall _ (List.mem_map.2 ⟨f, hf, rfl⟩) (hfname ▸ hP)
    rw [← hfname]
    exact hstate.settled _ hseen.1 hseen.2

private theorem Ends.not_transGen_self {name : String} (h : d.Ends P name) :
    ¬Relation.TransGen (fun name other => d.Spreads name other ∧ P other) name name := by
  -- the accessibility is along the spreads turned around
  have hflip {a b : String} (hab : Relation.TransGen (fun name other => d.Spreads name other ∧ P other) a b) :
      Relation.TransGen (fun other name => d.Spreads name other ∧ P other) b a := by
    induction hab with
    | single h => exact .single h
    | tail _ h ih => exact .trans (.single h) ih
  intro hself
  induction Acc.transGen h with
  | intro name _ ih => exact ih name (hflip hself) h hself

theorem isCycle_of_mem_fragmentCycles {cycle : List SpreadStep} (h : cycle ∈ d.fragmentCycles) : d.IsCycle cycle :=
  isCycle_of_mem_cyclesFrom (fun _ _ hf => hf) (List.forall_mem_map.2 fun f _ => ⟨f.name.value, .nil _⟩) h

/-- A way back to a name goes through names that are linked with it. -/
theorem Linked.transGen {name other : String} (h : d.Linked name other) :
    Relation.TransGen (fun a b => d.Spreads a b ∧ d.Linked name b) name other := by
  obtain ⟨hto, hback⟩ := h
  induction hto with
  | single h => exact .single ⟨h, .single h, hback⟩
  | tail hto h ih => exact (ih (.head h hback)).tail ⟨h, hto.tail h, hback⟩

/-- For every name that leads back to itself a cycle is met, all of whose names are linked with it. -/
theorem exists_fragmentCycle {name : String} (h : Relation.TransGen d.Spreads name name) :
    ∃ cycle ∈ d.fragmentCycles, ∀ step ∈ cycle, d.Linked name step.source := by
  have hmet : ¬Avoids (d.Linked name) d.fragmentCycles := fun havoids =>
    (ends_of_fragmentCycles havoids ⟨h, h⟩).not_transGen_self (Linked.transGen ⟨h, h⟩)
  simp only [Avoids, not_forall, not_not] at hmet
  obtain ⟨cycle, hcycle, step, hstep, hlinked⟩ := hmet
  refine ⟨cycle, hcycle, fun other hother => ?_⟩
  have hlink := (isCycle_of_mem_fragmentCycles hcycle).linked hstep hother
  exact ⟨hlinked.1.trans hlink.1, hlink.2.trans hlinked.2⟩

/-- Where the walk over all fragments meets no cycle, no fragment spreads itself, directly or through others. -/
theorem not_transGen_spreads_self (h : d.fragmentCycles = []) (name : String) :
    ¬Relation.TransGen d.Spreads name name := by
  intro hself
  obtain ⟨cycle, hcycle, -⟩ := exists_fragmentCycle hself
  rw [h] at hcycle
  cases hcycle

/-- The walk over all fragments meets a cycle exactly where some fragment spreads itself. -/
theorem fragmentCycles_eq_nil_iff : d.fragmentCycles = [] ↔ ∀ name, ¬Relation.TransGen d.Spreads name name := by
  refine ⟨not_transGen_spreads_self, fun h => List.eq_nil_iff_forall_not_mem.2 fun cycle hcycle => ?_⟩
  have hiscycle := isCycle_of_mem_fragmentCycles hcycle
  obtain ⟨step, hstep⟩ := List.exists_mem_of_ne_nil cycle hiscycle.1
  exact h step.source (hiscycle.linked hstep hstep).1

end Document

/-- One entry of the walk over fragments; the state holds the fragments not entered yet. -/
def spreadStep (unvisited : List Fragment) :
    List SpreadStep × String → WalkStep (List Fragment) (List SpreadStep × String) (List SpreadStep)
  | (path, name) =>
    match cycleTo name path with
    | step :: steps => ⟨[step :: steps], unvisited, []⟩
    | [] => match Named.find? unvisited name with
      | none => ⟨[], unvisited, []⟩
      | some f =>
        ⟨[], Named.without unvisited name, f.selectionSet.spreads.map fun s => (path ++ [⟨name, s⟩], s.name.value)⟩

private theorem doesTasks_spreadStep : DoesTasks spreadStep cyclesFrom where
  nil _ := by rw [cyclesFrom]
  cons unvisited entry entries := by
    obtain ⟨path, name⟩ := entry
    rw [spreadStep]
    cases hcycle : cycleTo name path with
    | cons step steps =>
      rw [cyclesFrom_cons_of_cycle (by simp [hcycle]), hcycle, List.singleton_append, List.nil_append]
    | nil =>
      cases hf : Named.find? unvisited name with
      | none => rw [cyclesFrom_cons_of_none hcycle hf, List.nil_append, List.nil_append]
      | some f => rw [cyclesFrom_cons_of_some hcycle hf, List.nil_append]

private theorem length_next_spreadStep (unvisited : List Fragment) (entry : List SpreadStep × String) :
    spreadCount (spreadStep unvisited entry).state + (spreadStep unvisited entry).next.length ≤
      spreadCount unvisited := by
  obtain ⟨path, name⟩ := entry
  rw [spreadStep]
  cases cycleTo name path with
  | cons step steps => exact Nat.le_refl _
  | nil =>
    cases hf : Named.find? unvisited name with
    | none => exact Nat.le_refl _
    | some f => simpa using spreadCount_without_le hf

private theorem mem_fragmentCycle_iff {d : Document} {spans : List Span} :
    (∃ diagnostic ∈ fragmentCycle d, diagnostic.spans = spans) ↔
      ∃ cycle ∈ d.fragmentCycles, cycle.map (·.spread.span) = spans := by
  simp only [fragmentCycle, List.mem_map]
  constructor
  · rintro ⟨_, ⟨cycle, hcycle, rfl⟩, rfl⟩
    exact ⟨cycle, hcycle, rfl⟩
  · rintro ⟨cycle, hcycle, rfl⟩
    exact ⟨_, ⟨cycle, hcycle, rfl⟩, rfl⟩

/-- Nothing is reported exactly where no fragment leads back to itself. Each report is at the spreads of a cycle, and
for each fragment that leads back to itself some report is at a cycle whose fragments all lead to it and can be
reached from it. The walk looks at each fragment and each spread once at most. -/
theorem fragmentCycle_finds_cycles (d : Document) :
    (fragmentCycle d = [] ↔ ∀ name, ¬Relation.TransGen d.Spreads name name) ∧
    (∀ diagnostic ∈ fragmentCycle d, ∃ cycle, d.IsCycle cycle ∧ diagnostic.spans = cycle.map (·.spread.span)) ∧
    (∀ name, Relation.TransGen d.Spreads name name → ∃ diagnostic ∈ fragmentCycle d, ∃ cycle, d.IsCycle cycle ∧
      diagnostic.spans = cycle.map (·.spread.span) ∧ ∀ step ∈ cycle, d.Linked name step.source) ∧
    ∀ n, d.fragments.length + spreadCount d.fragments ≤ n →
      walkWithin spreadStep n d.fragments (d.fragments.map fun f => ([], f.name.value)) = some d.fragmentCycles := by
  refine ⟨?_, fun diagnostic hdiagnostic => ?_, fun name hname => ?_, fun n hn => ?_⟩
  · rw [fragmentCycle, List.map_eq_nil_iff, Document.fragmentCycles_eq_nil_iff]
  · obtain ⟨cycle, hcycle, hspans⟩ := mem_fragmentCycle_iff.1 ⟨diagnostic, hdiagnostic, rfl⟩
    exact ⟨cycle, Document.isCycle_of_mem_fragmentCycles hcycle, hspans.symm⟩
  · obtain ⟨cycle, hcycle, hlinked⟩ := Document.exists_fragmentCycle hname
    obtain ⟨diagnostic, hdiagnostic, hspans⟩ := mem_fragmentCycle_iff.2 ⟨cycle, hcycle, rfl⟩
    exact ⟨diagnostic, hdiagnostic, cycle, Document.isCycle_of_mem_fragmentCycles hcycle, hspans, hlinked⟩
  · refine doesTasks_spreadStep.walkWithin_eq length_next_spreadStep ?_
    rwa [List.length_map]

private theorem Document.spreads_iff {d : Document} {name other : String} : d.Spreads name other ↔
    (d.fragment? name).any fun f => f.selectionSet.spreads.any (·.name.value = other) := by
  simp [Spreads, Option.any_eq_true]

instance (d : Document) (name other : String) : Decidable (d.Spreads name other) :=
  decidable_of_iff' _ Document.spreads_iff

set_option maxRecDepth 20000 in
/-- Of three fragments two spread each other, and one of them the third, which spreads itself. -/
theorem fragmentCycle_finds_cycles_of_knot :
    ∃ d, Document.parse "fragment A on T \x7b ...C ...B \x7d fragment B on T \x7b ...A \x7d fragment C on T \x7b ...C \x7d" =
        .ok d ∧
      d.fragmentCycles.map (·.map (·.source)) = [["C"], ["A", "B"]] ∧ fragmentCycle d ≠ [] ∧
      Relation.TransGen d.Spreads "B" "B" ∧
      ∃ diagnostic ∈ fragmentCycle d, ∃ cycle, d.IsCycle cycle ∧ diagnostic.spans = cycle.map (·.spread.span) ∧
        ∀ step ∈ cycle, d.Linked "B" step.source := by
  obtain ⟨text, htext, hcheck⟩ : ∃ text,
      "fragment A on T \x7b ...C ...B \x7d fragment B on T \x7b ...A \x7d fragment C on T \x7b ...C \x7d".toList = text ∧
      (Parse.document.run (lexChars text)).toOption.any fun d =>
        d.Spreads "B" "A" ∧ d.Spreads "A" "B" ∧ d.fragments.length + spreadCount d.fragments ≤ 7 ∧
        (walkWithin spreadStep 7 d.fragments (d.fragments.map fun f => ([], f.name.value))).map
          (·.map (·.map (·.source))) = some [["C"], ["A", "B"]] :=
    ⟨_, String.toList_ofList, by decide +kernel⟩
  rw [← Document.parse_eq htext] at hcheck
  cases hd : Document.parse _ with
  | error cause => simp [hd, Except.toOption] at hcheck
  | ok d =>
    simp only [hd, Except.toOption, Option.any_some, decide_eq_true_eq] at hcheck
    obtain ⟨hba, hab, hcount, hwalk⟩ := hcheck
    obtain ⟨hnone, -, hlinked, hends⟩ := fragmentCycle_finds_cycles d
    have hself : Relation.TransGen d.Spreads "B" "B" := .tail (.single hba) hab
    rw [hends 7 hcount, Option.map_some, Option.some.injEq] at hwalk
    exact ⟨d, rfl, hwalk, fun h => hnone.1 h "B" hself, hself, hlinked "B" hself⟩

end GraphQL
