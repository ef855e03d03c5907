import GraphQL.Proofs.DocumentParts
import GraphQL.Proofs.Evaluation
import GraphQL.Proofs.SpreadGraph
import GraphQL.Proofs.Visits

/-!
# What is reached through spreads

An operation reaches the names that are spread in it, at any depth of fields and inline fragments, and those spread in
the first fragments of such names (`Document.ReachesName`). Fragments whose names no operation reaches are reported as
unused. Its root fields are those at its top level, where inline fragments and the fragments spread at the top level
are opened (`Document.SelectsAtTop`), each fragment once; subscriptions must have one response key only among them.
Both walks over fragments come to an end, whatever cycles the fragments form (`Document.fragments_followed`).
-/

namespace GraphQL

/-- The selection is written in the set, at any depth of fields and inline fragments. -/
inductive SelectionSet.Holds : SelectionSet → Selection → Prop where
  | top {set : SelectionSet} {s : Selection} (h : s ∈ set.selections) : Holds set s
  | nested {set inner : SelectionSet} {t s : Selection} (ht : t ∈ set.selections) (hinner : inner ∈ t.children)
    (h : Holds inner s) : Holds set s

mutual

private theorem SelectionSet.holds_of_mem : (set : SelectionSet) → ∀ s ∈ set.allSelections, set.Holds s
  | ⟨items, span⟩, s, hs => by
    obtain ⟨t, ht, rfl | ⟨inner, hinner, h⟩⟩ := holds_of_mem_allOfSelections items s hs
    · exact .top ht
    · exact .nested ht hinner h

private theorem holds_of_mem_allOfSelections : (items : List Selection) → ∀ s ∈ allOfSelections items,
    ∃ t ∈ items, s = t ∨ ∃ inner ∈ t.children, inner.Holds s
  | [], s, hs => nomatch hs
  | t :: rest, s, hs => by
    rcases List.mem_append.1 hs with hs | hs
    · exact ⟨t, List.mem_cons_self .., Selection.holds_of_mem t s hs⟩
    · obtain ⟨u, hu, h⟩ := holds_of_mem_allOfSelections rest s hs
      exact ⟨u, List.mem_cons_of_mem _ hu, h⟩

private theorem Selection.holds_of_mem : (t : Selection) → ∀ s ∈ t.allSelections,
    s = t ∨ ∃ inner ∈ t.children, inner.Holds s
  | .field ⟨_, _, _, _, none, _⟩, _, hs => .inl (List.mem_singleton.1 hs)
  | .field ⟨_, _, _, _, some set, _⟩, s, hs =>
    (List.mem_cons.1 hs).imp_right fun hs => ⟨set, rfl, set.holds_of_mem s hs⟩
  | .spread _, _, hs => .inl (List.mem_singleton.1 hs)
  | .inline ⟨_, _, set, _⟩, s, hs =>
    (List.mem_cons.1 hs).imp_right fun hs => ⟨set, rfl, set.holds_of_mem s hs⟩

end

/-- The list of all selections has those that are written in the set at any depth. -/
private theorem SelectionSet.mem_allSelections_iff {set : SelectionSet} {s : Selection} :
    s ∈ set.allSelections ↔ set.Holds s := by
  refine ⟨set.holds_of_mem s, fun h => ?_⟩
  induction h with
  | @top set s h =>
    rw [allSelections_eq]
    exact List.mem_flatMap.2 ⟨s, h, by rw [Selection.allSelections_eq]; exact List.mem_cons_self ..⟩
  | @nested set inner t s ht hinner _ ih =>
    rw [allSelections_eq]
    refine List.mem_flatMap.2 ⟨t, ht, ?_⟩
    rw [Selection.allSelections_eq]
    exact List.mem_cons_of_mem _ (List.mem_flatMap.2 ⟨inner, Option.mem_toList.2 hinner, ih⟩)

private theorem SelectionSet.mem_spreads_iff {set : SelectionSet} {spread : FragmentSpread} :
    spread ∈ set.spreads ↔ set.Holds (.spread spread) := by
  rw [← mem_allSelections_iff, spreads, List.mem_filterMap]
  constructor
  · rintro ⟨s, hs, h⟩
    cases s with
    | spread => exact Option.some.inj h ▸ hs
    | field | inline => cases h
  · exact fun h => ⟨_, h, rfl⟩

namespace Document

variable {d : Document} {o : Operation} {name : String} {f : Fragment}

/-- Spreads lead from the operation to the name, which need not be that of a fragment. -/
inductive ReachesName (d : Document) (o : Operation) : String → Prop where
  | spread {spread : FragmentSpread} (h : o.selectionSet.Holds (.spread spread)) : ReachesName d o spread.name.value
  | through {name : String} {f : Fragment} {spread : FragmentSpread} (hname : ReachesName d o name)
    (hf : d.fragment? name = some f) (h : f.selectionSet.Holds (.spread spread)) : ReachesName d o spread.name.value

private theorem name_of_fragment? (hf : d.fragment? name = some f) : f.name.value = name := by
  simpa using List.find?_some hf

private theorem Reaches.fragment? (h : d.Reaches o f) : d.fragment? f.name.value = some f := by
  cases h with
  | spread _ hf | through _ _ hf => rwa [name_of_fragment? hf]

private theorem Reaches.reachesName (h : d.Reaches o f) : d.ReachesName o f.name.value := by
  induction h with
  | spread h hf =>
    rw [name_of_fragment? hf]
    exact .spread (SelectionSet.mem_spreads_iff.1 h)
  | through hg h hf ih =>
    rw [name_of_fragment? hf]
    exact .through ih hg.fragment? (SelectionSet.mem_spreads_iff.1 h)

private theorem ReachesName.reaches (h : d.ReachesName o name) (hf : d.fragment? name = some f) : d.Reaches o f := by
  induction h generalizing f with
  | spread h => exact .spread (SelectionSet.mem_spreads_iff.2 h) hf
  | through _ hg h ih => exact .through (ih hg) (SelectionSet.mem_spreads_iff.2 h) hf

/-- The names reached are those spread in the operation and in the fragments that it reaches. -/
private theorem reachesName_iff : d.ReachesName o name ↔
    ∃ spread ∈ o.selectionSet.spreads ++ (d.reachedBy o).flatMap (·.selectionSet.spreads),
      spread.name.value = name := by
  simp only [List.mem_append, List.mem_flatMap, mem_reachedBy_iff]
  constructor
  · intro h
    cases h with
    | spread h => exact ⟨_, .inl (SelectionSet.mem_spreads_iff.2 h), rfl⟩
    | through hname hf h => exact ⟨_, .inr ⟨_, hname.reaches hf, SelectionSet.mem_spreads_iff.2 h⟩, rfl⟩
  · rintro ⟨spread, h | ⟨g, hg, h⟩, rfl⟩
    · exact .spread (SelectionSet.mem_spreads_iff.1 h)
    · exact .through hg.reachesName hg.fragment? (SelectionSet.mem_spreads_iff.1 h)

instance (d : Document) (o : Operation) (name : String) : Decidable (d.ReachesName o name) :=
  decidable_of_iff _ reachesName_iff.symm

end Document

def unusedFragmentFinding (f : Fragment) : Diagnostic :=
  Rule.unusedFragment.finding ("Fragment " ++ quote f.name.value ++ " is never used.") [f.span]

/-- The rule reports the fragments that no operation reaches, in their order. -/
private theorem unusedFragment_eq (d : Document) : unusedFragment d =
    (d.fragments.filter fun f => ¬∃ o ∈ d.operations, d.ReachesName o f.name.value).map unusedFragmentFinding := by
  rw [unusedFragment, Document.unusedFragments]
  refine congrArg (List.map unusedFragmentFinding) (List.filter_congr fun f hf => ?_)
  rw [Bool.eq_iff_iff, Bool.not_eq_true', ← Bool.not_eq_true, decide_eq_true_eq, not_iff_not, Named.contains,
    List.any_eq_true]
  constructor
  · rintro ⟨g, hg, hname⟩
    obtain ⟨o, ho, hg⟩ := List.mem_flatMap.1 hg
    have hname : g.name.value = f.name.value := of_decide_eq_true hname
    exact ⟨o, ho, hname ▸ (Document.mem_reachedBy_iff.1 hg).reachesName⟩
  · rintro ⟨o, ho, hreaches⟩
    -- the first fragment of the name need not be `f`
    have hfirst : (d.fragment? f.name.value).isSome := List.find?_isSome.2 ⟨f, hf, by simp⟩
    obtain ⟨g, hg⟩ := Option.isSome_iff_exists.1 hfirst
    exact ⟨g, List.mem_flatMap.2 ⟨o, ho, Document.mem_reachedBy_iff.2 (hreaches.reaches hg)⟩,
      decide_eq_true (Document.name_of_fragment? hg)⟩

/-! ### Root fields -/

mutual

/-- The fields, and the names of the spreads, that stand at the top level once inline fragments are opened. -/
def openedSelections : List Selection → List (Field ⊕ String)
  | [] => []
  | s :: rest => s.opened ++ openedSelections rest

def Selection.opened : Selection → List (Field ⊕ String)
  | .field f => [.inl f]
  | .spread s => [.inr s.name.value]
  | .inline ⟨_, _, ⟨selections, _⟩, _⟩ => openedSelections selections

end

namespace SelectionSet

def opened (set : SelectionSet) : List (Field ⊕ String) := openedSelections set.selections

/-- The fields at the top level of a selection set itself, in inline fragments too. -/
def ownFields (set : SelectionSet) : List Field := set.opened.filterMap Sum.getLeft?

/-- The names spread at the top level of a selection set itself, in inline fragments too. -/
def ownSpreads (set : SelectionSet) : List String := set.opened.filterMap Sum.getRight?

end SelectionSet

namespace Document

/-- The selection set selects the field at its top level, in itself or in fragments. -/
inductive SelectsAtTop (d : Document) : SelectionSet → Field → Prop where
  | field {set : SelectionSet} {f : Field} (h : .field f ∈ set.selections) : SelectsAtTop d set f
  | inline {set : SelectionSet} {i : InlineFragment} {f : Field} (h : .inline i ∈ set.selections)
    (hf : SelectsAtTop d i.selectionSet f) : SelectsAtTop d set f
  | spread {set : SelectionSet} {spread : FragmentSpread} {g : Fragment} {f : Field}
    (h : .spread spread ∈ set.selections) (hg : d.fragment? spread.name.value = some g)
    (hf : SelectsAtTop d g.selectionSet f) : SelectsAtTop d set f

/-- The fragments that are opened at the top level of a selection set. -/
abbrev Opens (d : Document) (set : SelectionSet) : Fragment → Prop :=
  d.LeadsTo (·.selectionSet.ownSpreads) set.ownSpreads

variable {d : Document}

private theorem openedSelections_eq (items : List Selection) : openedSelections items = items.flatMap (·.opened) := by
  induction items with
  | nil => rfl
  | cons s rest ih => rw [openedSelections, List.flatMap_cons, ih]

private theorem opened_subset {set : SelectionSet} {s : Selection} (h : s ∈ set.selections) :
    s.opened ⊆ set.opened := by
  intro x hx
  rw [SelectionSet.opened, openedSelections_eq]
  exact List.mem_flatMap.2 ⟨s, h, hx⟩

private theorem opened_inline (i : InlineFragment) : (Selection.inline i).opened = i.selectionSet.opened := by
  obtain ⟨_, _, ⟨_, _⟩, _⟩ := i
  rfl

/-- What stands at the top level selects the field: as the field itself, or as a spread of a fragment that does. -/
def Yields (d : Document) (f : Field) : Field ⊕ String → Prop
  | .inl g => g = f
  | .inr name => ∃ g, d.fragment? name = some g ∧ d.SelectsAtTop g.selectionSet f

mutual

private theorem selectsAtTop_of_openedSelections {f : Field} {x : Field ⊕ String} (hx : d.Yields f x)
    {set : SelectionSet} :
    (items : List Selection) → items ⊆ set.selections → x ∈ openedSelections items → d.SelectsAtTop set f
  | [], _, h => nomatch h
  | s :: rest, hitems, h => by
    obtain ⟨hs, hrest⟩ := List.cons_subset.1 hitems
    rcases List.mem_append.1 h with h | h
    · exact selectsAtTop_of_opened hx s hs h
    · exact selectsAtTop_of_openedSelections hx rest hrest h

/-- What a selection opens at the top level is selected there. -/
private theorem selectsAtTop_of_opened {f : Field} {x : Field ⊕ String} (hx : d.Yields f x) {set : SelectionSet} :
    (s : Selection) → s ∈ set.selections → x ∈ s.opened → d.SelectsAtTop set f
  | .field g, hs, h => by
    obtain rfl := List.mem_singleton.1 h
    obtain rfl : g = f := hx
    exact .field hs
  | .spread spread, hs, h => by
    obtain rfl := List.mem_singleton.1 h
    obtain ⟨g, hg, hf⟩ := hx
    exact .spread hs hg hf
  | .inline ⟨_, _, ⟨items, _⟩, _⟩, hs, h =>
    .inline hs (selectsAtTop_of_openedSelections hx items (List.Subset.refl _) h)

end

/-- The fields selected at the top level are those of the selection set itself and of the fragments opened there. -/
theorem selectsAtTop_iff {set : SelectionSet} {f : Field} : d.SelectsAtTop set f ↔
    f ∈ set.ownFields ∨ ∃ g, d.Opens set g ∧ f ∈ g.selectionSet.ownFields := by
  have hown {set : SelectionSet} {f : Field} (h : f ∈ set.ownFields) : d.SelectsAtTop set f := by
    obtain ⟨x, hx, hf⟩ := List.mem_filterMap.1 h
    exact selectsAtTop_of_openedSelections (Sum.getLeft?_eq_some_iff.1 hf ▸ rfl) _ (List.Subset.refl _) hx
  have hspread {set : SelectionSet} {f : Field} {name : String} {g : Fragment} (h : name ∈ set.ownSpreads)
      (hg : d.fragment? name = some g) (hf : d.SelectsAtTop g.selectionSet f) : d.SelectsAtTop set f := by
    obtain ⟨x, hx, hname⟩ := List.mem_filterMap.1 h
    exact selectsAtTop_of_openedSelections (Sum.getRight?_eq_some_iff.1 hname ▸ ⟨g, hg, hf⟩) _ (List.Subset.refl _) hx
  constructor
  · intro h
    induction h with
    | field h => exact .inl (List.mem_filterMap.2 ⟨_, opened_subset h (List.mem_singleton_self _), rfl⟩)
    | inline h _ ih =>
      have hsub := opened_subset h
      rw [opened_inline] at hsub
      exact ih.imp (fun hf => List.filterMap_subset _ hsub hf) fun ⟨g, hg, hf⟩ =>
        ⟨g, hg.mono (List.filterMap_subset _ hsub), hf⟩
    | @spread set spread g f h hg _ ih =>
      have hname : spread.name.value ∈ set.ownSpreads :=
        List.mem_filterMap.2 ⟨_, opened_subset h (List.mem_singleton_self _), rfl⟩
      have hopens : d.Opens set g := .first hname hg
      rcases ih with hf | ⟨g', hg', hf⟩
      · exact .inr ⟨_, hopens, hf⟩
      · exact .inr ⟨g', hopens.trans hg', hf⟩
  · rintro (hf | ⟨g, hg, hf⟩)
    · exact hown hf
    · have hf := hown hf
      clear * - hg hf hspread
      induction hg with
      | first h hg => exact hspread h hg hf
      | through _ h hg ih => exact ih (hspread h hg hf)

end Document

/-- What stands at the top level, without the type that it stands on. -/
def TopItem.bare : TopItem → Field ⊕ String
  | .field placed => .inl placed.field
  | .spread name => .inr name

namespace Schema

variable {s : Schema}

mutual

/-- The items of a walk are what stands at the top level, whatever the types. -/
private theorem map_bare_topItems (parent : Option TypeDefinition) : (items : List Selection) →
    (s.topItems parent items).map TopItem.bare = openedSelections items
  | [] => rfl
  | selection :: rest => by
    rw [topItems, openedSelections, List.map_append, map_bare_topItemsOf parent selection,
      map_bare_topItems parent rest]

private theorem map_bare_topItemsOf (parent : Option TypeDefinition) : (selection : Selection) →
    (s.topItemsOf parent selection).map TopItem.bare = selection.opened
  | .field _ => rfl
  | .spread _ => rfl
  | .inline ⟨_, _, ⟨items, _⟩, _⟩ => map_bare_topItems _ items

end

/-- An expansion has the fields that stand among its items, and those of each fragment that its spreads lead to. -/
theorem expand_perm (unentered : List Fragment) (items : List TopItem) :
    ((s.expand unentered items).map (·.field)).Perm ((items.map TopItem.bare).filterMap Sum.getLeft? ++
      (fragmentsFrom (·.selectionSet.ownSpreads) unentered ((items.map TopItem.bare).filterMap Sum.getRight?)).flatMap
        (·.selectionSet.ownFields)) := by
  induction unentered, items using expand.induct s with
  | case1 unentered => simp [expand, fragmentsFrom]
  | case2 unentered placed items ih =>
    rw [expand]
    exact ih.cons _
  | case3 unentered name items hnone ih =>
    simp only [expand_spread_of_none hnone, List.map_cons, TopItem.bare, List.filterMap_cons, Sum.getLeft?_inr,
      Sum.getRight?_inr, fragmentsFrom_cons_of_none hnone]
    exact ih
  | case4 unentered name items f hf ih =>
    rw [expand_spread_of_some hf]
    have hitems : (s.fragmentItems f).map TopItem.bare = f.selectionSet.opened := map_bare_topItems ..
    rw [List.map_append, hitems, List.filterMap_append, List.filterMap_append] at ih
    simp only [List.map_cons, TopItem.bare, List.filterMap_cons, Sum.getLeft?_inr, Sum.getRight?_inr,
      fragmentsFrom_cons_of_some hf, List.flatMap_cons]
    -- the fields of `f` come before those of the items, and not after them
    refine ih.trans ?_
    rw [List.append_assoc]
    exact List.perm_append_comm_assoc ..

end Schema

namespace Document

/-- The root fields of an operation, in the order in which they are met. -/
def rootFields (s : Schema) (d : Document) (o : Operation) : List Field :=
  (s.topFields d (s.root? o.kind) o.selectionSet).map (·.field)

/-- The root fields are those of the operation and of the fragments opened at its top level. -/
private theorem rootFields_perm (s : Schema) (d : Document) (o : Operation) : (d.rootFields s o).Perm
    (o.selectionSet.ownFields ++
      (fragmentsFrom (·.selectionSet.ownSpreads) d.fragments o.selectionSet.ownSpreads).flatMap
        (·.selectionSet.ownFields)) := by
  have hperm := s.expand_perm d.fragments (s.topItems (s.root? o.kind) o.selectionSet.selections)
  rwa [Schema.map_bare_topItems] at hperm

/-- A root field is one that the operation selects at its top level. -/
private theorem mem_rootFields_iff {s : Schema} {d : Document} {o : Operation} {f : Field} :
    f ∈ d.rootFields s o ↔ d.SelectsAtTop o.selectionSet f := by
  rw [(d.rootFields_perm s o).mem_iff, selectsAtTop_iff]
  simp only [List.mem_append, List.mem_flatMap, mem_fragmentsFrom_iff]

end Document

/-! ### Response keys -/

/-- The span of the first field with the key. -/
def IsFirstOf (fields : List Field) (key : String) (span : Span) : Prop :=
  ∃ f, fields.find? (·.responseKey = key) = some f ∧ span = f.span

private theorem furtherKeys_forall₂ {seen : List String} (hseen : seen ≠ []) (fields : List Field) :
    List.Forall₂ (fun key span => key ∉ seen ∧ IsFirstOf fields key span)
      ((fields.map (·.responseKey)).filter (· ∉ seen)).eraseDups (furtherKeys seen fields) := by
  induction fields generalizing seen with
  | nil => exact .nil
  | cons f fields ih =>
    by_cases hkey : f.responseKey ∈ seen
    · rw [furtherKeys, if_pos hkey, List.map_cons, List.filter_cons_of_neg (by simpa using hkey)]
      refine (ih hseen).imp fun key span ⟨hnot, g, hg, hspan⟩ => ⟨hnot, g, ?_, hspan⟩
      have hne : f.responseKey ≠ key := fun heq => hnot (heq ▸ hkey)
      rw [List.find?_cons_of_neg (by simpa using hne), hg]
    · have hseen' : seen.isEmpty = false := by simpa using hseen
      rw [furtherKeys, if_neg hkey, hseen', List.map_cons, List.filter_cons_of_pos (by simpa using hkey),
        List.eraseDups_cons, List.filter_filter]
      refine .cons ⟨hkey, f, by simp, rfl⟩ ?_
      have hfilter : (fun key => (!key == f.responseKey) && decide (key ∉ seen)) =
          fun key => decide (key ∉ f.responseKey :: seen) := by
        funext key
        simp [beq_eq_decide]
      rw [hfilter]
      refine (ih (List.cons_ne_nil f.responseKey seen)).imp fun key span ⟨hnot, g, hg, hspan⟩ => ?_
      obtain ⟨hne, hnot⟩ := not_or.1 (mt List.mem_cons.2 hnot)
      refine ⟨hnot, g, ?_, hspan⟩
      rw [List.find?_cons_of_neg (by simpa using Ne.symm hne), hg]

/-- Of the keys after the first one, each has the span of its first field. -/
theorem furtherKeys_nil_forall₂ (fields : List Field) :
    List.Forall₂ (IsFirstOf fields) (fields.map (·.responseKey)).eraseDups.tail (furtherKeys [] fields) := by
  cases fields with
  | nil => exact .nil
  | cons f fields =>
    have hfirst : furtherKeys [] (f :: fields) = furtherKeys [f.responseKey] fields := by simp [furtherKeys]
    have hfilter : (fun key => !key == f.responseKey) = fun key => decide (key ∉ [f.responseKey]) := by
      funext key
      simp [beq_eq_decide]
    rw [hfirst, List.map_cons, List.eraseDups_cons, List.tail_cons, hfilter]
    refine (furtherKeys_forall₂ (List.cons_ne_nil _ _) fields).imp fun key span ⟨hnot, g, hg, hspan⟩ => ⟨g, ?_, hspan⟩
    rw [List.find?_cons_of_neg (by simpa using fun heq => hnot (List.mem_singleton.2 heq.symm)), hg]

/-- There are two keys or more if and only if two of them differ. -/
private theorem two_le_length_eraseDups_iff {keys : List String} :
    2 ≤ keys.eraseDups.length ↔ ∃ a ∈ keys, ∃ b ∈ keys, a ≠ b := by
  cases keys with
  | nil => simp
  | cons a keys =>
    have hother : 2 ≤ (a :: keys).eraseDups.length ↔ ∃ b ∈ keys, b ≠ a := by
      rw [List.eraseDups_cons, List.length_cons, Nat.succ_le_succ_iff, Nat.succ_le_iff, List.length_pos_iff_exists_mem]
      simp only [List.mem_eraseDups, List.mem_filter, Bool.not_eq_true', beq_eq_false_iff_ne]
    rw [hother]
    constructor
    · rintro ⟨b, hb, hne⟩
      exact ⟨b, List.mem_cons_of_mem _ hb, a, List.mem_cons_self .., hne⟩
    · rintro ⟨b, hb, c, hc, hne⟩
      -- one of the two is not the first key
      by_cases hba : b = a
      · have hca : c ≠ a := fun hca => hne (hba.trans hca.symm)
        exact ⟨c, (List.mem_cons.1 hc).resolve_left hca, hca⟩
      · exact ⟨b, (List.mem_cons.1 hb).resolve_left hba, hba⟩

/-- One item on a walk through what is at the top level; the state holds the fragments not opened yet. -/
def expandStep (s : Schema) (unentered : List Fragment) : TopItem → WalkStep (List Fragment) TopItem PlacedField
  | .field placed => ⟨[placed], unentered, []⟩
  | .spread name => match Named.find? unentered name with
    | none => ⟨[], unentered, []⟩
    | some f => ⟨[], Named.without unentered name, s.fragmentItems f⟩

/-- The walk through the top level goes item by item. -/
private theorem doesTasks_expandStep (s : Schema) : DoesTasks (expandStep s) s.expand where
  nil _ := by rw [Schema.expand]
  cons unentered item items := by
    cases item with
    | field placed =>
      rw [Schema.expand]
      rfl
    | spread name =>
      rw [expandStep]
      cases hf : Named.find? unentered name with
      | none => rw [Schema.expand_spread_of_none hf, List.nil_append, List.nil_append]
      | some f => rw [Schema.expand_spread_of_some hf, List.nil_append]

/-- The number of items at the top level of some fragments. -/
def itemCount (fragments : List Fragment) : Nat := (fragments.map (·.selectionSet.opened.length)).sum

private theorem Schema.length_fragmentItems (s : Schema) (f : Fragment) :
    (s.fragmentItems f).length = f.selectionSet.opened.length := by
  rw [SelectionSet.opened, ← s.map_bare_topItems (s.conditionType? f.condition), List.length_map]
  rfl

private theorem length_next_expandStep (s : Schema) (unentered : List Fragment) (item : TopItem) :
    itemCount (expandStep s unentered item).state + (expandStep s unentered item).next.length ≤
      itemCount unentered := by
  cases item with
  | field placed => exact Nat.le_refl _
  | spread name =>
    rw [expandStep]
    cases hf : Named.find? unentered name with
    | none => exact Nat.le_refl _
    | some f =>
      have hsum := Named.sum_without_le (fun f : Fragment => f.selectionSet.opened.length) hf
      simp only [itemCount, s.length_fragmentItems]
      omega

/-- The walk ends after one task for each item written at the top level of the selection set or a fragment. -/
theorem walkWithin_expandStep (s : Schema) {d : Document} {set : SelectionSet} {n : Nat}
    (hn : set.opened.length + itemCount d.fragments ≤ n) (parent : Option TypeDefinition) :
    walkWithin (expandStep s) n d.fragments (s.topItems parent set.selections) = some (s.topFields d parent set) := by
  refine (doesTasks_expandStep s).walkWithin_eq (length_next_expandStep s) ?_
  rwa [← List.length_map TopItem.bare, Schema.map_bare_topItems]

def crowdedFinding (o : Operation) (spans : List Span) : Diagnostic :=
  Rule.singleFieldSubscriptions.finding (subscriptionSubject o ++ " must select only one top level field.") spans

def introspectionFinding (o : Operation) (f : Field) : Diagnostic :=
  Rule.singleFieldSubscriptions.finding
    (subscriptionSubject o ++ " must not select an introspection top level field.") [f.span]

private theorem isReserved_eq (name : String) : isReserved name = decide (['_', '_'] <+: name.toList) := by
  rw [isReserved, decide_eq_decide, List.prefix_iff_eq_take]
  exact eq_comm

/-- The response keys of the root fields, each one once. -/
def Document.rootKeys (s : Schema) (d : Document) (o : Operation) : List String :=
  ((d.rootFields s o).map (·.responseKey)).eraseDups

/-- What is reported of an operation: each key after the first, once, and each field of introspection. -/
private theorem subscriptionFindings_eq (s : Schema) (d : Document) (o : Operation) : ∃ spans,
    List.Forall₂ (IsFirstOf (d.rootFields s o)) (d.rootKeys s o).tail spans ∧
    subscriptionFindings s d o = (if 2 ≤ (d.rootKeys s o).length then [crowdedFinding o spans] else []) ++
      ((d.rootFields s o).filter fun f => ['_', '_'] <+: f.name.value.toList).map (introspectionFinding o) := by
  have hspans := furtherKeys_nil_forall₂ (d.rootFields s o)
  refine ⟨_, hspans, ?_⟩
  have hcount : (furtherKeys [] (d.rootFields s o)).isEmpty = true ↔ ¬2 ≤ (d.rootKeys s o).length := by
    rw [List.isEmpty_iff_length_eq_zero, ← hspans.length_eq, List.length_tail, Document.rootKeys]
    omega
  change (if (furtherKeys [] (d.rootFields s o)).isEmpty then []
      else [crowdedFinding o (furtherKeys [] (d.rootFields s o))]) ++
    ((d.rootFields s o).filter fun f => isReserved f.name.value).map (introspectionFinding o) = _
  simp only [hcount, isReserved_eq, ite_not]

/-- The fragments reported as unused are those whose names no operation reaches, in source order. A subscription is
reported for too many root fields exactly if two of them have different response keys, with the span of the first field
of each further key, and for each root field whose name begins with two underscores. The root fields are those selected
at the top level, where each of the fragments opened there counts once. Both walks over fragments come to their end
after one task for each spread and each item that is written. -/
theorem Document.fragments_followed (s : Schema) (d : Document) :
    unusedFragment d = (d.fragments.filter fun f => ¬∃ o ∈ d.operations, d.ReachesName o f.name.value).map
      unusedFragmentFinding ∧
    singleFieldSubscriptions s d =
      (d.operations.filter (·.kind = .subscription)).flatMap (subscriptionFindings s d) ∧
    (∀ o, ∃ spans, List.Forall₂ (IsFirstOf (d.rootFields s o)) (d.rootKeys s o).tail spans ∧
      subscriptionFindings s d o = (if 2 ≤ (d.rootKeys s o).length then [crowdedFinding o spans] else []) ++
        ((d.rootFields s o).filter fun f => ['_', '_'] <+: f.name.value.toList).map (introspectionFinding o)) ∧
    (∀ o, 2 ≤ (d.rootKeys s o).length ↔ ∃ f g, d.SelectsAtTop o.selectionSet f ∧ d.SelectsAtTop o.selectionSet g ∧
      f.responseKey ≠ g.responseKey) ∧
    (∀ o f, f ∈ d.rootFields s o ↔ d.SelectsAtTop o.selectionSet f) ∧
    (∀ o, ∃ gs, (Named.names gs).Nodup ∧ (∀ g, g ∈ gs ↔ d.Opens o.selectionSet g) ∧
      (d.rootFields s o).Perm (o.selectionSet.ownFields ++ gs.flatMap (·.selectionSet.ownFields))) ∧
    (∀ o n, o.selectionSet.spreads.length + spreadCount d.fragments ≤ n →
      walkWithin reachStep n d.fragments (o.selectionSet.spreads.map (·.name.value)) = some (d.reachedBy o)) ∧
    ∀ o n, o.selectionSet.opened.length + itemCount d.fragments ≤ n →
      (walkWithin (expandStep s) n d.fragments (s.topItems (s.root? o.kind) o.selectionSet.selections)).map
        (·.map (·.field)) = some (d.rootFields s o) := by
  refine ⟨unusedFragment_eq d, rfl, subscriptionFindings_eq s d, fun o => ?_, fun _ _ => mem_rootFields_iff,
    fun o => ?_, fun _ _ => walkWithin_reachStep, fun o n hn => ?_⟩
  · rw [rootKeys, two_le_length_eraseDups_iff]
    simp only [List.mem_map, mem_rootFields_iff]
    constructor
    · rintro ⟨_, ⟨f, hf, rfl⟩, _, ⟨g, hg, rfl⟩, hne⟩
      exact ⟨f, g, hf, hg, hne⟩
    · rintro ⟨f, g, hf, hg, hne⟩
      exact ⟨_, ⟨f, hf, rfl⟩, _, ⟨g, hg, rfl⟩, hne⟩
  · exact ⟨_, names_fragmentsFrom_nodup .., fun _ => mem_fragmentsFrom_iff, d.rootFields_perm s o⟩
  · rw [walkWithin_expandStep s hn, Option.map_some]
    rfl

/-- Whether the document has one operation, whose walks end within so many tasks: one comes to all names but those of
these fragments, and the other one to fields with these keys. -/
def Document.follows (s : Schema) (d : Document) (unused keys : List String) : Bool :=
  match d.operations with
  | [o] => o.selectionSet.spreads.length + spreadCount d.fragments ≤ 3 ∧
      o.selectionSet.opened.length + itemCount d.fragments ≤ 6 ∧
      (walkWithin reachStep 3 d.fragments (o.selectionSet.spreads.map (·.name.value))).any (fun reached =>
        (d.fragments.filter fun f => ¬∃ spread ∈ o.selectionSet.spreads ++ reached.flatMap (·.selectionSet.spreads),
          spread.name.value = f.name.value).map (·.name.value) = unused) ∧
      ((walkWithin (expandStep s) 6 d.fragments (s.topItems (s.root? o.kind) o.selectionSet.selections)).map
        (·.map (·.field))).any (·.map (·.responseKey) = keys)
  | _ => false

set_option maxRecDepth 20000 in
/-- A fragment that spreads itself, and another one inside a field. -/
theorem fragments_followed_of_cycle :
    let s : Schema := ⟨[], [], "Query", none, none⟩
    ∃ d o, Document.parse
        "subscription \x7b ...A \x7d fragment A on T \x7b f \x7b ...B \x7d g ...A \x7d fragment B on T \x7b h \x7d fragment C on T \x7b c \x7d" =
        .ok d ∧
      d.operations = [o] ∧
      (unusedFragment d).map (·.message) = ["Fragment \"C\" is never used."] ∧
      (d.rootFields s o).map (·.responseKey) = ["f", "g"] ∧
      ∃ spans, spans.length = 1 ∧ crowdedFinding o spans ∈ subscriptionFindings s d o := by
  intro s
  obtain ⟨d, hd, hcheck⟩ : ∃ d, Document.parse
        "subscription \x7b ...A \x7d fragment A on T \x7b f \x7b ...B \x7d g ...A \x7d fragment B on T \x7b h \x7d fragment C on T \x7b c \x7d" =
        .ok d ∧ d.follows s ["C"] ["f", "g"] :=
    Document.exists_of_run String.toList_ofList (by decide +kernel)
  rw [Document.follows] at hcheck
  split at hcheck
  case h_2 => cases hcheck
  case h_1 o ho =>
    simp only [decide_eq_true_eq] at hcheck
    obtain ⟨hspreads, hitems, hreached, hkeys⟩ := hcheck
    obtain ⟨hunused, -, hfindings, -, -, -, hreach, hexpand⟩ := Document.fragments_followed s d
    rw [hreach o 3 hspreads, Option.any_some, decide_eq_true_eq] at hreached
    rw [hexpand o 6 hitems, Option.any_some, decide_eq_true_eq] at hkeys
    refine ⟨d, o, hd, ho, ?_, hkeys, ?_⟩
    · have hmessage : (unusedFragment d).map (·.message) =
          ((d.fragments.filter fun f => ¬d.ReachesName o f.name.value).map (·.name.value)).map
            fun name => "Fragment " ++ quote name ++ " is never used." := by
        rw [hunused, ho, List.map_map, List.map_map]
        simp only [List.mem_singleton, exists_eq_left]
        rfl
      simp only [hmessage, Document.reachesName_iff, hreached]
      decide
    · obtain ⟨spans, hspans, heq⟩ := hfindings o
      have hrootKeys : d.rootKeys s o = ["f", "g"] := by
        rw [Document.rootKeys, hkeys]
        rfl
      rw [hrootKeys] at hspans heq
      exact ⟨spans, hspans.length_eq.symm, by rw [heq]; simp⟩

end GraphQL
