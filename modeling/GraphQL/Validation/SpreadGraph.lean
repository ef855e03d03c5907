import GraphQL.Diagnostic
import GraphQL.Syntax.Named
import GraphQL.Syntax.Walk

/-!
# The graph of fragment spreads

Fragments spread one another by name, where the first fragment of a name counts. Here are the fragments that can be
reached from some spreads, and the cycles among fragments.
-/

namespace GraphQL

/-- The spreads written anywhere in a selection set. -/
def SelectionSet.spreads (set : SelectionSet) : List FragmentSpread :=
  set.allSelections.filterMap fun | .spread s => some s | _ => none

/-- The fragments reached from names, each one once; `unreached` holds those not reached yet. -/
def reachedFrom (unreached : List Fragment) : List String → List Fragment
  | [] => []
  | name :: names =>
    match _h : Named.find? unreached name with
    | none => reachedFrom unreached names
    | some f =>
      f :: reachedFrom (Named.without unreached name)
        (f.selectionSet.spreads.map (·.name.value) ++ names)
termination_by names => (unreached.length, names.length)
decreasing_by
  · exact Prod.Lex.right _ (by simp)
  · exact Prod.Lex.left _ _ (Named.length_without_lt _h)

namespace Document

/-- The fragments that an operation reaches through spreads. -/
def reachedBy (d : Document) (o : Operation) : List Fragment :=
  reachedFrom d.fragments (o.selectionSet.spreads.map (·.name.value))

/-- Fragments whose name no operation reaches. -/
def unusedFragments (d : Document) : List Fragment :=
  let reached := d.operations.flatMap d.reachedBy
  d.fragments.filter fun f => !Named.contains reached f.name.value

end Document

def unusedFragment (d : Document) : List Diagnostic :=
  d.unusedFragments.map fun f =>
    Rule.unusedFragment.finding ("Fragment " ++ quote f.name.value ++ " is never used.") [f.span]

/-- A spread, with the name of the fragment that it is written in. -/
structure SpreadStep where
  source : String
  spread : FragmentSpread

/-- The part of a path of spreads that begins in the fragment `name`. -/
def cycleTo (name : String) (path : List SpreadStep) : List SpreadStep := path.dropWhile (·.source ≠ name)

/-- The cycles met on a depth-first walk over spreads. An entry of the list is a path of spreads and the name that
it leads to; `unvisited` holds the fragments not entered yet. -/
def cyclesFrom (unvisited : List Fragment) : List (List SpreadStep × String) → List (List SpreadStep)
  | [] => []
  | (path, name) :: entries =>
    match cycleTo name path with
    | step :: steps => (step :: steps) :: cyclesFrom unvisited entries
    | [] =>
      match _h : Named.find? unvisited name with
      | none => cyclesFrom unvisited entries
      | some f =>
        cyclesFrom (Named.without unvisited name)
          ((f.selectionSet.spreads.map fun s => (path ++ [⟨name, s⟩], s.name.value)) ++ entries)
termination_by entries => (unvisited.length, entries.length)
decreasing_by
  · exact Prod.Lex.right _ (by simp)
  · exact Prod.Lex.right _ (by simp)
  · exact Prod.Lex.left _ _ (Named.length_without_lt _h)

/-- The cycles among the fragments of a document, each as the spreads that form it. -/
def Document.fragmentCycles (d : Document) : List (List SpreadStep) :=
  cyclesFrom d.fragments (d.fragments.map fun f => ([], f.name.value))

def fragmentCycle (d : Document) : List Diagnostic :=
  d.fragmentCycles.map fun cycle =>
    let via := cycle.dropLast.map fun step => quote step.spread.name.value
    Rule.fragmentCycle.finding
      ("Cannot spread fragment " ++ quote ((cycle.getLast?.map (·.spread.name.value)).getD "") ++ " within itself" ++
        (if via.isEmpty then "" else " via " ++ ", ".intercalate via) ++ ".")
      (cycle.map (·.spread.span))

end GraphQL
