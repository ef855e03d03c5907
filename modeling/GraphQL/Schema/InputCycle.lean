import GraphQL.Schema.Fault
import GraphQL.Schema.Types

/-!
# Cycles of input objects

A field whose type is a non-null input object needs a value of that type in turn, so a chain of such fields that
comes back to where it began cannot be satisfied. Nullable fields and lists end a chain.
-/

namespace GraphQL

/-- The type whose values a value of `type` must contain. -/
def TypeRef.requiredName? : TypeRef → Option String
  | .named name false _ => some name.value
  | _ => none

/-- The first chain of required fields from `t` to the type called `goal`, as the paths of its fields and the goal;
`unvisited` holds the types that the chain may still pass. -/
def requiredChain? (goal : String) (unvisited : List TypeDefinition) (t : TypeDefinition) : Option (List String) :=
  t.body.inputFields.findSome? fun f =>
    match f.type.requiredName? with
    | none => none
    | some target =>
      let step := t.name.value ++ "." ++ f.name.value
      if target = goal then some [step, goal]
      else match _h : Named.find? unvisited target with
        | none => none
        | some next => (requiredChain? goal (Named.without unvisited target) next).map (step :: ·)
termination_by unvisited.length
decreasing_by exact Named.length_without_lt _h

/-- The fault of an input object that needs a value of itself. -/
def inputCycleFaults (types : List TypeDefinition) (t : TypeDefinition) : List SchemaFault :=
  match requiredChain? t.name.value types t with
  | some path => [⟨.inputCycle path, [t.span]⟩]
  | none => []

end GraphQL
