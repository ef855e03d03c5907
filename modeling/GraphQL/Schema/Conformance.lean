import GraphQL.Schema.Fault
import GraphQL.Schema.Subtype

/-!
# Conformance to interfaces

A type that implements an interface must also name the interfaces which that one implements, and have its fields:
each with a subtype of the field's type, with the same parameters, and with no further parameter that is required.
The interfaces of a type are walked depth first in the order of their names, each one once.
-/

namespace GraphQL

/-- The faults of a field against the field of the same name in an interface. -/
def fieldConformanceFaults (types : List TypeDefinition) (t : TypeDefinition) (interface : String)
    (required f : FieldDefinition) : List SchemaFault :=
  let type := t.name.value
  let field := required.name.value
  (required.arguments.flatMap fun p =>
    match Named.find? f.arguments p.name.value with
    | none => [⟨.missingParameter type interface field p.name.value, [f.span]⟩]
    | some q =>
      if q.type.equivalent p.type then []
      else [⟨.parameterType type interface field p.name.value p.type.print q.type.print, [q.type.span]⟩]) ++
  ((f.arguments.filter fun q => !Named.contains required.arguments q.name.value && q.isRequired).map fun q =>
    ⟨.requiredParameter type interface field q.name.value, [q.span]⟩) ++
  if isSubtype types f.type required.type then []
  else [⟨.fieldNotSubtype type interface field required.type.print f.type.print, [f.type.span]⟩]

/-- The faults of a type against the fields of an interface. -/
def interfaceFieldFaults (types : List TypeDefinition) (t interface : TypeDefinition) : List SchemaFault :=
  interface.fields.flatMap fun required =>
    match Named.find? t.fields required.name.value with
    | none => [⟨.missingField t.name.value interface.name.value required.name.value, [t.span]⟩]
    | some f => fieldConformanceFaults types t interface.name.value required f

/-- The names of interfaces in the order of their walk. -/
def interfaceOrder (interfaces : List Name) : List String := (Named.names interfaces).mergeSort (· ≤ ·)

/-- The interface that a type means by a name, or what is wrong with the name. -/
def implementedInterface (types : List TypeDefinition) (t : TypeDefinition) (name : String) :
    Except SchemaFault.Cause TypeDefinition :=
  if name = t.name.value then .error (.implementsSelf t.name.value)
  else match Named.find? types name with
    | none => .error (.undefinedInterface t.name.value name)
    | some i => if i.kind = .interface then .ok i else .error (.notInterface t.name.value name)

/-- Where a type names an interface, or the type itself where it does not. -/
def implementsSpan (t : TypeDefinition) (name : String) : Span :=
  ((Named.find? t.interfaces name).map (·.span)).getD t.span

/-- The interfaces of `interface` that `t` ought to name as well; `path` leads to `interface`. -/
def missingInterfaceFaults (t interface : TypeDefinition) (path : List String) : List SchemaFault :=
  ((interfaceOrder interface.interfaces).filter fun name => !t.implements name && name ≠ t.name.value).map fun name =>
    ⟨.missingInterface t.name.value path name, [implementsSpan t interface.name.value]⟩

/-- What is left to do on a walk over interfaces. -/
inductive InterfaceTask where
  /-- Look at an interface that the ones along `path` lead to. -/
  | enter (path : List String) (name : String)
  /-- Compare with the fields of an interface, once its own interfaces are done. -/
  | compare (interface : TypeDefinition)

/-- The faults found on a walk; `unseen` holds the names not looked at yet. -/
def walkInterfaces (types : List TypeDefinition) (t : TypeDefinition) (unseen : List String) :
    List InterfaceTask → List SchemaFault
  | [] => []
  | .compare interface :: tasks => interfaceFieldFaults types t interface ++ walkInterfaces types t unseen tasks
  | .enter path name :: tasks =>
    if _h : name ∈ unseen then
      let unseen := unseen.erase name
      match implementedInterface types t name with
      | .error cause => ⟨cause, [implementsSpan t name]⟩ :: walkInterfaces types t unseen tasks
      | .ok interface =>
        let path := path ++ [name]
        missingInterfaceFaults t interface path ++
        walkInterfaces types t unseen
          ((interfaceOrder interface.interfaces).map (.enter path) ++ .compare interface :: tasks)
    else walkInterfaces types t unseen tasks
termination_by tasks => (unseen.length, tasks.length)
decreasing_by
  · exact Prod.Lex.right _ (by simp)
  · refine Prod.Lex.left _ _ ?_
    have := List.length_erase_of_mem _h
    have := List.length_pos_of_mem _h
    omega
  · refine Prod.Lex.left _ _ ?_
    have := List.length_erase_of_mem _h
    have := List.length_pos_of_mem _h
    omega
  · exact Prod.Lex.right _ (by simp)

/-- Every name that some type gives as an interface, once. -/
def interfaceNames (types : List TypeDefinition) : List String :=
  (types.flatMap fun t => Named.names t.interfaces).eraseDups

/-- The faults of a type against all interfaces it implements, directly or through others. -/
def conformanceFaults (types : List TypeDefinition) (t : TypeDefinition) : List SchemaFault :=
  walkInterfaces types t (interfaceNames (t :: types)) ((interfaceOrder t.interfaces).map (.enter []))

end GraphQL
