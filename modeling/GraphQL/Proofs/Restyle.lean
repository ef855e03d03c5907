import GraphQL.Syntax.TypeSystem

/-!
# Documents in another style

What a document says does not depend on where its parts stand, on the form of its strings and on whether a bare
query leaves its keyword out. `Document.restyle` changes just these three, and `Restyle.plain` forgets them, so
that two documents say the same when their plain forms are equal.
-/

namespace GraphQL

/-- How to change the spans of a syntax tree, the form of its strings and the form of its operations. -/
structure Restyle where
  span : Span → Span
  /-- The form of a string, by its value and its form so far. -/
  block : String → Bool → Bool
  shorthand : Operation → Bool

namespace Restyle

/-- Forgets all places. -/
def erase : Restyle := ⟨fun _ => .nowhere, fun _ block => block, (·.shorthand)⟩

@[simp] theorem erase_span (s : Span) : erase.span s = .nowhere := rfl

@[simp] theorem erase_block (value : String) (block : Bool) : erase.block value block = block := rfl

@[simp] theorem erase_shorthand (o : Operation) : erase.shorthand o = o.shorthand := rfl

/-- Forgets all places and forms. -/
def plain : Restyle := ⟨fun _ => .nowhere, fun _ _ => false, fun _ => false⟩

@[simp] theorem plain_span (s : Span) : plain.span s = .nowhere := rfl

@[simp] theorem plain_block (value : String) (block : Bool) : plain.block value block = false := rfl

@[simp] theorem plain_shorthand (o : Operation) : plain.shorthand o = false := rfl

end Restyle

/-- Lists of parts that say the same are empty together. -/
theorem isEmpty_of_map_eq {α γ : Type} {k : α → γ} {as bs : List α} (h : as.map k = bs.map k) :
    as.isEmpty = bs.isEmpty := by
  simpa using congrArg List.isEmpty h

variable (r : Restyle)

def Name.restyle (n : Name) : Name := ⟨n.value, r.span n.span⟩

def StringLiteral.restyle (l : StringLiteral) : StringLiteral := ⟨l.value, r.block l.value l.block, r.span l.span⟩

def VariableUse.restyle (use : VariableUse) : VariableUse := ⟨use.name.restyle r, r.span use.span⟩

mutual

def Value.restyle : Value → Value
  | .var use => .var (use.restyle r)
  | .int raw span => .int raw (r.span span)
  | .float raw span => .float raw (r.span span)
  | .string l => .string (l.restyle r)
  | .boolean b span => .boolean b (r.span span)
  | .null span => .null (r.span span)
  | .enum value span => .enum value (r.span span)
  | .list items span => .list (Value.restyleItems items) (r.span span)
  | .object fields span => .object (Value.restyleFields fields) (r.span span)

def Value.restyleItems : List Value → List Value
  | [] => []
  | v :: vs => v.restyle :: Value.restyleItems vs

def Value.restyleFields : List ObjectField → List ObjectField
  | [] => []
  | ⟨name, v, span⟩ :: fs => ⟨name.restyle r, v.restyle, r.span span⟩ :: Value.restyleFields fs

end

def ObjectField.restyle (f : ObjectField) : ObjectField := ⟨f.name.restyle r, f.value.restyle r, r.span f.span⟩

private theorem Value.restyleItems_eq (items : List Value) : restyleItems r items = items.map (·.restyle r) := by
  induction items with
  | nil => rfl
  | cons v vs ih => rw [restyleItems, List.map_cons, ih]

private theorem Value.restyleFields_eq (fields : List ObjectField) :
    restyleFields r fields = fields.map (·.restyle r) := by
  induction fields with
  | nil => rfl
  | cons f fs ih =>
    obtain ⟨name, v, span⟩ := f
    rw [restyleFields, List.map_cons, ih]
    rfl

/-- A list is restyled item by item. -/
theorem Value.restyle_list (items : List Value) (span : Span) :
    (list items span).restyle r = list (items.map (·.restyle r)) (r.span span) := by
  rw [restyle, restyleItems_eq]

/-- An object is restyled field by field. -/
theorem Value.restyle_object (fields : List ObjectField) (span : Span) :
    (object fields span).restyle r = object (fields.map (·.restyle r)) (r.span span) := by
  rw [restyle, restyleFields_eq]

def Argument.restyle (a : Argument) : Argument := ⟨a.name.restyle r, a.value.restyle r, r.span a.span⟩

def Directive.restyle (d : Directive) : Directive :=
  ⟨d.name.restyle r, d.arguments.map (·.restyle r), r.span d.span⟩

def TypeRef.restyle : TypeRef → TypeRef
  | named name nullable span => named (name.restyle r) nullable (r.span span)
  | list element nullable span => list element.restyle nullable (r.span span)

def TypeCondition.restyle (c : TypeCondition) : TypeCondition := ⟨c.typeName.restyle r, r.span c.span⟩

def FragmentSpread.restyle (s : FragmentSpread) : FragmentSpread :=
  ⟨s.name.restyle r, s.directives.map (·.restyle r), r.span s.span⟩

mutual

def SelectionSet.restyle : SelectionSet → SelectionSet
  | ⟨selections, span⟩ => ⟨restyleSelections selections, r.span span⟩

def restyleSelections : List Selection → List Selection
  | [] => []
  | s :: rest => s.restyle :: restyleSelections rest

def Selection.restyle : Selection → Selection
  | .field ⟨aliasName, name, arguments, directives, none, span⟩ =>
    .field ⟨aliasName.map (·.restyle r), name.restyle r, arguments.map (·.restyle r), directives.map (·.restyle r),
      none, r.span span⟩
  | .field ⟨aliasName, name, arguments, directives, some set, span⟩ =>
    .field ⟨aliasName.map (·.restyle r), name.restyle r, arguments.map (·.restyle r), directives.map (·.restyle r),
      some set.restyle, r.span span⟩
  | .spread s => .spread (s.restyle r)
  | .inline ⟨condition, directives, set, span⟩ =>
    .inline ⟨condition.map (·.restyle r), directives.map (·.restyle r), set.restyle, r.span span⟩

end

def Field.restyle (f : Field) : Field :=
  ⟨f.aliasName.map (·.restyle r), f.name.restyle r, f.arguments.map (·.restyle r), f.directives.map (·.restyle r),
    f.selectionSet.map (·.restyle r), r.span f.span⟩

def InlineFragment.restyle (i : InlineFragment) : InlineFragment :=
  ⟨i.condition.map (·.restyle r), i.directives.map (·.restyle r), i.selectionSet.restyle r, r.span i.span⟩

/-- A field is restyled with its selection set. -/
theorem Selection.restyle_field (f : Field) : (field f).restyle r = field (f.restyle r) := by
  obtain ⟨_, _, _, _, set, _⟩ := f
  cases set <;> rfl

theorem Selection.restyle_spread (s : FragmentSpread) : (spread s).restyle r = spread (s.restyle r) := rfl

theorem Selection.restyle_inline (i : InlineFragment) : (inline i).restyle r = inline (i.restyle r) := by
  obtain ⟨_, _, _, _⟩ := i
  rfl

/-- Selections are restyled one by one. -/
theorem restyleSelections_eq (selections : List Selection) :
    restyleSelections r selections = selections.map (·.restyle r) := by
  induction selections with
  | nil => rfl
  | cons s rest ih => rw [restyleSelections, List.map_cons, ih]

/-- A selection set is restyled selection by selection. -/
theorem SelectionSet.restyle_eq (set : SelectionSet) :
    set.restyle r = ⟨set.selections.map (·.restyle r), r.span set.span⟩ := by
  obtain ⟨selections, span⟩ := set
  rw [restyle, restyleSelections_eq]

def VariableDefinition.restyle (v : VariableDefinition) : VariableDefinition where
  name := v.name.restyle r
  variableSpan := r.span v.variableSpan
  type := v.type.restyle r
  defaultValue := v.defaultValue.map (·.restyle r)
  directives := v.directives.map (·.restyle r)
  span := r.span v.span

def Operation.restyle (o : Operation) : Operation where
  kind := o.kind
  name := o.name.map (·.restyle r)
  variableDefinitions := o.variableDefinitions.map (·.restyle r)
  directives := o.directives.map (·.restyle r)
  selectionSet := o.selectionSet.restyle r
  shorthand := r.shorthand o
  span := r.span o.span

def Fragment.restyle (f : Fragment) : Fragment where
  name := f.name.restyle r
  condition := f.condition.restyle r
  directives := f.directives.map (·.restyle r)
  selectionSet := f.selectionSet.restyle r
  span := r.span f.span

def Definition.restyle : Definition → Definition
  | operation o => operation (o.restyle r)
  | fragment f => fragment (f.restyle r)

def Document.restyle (d : Document) : Document := ⟨d.definitions.map (·.restyle r), r.span d.span⟩

def InputValueDefinition.restyle (v : InputValueDefinition) : InputValueDefinition where
  description := v.description.map (·.restyle r)
  name := v.name.restyle r
  type := v.type.restyle r
  defaultValue := v.defaultValue.map (·.restyle r)
  directives := v.directives.map (·.restyle r)
  span := r.span v.span

def FieldDefinition.restyle (f : FieldDefinition) : FieldDefinition where
  description := f.description.map (·.restyle r)
  name := f.name.restyle r
  arguments := f.arguments.map (·.restyle r)
  type := f.type.restyle r
  directives := f.directives.map (·.restyle r)
  span := r.span f.span

def EnumValueDefinition.restyle (v : EnumValueDefinition) : EnumValueDefinition where
  description := v.description.map (·.restyle r)
  name := v.name.restyle r
  directives := v.directives.map (·.restyle r)
  span := r.span v.span

def TypeBody.restyle : TypeBody → TypeBody
  | scalar => scalar
  | object interfaces fields => object (interfaces.map (·.restyle r)) (fields.map (·.restyle r))
  | interface interfaces fields => interface (interfaces.map (·.restyle r)) (fields.map (·.restyle r))
  | union members => union (members.map (·.restyle r))
  | enum values => enum (values.map (·.restyle r))
  | inputObject fields => inputObject (fields.map (·.restyle r))

def TypeDefinition.restyle (t : TypeDefinition) : TypeDefinition where
  description := t.description.map (·.restyle r)
  name := t.name.restyle r
  directives := t.directives.map (·.restyle r)
  body := t.body.restyle r
  span := r.span t.span

def RootOperation.restyle (o : RootOperation) : RootOperation := ⟨o.kind, o.typeName.restyle r, r.span o.span⟩

def SchemaDefinition.restyle (s : SchemaDefinition) : SchemaDefinition where
  description := s.description.map (·.restyle r)
  directives := s.directives.map (·.restyle r)
  rootOperations := s.rootOperations.map (·.restyle r)
  span := r.span s.span

def LocatedPlace.restyle (p : LocatedPlace) : LocatedPlace := ⟨p.place, r.span p.span⟩

def DirectiveDefinition.restyle (d : DirectiveDefinition) : DirectiveDefinition where
  description := d.description.map (·.restyle r)
  name := d.name.restyle r
  arguments := d.arguments.map (·.restyle r)
  repeatable := d.repeatable
  locations := d.locations.map (·.restyle r)
  span := r.span d.span

def TypeSystemDefinition.restyle : TypeSystemDefinition → TypeSystemDefinition
  | schema s => schema (s.restyle r)
  | schemaExtension s => schemaExtension (s.restyle r)
  | type t => type (t.restyle r)
  | typeExtension t => typeExtension (t.restyle r)
  | directive d => directive (d.restyle r)

def SchemaDocument.restyle (d : SchemaDocument) : SchemaDocument :=
  ⟨d.definitions.map (·.restyle r), r.span d.span⟩

/-! ### One change after another -/

/-- The change that two changes make one after the other. -/
def Restyle.andThen (r' : Restyle) : Restyle where
  span s := r'.span (r.span s)
  block value block := r'.block value (r.block value block)
  shorthand o := r'.shorthand (o.restyle r)

/-- Nothing is left of an earlier change when all places and forms are forgotten. -/
@[simp] theorem Restyle.andThen_plain : r.andThen plain = plain := rfl

variable (r' : Restyle)

@[simp] theorem Restyle.span_andThen (s : Span) : (r.andThen r').span s = r'.span (r.span s) := rfl

@[simp] theorem Name.restyle_restyle (n : Name) : (n.restyle r).restyle r' = n.restyle (r.andThen r') := rfl

@[simp] theorem StringLiteral.restyle_restyle (l : StringLiteral) :
    (l.restyle r).restyle r' = l.restyle (r.andThen r') := rfl

mutual

/-- Two changes of a value, one after the other, are one change. -/
private theorem Value.restyle_restyle : (v : Value) → (v.restyle r).restyle r' = v.restyle (r.andThen r')
  | .list items span => by simp only [restyle, Value.restyleItems_restyle items]; rfl
  | .object fields span => by simp only [restyle, Value.restyleFields_restyle fields]; rfl
  | .var _ | .int .. | .float .. | .string _ | .boolean .. | .null _ | .enum .. => rfl

private theorem Value.restyleItems_restyle : (vs : List Value) →
    restyleItems r' (restyleItems r vs) = restyleItems (r.andThen r') vs
  | [] => rfl
  | v :: vs => by simp only [restyleItems, v.restyle_restyle, Value.restyleItems_restyle vs]

private theorem Value.restyleFields_restyle : (fs : List ObjectField) →
    restyleFields r' (restyleFields r fs) = restyleFields (r.andThen r') fs
  | [] => rfl
  | ⟨name, v, span⟩ :: fs => by
    simp only [restyleFields, v.restyle_restyle, Value.restyleFields_restyle fs, name.restyle_restyle]
    rfl

end

@[simp] theorem Argument.restyle_restyle (a : Argument) : (a.restyle r).restyle r' = a.restyle (r.andThen r') := by
  simp only [restyle, a.value.restyle_restyle, a.name.restyle_restyle]
  rfl

@[simp] theorem Directive.restyle_restyle (d : Directive) :
    (d.restyle r).restyle r' = d.restyle (r.andThen r') := by
  simp [restyle]

@[simp] theorem TypeRef.restyle_restyle (t : TypeRef) : (t.restyle r).restyle r' = t.restyle (r.andThen r') := by
  induction t with
  | named => rfl
  | list element nullable span ih => simp [restyle, ih]

@[simp] theorem TypeCondition.restyle_restyle (c : TypeCondition) :
    (c.restyle r).restyle r' = c.restyle (r.andThen r') := rfl

mutual

private theorem SelectionSet.restyle_restyle : (set : SelectionSet) →
    (set.restyle r).restyle r' = set.restyle (r.andThen r')
  | ⟨selections, span⟩ => by simp only [SelectionSet.restyle, restyleSelections_restyle selections]; rfl

private theorem restyleSelections_restyle : (selections : List Selection) →
    restyleSelections r' (restyleSelections r selections) = restyleSelections (r.andThen r') selections
  | [] => rfl
  | s :: rest => by simp only [restyleSelections, s.restyle_restyle, restyleSelections_restyle rest]

/-- Two changes of a selection are one change. -/
private theorem Selection.restyle_restyle : (s : Selection) → (s.restyle r).restyle r' = s.restyle (r.andThen r')
  | .field ⟨aliasName, name, arguments, directives, none, span⟩ => by simp [Selection.restyle, Function.comp_def]
  | .field ⟨aliasName, name, arguments, directives, some set, span⟩ => by
    simp [Selection.restyle, set.restyle_restyle, Function.comp_def]
  | .spread s => by simp [Selection.restyle, FragmentSpread.restyle]
  | .inline ⟨condition, directives, set, span⟩ => by
    simp [Selection.restyle, set.restyle_restyle, Function.comp_def]

end

attribute [simp] SelectionSet.restyle_restyle

@[simp] theorem VariableDefinition.restyle_restyle (v : VariableDefinition) :
    (v.restyle r).restyle r' = v.restyle (r.andThen r') := by
  simp [restyle, Value.restyle_restyle, Function.comp_def]

@[simp] theorem Operation.restyle_restyle (o : Operation) :
    (o.restyle r).restyle r' = o.restyle (r.andThen r') := by
  simp only [restyle, List.map_map, Option.map_map, Function.comp_def, Name.restyle_restyle,
    VariableDefinition.restyle_restyle, Directive.restyle_restyle, SelectionSet.restyle_restyle]
  rfl

@[simp] theorem Fragment.restyle_restyle (f : Fragment) :
    (f.restyle r).restyle r' = f.restyle (r.andThen r') := by
  simp [restyle]

@[simp] theorem Definition.restyle_restyle (definition : Definition) :
    (definition.restyle r).restyle r' = definition.restyle (r.andThen r') := by
  cases definition <;> simp [restyle]

/-- Two changes of a document are one change. -/
theorem Document.restyle_restyle (d : Document) : (d.restyle r).restyle r' = d.restyle (r.andThen r') := by
  simp [restyle]

@[simp] theorem InputValueDefinition.restyle_restyle (v : InputValueDefinition) :
    (v.restyle r).restyle r' = v.restyle (r.andThen r') := by
  simp [restyle, Value.restyle_restyle, Function.comp_def]

@[simp] theorem FieldDefinition.restyle_restyle (f : FieldDefinition) :
    (f.restyle r).restyle r' = f.restyle (r.andThen r') := by
  simp [restyle, Function.comp_def]

@[simp] theorem EnumValueDefinition.restyle_restyle (v : EnumValueDefinition) :
    (v.restyle r).restyle r' = v.restyle (r.andThen r') := by
  simp [restyle, Function.comp_def]

@[simp] theorem TypeBody.restyle_restyle (body : TypeBody) :
    (body.restyle r).restyle r' = body.restyle (r.andThen r') := by
  cases body <;> simp [restyle, Function.comp_def]

@[simp] theorem TypeDefinition.restyle_restyle (t : TypeDefinition) :
    (t.restyle r).restyle r' = t.restyle (r.andThen r') := by
  simp [restyle, Function.comp_def]

@[simp] theorem RootOperation.restyle_restyle (o : RootOperation) :
    (o.restyle r).restyle r' = o.restyle (r.andThen r') := rfl

@[simp] theorem SchemaDefinition.restyle_restyle (s : SchemaDefinition) :
    (s.restyle r).restyle r' = s.restyle (r.andThen r') := by
  simp [restyle, Function.comp_def]

@[simp] theorem LocatedPlace.restyle_restyle (p : LocatedPlace) :
    (p.restyle r).restyle r' = p.restyle (r.andThen r') := rfl

@[simp] theorem DirectiveDefinition.restyle_restyle (d : DirectiveDefinition) :
    (d.restyle r).restyle r' = d.restyle (r.andThen r') := by
  simp [restyle, Function.comp_def]

@[simp] theorem TypeSystemDefinition.restyle_restyle (definition : TypeSystemDefinition) :
    (definition.restyle r).restyle r' = definition.restyle (r.andThen r') := by
  cases definition <;> simp [restyle]

/-- Two changes of a schema document are one change. -/
theorem SchemaDocument.restyle_restyle (d : SchemaDocument) :
    (d.restyle r).restyle r' = d.restyle (r.andThen r') := by
  simp [restyle]

end GraphQL
