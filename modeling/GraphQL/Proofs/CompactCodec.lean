import GraphQL.Compact.Codec
import GraphQL.Proofs.Codec

/-!
# Compact documents and their binary form

A compact document whose numbers fit their machine types (`Document.Storable`) and whose references all point inside
is read back from its binary form. Bytes behind the binary form are counted and refused, and no part of it that
leaves bytes out is a document (`Document.encode_selfDelimiting`).

A value is read by fuel, one unit for each level of nesting. More fuel reads the same values (`extends_readValue`),
and the bytes a value is written in are fuel enough to read it (`reads_readValue`).
-/

namespace GraphQL

/-- All four counts fit into 32 bits. -/
def Position.Storable (p : Position) : Prop :=
  p.line < UInt32.size ∧ p.column < UInt32.size ∧ p.column16 < UInt32.size ∧ p.offset < UInt32.size

def Span.Storable (s : Span) : Prop := s.first.Storable ∧ s.stop.Storable

namespace Compact

open Codec

/-- The length of the list fits into 64 bits, and the condition holds of its entries. -/
def StorableList {α : Type} (P : α → Prop) (as : List α) : Prop := as.length < UInt64.size ∧ ∀ a ∈ as, P a

def Ident.Storable (i : Ident) : Prop := i.word < UInt32.size ∧ i.span.Storable

def Range.Storable (r : Range) : Prop := r.start < UInt32.size ∧ r.size < UInt32.size

mutual

def Value.Storable : Value → Prop
  | .var name s => name.Storable ∧ s.Storable
  | .int w s | .float w s | .string w s | .enum w s => w < UInt32.size ∧ s.Storable
  | .boolean _ s | .null s => s.Storable
  | .list items s => items.length < UInt64.size ∧ Value.StorableItems items ∧ s.Storable
  | .object fields s => fields.length < UInt64.size ∧ Value.StorableFields fields ∧ s.Storable

def Value.StorableItems : List Value → Prop
  | [] => True
  | v :: vs => v.Storable ∧ Value.StorableItems vs

def Value.StorableFields : List ObjectField → Prop
  | [] => True
  | ⟨name, v, s⟩ :: fs => (name.Storable ∧ v.Storable ∧ s.Storable) ∧ Value.StorableFields fs

end

def Argument.Storable (a : Argument) : Prop := a.name.Storable ∧ a.value.Storable ∧ a.span.Storable

def Directive.Storable (d : Directive) : Prop :=
  d.name.Storable ∧ StorableList Argument.Storable d.arguments ∧ d.span.Storable

def TypeRef.Storable : TypeRef → Prop
  | .named name _ s => name.Storable ∧ s.Storable
  | .list element _ s => element.Storable ∧ s.Storable

def VariableDefinition.Storable (v : VariableDefinition) : Prop :=
  v.name.Storable ∧ v.type.Storable ∧ (∀ d ∈ v.defaultValue, d.Storable) ∧
    StorableList Directive.Storable v.directives ∧ v.span.Storable

def Field.Storable (f : Field) : Prop :=
  (∀ a ∈ f.aliasName, a.Storable) ∧ f.name.Storable ∧ StorableList Argument.Storable f.arguments ∧
    StorableList Directive.Storable f.directives ∧ (∀ r ∈ f.selections, r.Storable) ∧ f.span.Storable

def Selection.Storable : Selection → Prop
  | .field f => f.Storable
  | .spread name directives s => name.Storable ∧ StorableList Directive.Storable directives ∧ s.Storable
  | .inline condition directives range s =>
    (∀ c ∈ condition, c.Storable) ∧ StorableList Directive.Storable directives ∧ range.Storable ∧ s.Storable

def Operation.Storable (o : Operation) : Prop :=
  (∀ n ∈ o.name, n.Storable) ∧ StorableList VariableDefinition.Storable o.variableDefinitions ∧
    StorableList Directive.Storable o.directives ∧ o.selections.Storable ∧ o.span.Storable

def Fragment.Storable (f : Fragment) : Prop :=
  f.name.Storable ∧ f.condition.Storable ∧ StorableList Directive.Storable f.directives ∧ f.selections.Storable ∧
    f.span.Storable

def Definition.Storable : Definition → Prop
  | .operation index | .fragment index => index < UInt32.size

/-- The document's numbers fit into 32 bits, the lengths of its lists and strings into 64. -/
def Document.Storable (d : Document) : Prop :=
  StorableList (·.utf8ByteSize < UInt64.size) d.strings ∧ StorableList Definition.Storable d.definitions ∧
    StorableList Operation.Storable d.operations ∧ StorableList Fragment.Storable d.fragments ∧
    StorableList Selection.Storable d.selections ∧ d.span.Storable

/-- Positions whose counts fit into 32 bits are read back. -/
private theorem positionCodec_faithful : positionCodec.Faithful Position.Storable :=
  (Faithful.word.pair (Faithful.word.pair (Faithful.word.pair .word))).via fun _ => rfl

private theorem spanCodec_faithful : spanCodec.Faithful Span.Storable :=
  (positionCodec_faithful.pair positionCodec_faithful).via fun _ => rfl

private theorem identCodec_faithful : identCodec.Faithful Ident.Storable :=
  (Faithful.word.pair spanCodec_faithful).via fun _ => rfl

private theorem rangeCodec_faithful : rangeCodec.Faithful Range.Storable :=
  (Faithful.word.pair .word).via fun _ => rfl

private theorem extends_readField {r s : Reader Value} (h : Extends r s) : Extends (readField r) (readField s) :=
  identCodec_faithful.steady.bind fun _ => h.bind fun _ => spanCodec_faithful.steady.bind fun _ => .pure _

/-- A value that is read within some depth is read the same within a greater one. -/
theorem extends_readValue {n m : Nat} (h : n ≤ m) : Extends (readValue n) (readValue m) := by
  induction n generalizing m with
  | zero => exact .failure _
  | succ n ih =>
    obtain ⟨m, rfl⟩ : ∃ k, m = k + 1 := ⟨m - 1, by omega⟩
    have hspan {f : Span → Value} : Extends (do return f (← spanCodec.read)) (do return f (← spanCodec.read)) :=
      spanCodec_faithful.steady.bind fun _ => .pure _
    have hdeep := ih (Nat.le_of_succ_le_succ h)
    refine Faithful.word.steady.bind fun tag => ?_
    match tag with
    | 0 => exact identCodec_faithful.steady.bind fun _ => hspan
    | 1 | 2 | 3 | 6 => exact Faithful.word.steady.bind fun _ => hspan
    | 4 => exact Faithful.bool.steady.bind fun _ => hspan
    | 5 => exact hspan
    | 7 => exact Faithful.length.steady.bind fun n => (hdeep.readTimes n).bind fun _ => hspan
    | 8 =>
      exact Faithful.length.steady.bind fun n => ((extends_readField hdeep).readTimes n).bind fun _ => hspan
    | _ + 9 => exact .failure _

private theorem length_tag (tag : Nat) (h : tag ≤ 250) : (word.write tag).length = 1 := by
  simp [word, writeVarint, h]

/-- A tag and what the variant with the tag is read from. -/
theorem reads_tagged {α : Type} {variant : Nat → Reader α} {tag : Nat} {bytes : List UInt8} {a : α}
    (htag : tag ≤ 250) (h : Reads (variant tag) bytes a) :
    Reads (word.read >>= variant) (word.write tag ++ bytes) a := by
  have hfits : tag < UInt32.size := Nat.lt_of_le_of_lt htag (by decide)
  exact (Faithful.word.reads tag hfits).bind h

/-- Each value takes a byte at least, so that the number of bytes bounds the depth. -/
private theorem Value.write_ne_nil (v : Value) : v.write ≠ [] := by
  cases v <;> simp [Value.write, word, writeVarint]

mutual

/-- Values are read back, within a depth of as many levels as they have bytes. -/
theorem reads_readValue {v : Value} (hv : v.Storable) {depth : Nat} (hdepth : v.write.length ≤ depth) :
    Reads (readValue depth) v.write v := by
  have hspan {s : Span} (hs : s.Storable) (f : Span → Value) :
      Reads (do return f (← spanCodec.read)) (spanCodec.write s) (f s) := (spanCodec_faithful.reads s hs).last
  have hword {w : Nat} {s : Span} (h : w < UInt32.size ∧ s.Storable) (f : Nat → Span → Value) :
      Reads (do return f (← word.read) (← spanCodec.read)) (word.write w ++ spanCodec.write s) (f w s) :=
    (Faithful.word.reads w h.1).bind (hspan h.2 (f w))
  have hpositive := List.length_pos_iff.2 v.write_ne_nil
  obtain ⟨depth, rfl⟩ : ∃ d, depth = d + 1 := ⟨depth - 1, by omega⟩
  match v with
  | .var name s =>
    simp only [Value.write, List.append_assoc]
    exact reads_tagged (by decide) ((identCodec_faithful.reads name hv.1).bind (hspan hv.2 (.var name)))
  | .int w s | .float w s | .string w s | .enum w s =>
    simp only [Value.write, List.append_assoc]
    exact reads_tagged (by decide) (hword hv _)
  | .boolean b s =>
    simp only [Value.write, List.append_assoc]
    exact reads_tagged (by decide) ((Faithful.bool.reads b trivial).bind (hspan hv (.boolean b)))
  | .null s => exact reads_tagged (by decide) (hspan hv .null)
  | .list items s =>
    obtain ⟨hlength, hitems, hs⟩ := hv
    simp only [Value.write, List.length_append, length_tag 7 (by decide)] at hdepth
    simp only [Value.write, List.append_assoc]
    exact reads_tagged (by decide) ((Faithful.length.reads items.length hlength).bind
      ((reads_items hitems (by omega)).bind (hspan hs (.list items))))
  | .object fields s =>
    obtain ⟨hlength, hfields, hs⟩ := hv
    simp only [Value.write, List.length_append, length_tag 8 (by decide)] at hdepth
    simp only [Value.write, List.append_assoc]
    exact reads_tagged (by decide) ((Faithful.length.reads fields.length hlength).bind
      ((reads_fields hfields (by omega)).bind (hspan hs (.object fields))))

/-- The items of a list are read back, within the depth that the list leaves them. -/
private theorem reads_items {vs : List Value} (hvs : Value.StorableItems vs) {depth : Nat}
    (hdepth : (Value.writeItems vs).length ≤ depth) :
    Reads (readTimes (readValue depth) vs.length) (Value.writeItems vs) vs := by
  match vs with
  | [] => exact .pure []
  | v :: vs =>
    rw [Value.writeItems, List.length_append] at hdepth
    rw [Value.writeItems]
    exact (reads_readValue hvs.1 (by omega)).bind (reads_items hvs.2 (by omega)).last

private theorem reads_fields {fs : List ObjectField} (hfs : Value.StorableFields fs) {depth : Nat}
    (hdepth : (Value.writeFields fs).length ≤ depth) :
    Reads (readTimes (readField (readValue depth)) fs.length) (Value.writeFields fs) fs := by
  match fs with
  | [] => exact .pure []
  | ⟨name, v, s⟩ :: fs =>
    obtain ⟨⟨hname, hv, hs⟩, hfs⟩ := hfs
    simp only [Value.writeFields, List.length_append] at hdepth
    have hfield : Reads (readField (readValue depth)) (identCodec.write name ++ (v.write ++ spanCodec.write s))
        ⟨name, v, s⟩ :=
      (identCodec_faithful.reads name hname).bind
        ((reads_readValue hv (by omega)).bind (spanCodec_faithful.reads s hs).last)
    rw [Value.writeFields, List.append_assoc (identCodec.write name)]
    exact hfield.bind (reads_fields hfs (by omega)).last

end

private theorem valueCodec_faithful : valueCodec.Faithful Value.Storable :=
  .ofFuel (fun h => extends_readValue h) fun _ hv _ h => reads_readValue hv h

private theorem extends_readTypeRef {n m : Nat} (h : n ≤ m) : Extends (readTypeRef n) (readTypeRef m) := by
  induction n generalizing m with
  | zero => exact .failure _
  | succ n ih =>
    obtain ⟨m, rfl⟩ : ∃ k, m = k + 1 := ⟨m - 1, by omega⟩
    have hend {f : Bool → Span → TypeRef} :
        Extends (do return f (← bool.read) (← spanCodec.read)) (do return f (← bool.read) (← spanCodec.read)) :=
      Faithful.bool.steady.bind fun _ => spanCodec_faithful.steady.bind fun _ => .pure _
    refine Faithful.word.steady.bind fun tag => ?_
    match tag with
    | 0 => exact identCodec_faithful.steady.bind fun _ => hend
    | 1 => exact (ih (Nat.le_of_succ_le_succ h)).bind fun _ => hend
    | _ + 2 => exact .failure _

/-- Type references are read back, within a depth of as many levels as they have bytes. -/
private theorem reads_readTypeRef {t : TypeRef} (ht : t.Storable) {depth : Nat} (hdepth : t.write.length ≤ depth) :
    Reads (readTypeRef depth) t.write t := by
  have hend (nullable : Bool) {s : Span} (hs : s.Storable) (f : Bool → Span → TypeRef) :
      Reads (do return f (← bool.read) (← spanCodec.read)) (bool.write nullable ++ spanCodec.write s)
        (f nullable s) :=
    (Faithful.bool.reads nullable trivial).bind (spanCodec_faithful.reads s hs).last
  induction t generalizing depth with
  | named name nullable s =>
    simp only [TypeRef.write, List.length_append, length_tag 0 (by decide)] at hdepth
    obtain ⟨depth, rfl⟩ : ∃ d, depth = d + 1 := ⟨depth - 1, by omega⟩
    simp only [TypeRef.write, List.append_assoc]
    exact reads_tagged (by decide) ((identCodec_faithful.reads name ht.1).bind (hend nullable ht.2 (.named name)))
  | list element nullable s ih =>
    simp only [TypeRef.write, List.length_append, length_tag 1 (by decide)] at hdepth
    obtain ⟨depth, rfl⟩ : ∃ d, depth = d + 1 := ⟨depth - 1, by omega⟩
    simp only [TypeRef.write, List.append_assoc]
    exact reads_tagged (by decide) ((ih ht.1 (by omega)).bind (hend nullable ht.2 (.list element)))

private theorem typeRefCodec_faithful : typeRefCodec.Faithful TypeRef.Storable :=
  .ofFuel (fun h => extends_readTypeRef h) fun _ ht _ h => reads_readTypeRef ht h

/-! ### Selections and definitions -/

private theorem argumentsCodec_faithful : argumentsCodec.Faithful (StorableList Argument.Storable) :=
  ((identCodec_faithful.pair (valueCodec_faithful.pair spanCodec_faithful)).via fun _ => rfl).list

private theorem directivesCodec_faithful : directivesCodec.Faithful (StorableList Directive.Storable) :=
  ((identCodec_faithful.pair (argumentsCodec_faithful.pair spanCodec_faithful)).via fun _ => rfl).list

private theorem variableDefinitionCodec_faithful : variableDefinitionCodec.Faithful VariableDefinition.Storable :=
  (identCodec_faithful.pair (typeRefCodec_faithful.pair (valueCodec_faithful.option.pair
    (directivesCodec_faithful.pair spanCodec_faithful)))).via fun _ => rfl

private theorem fieldCodec_faithful : fieldCodec.Faithful Field.Storable :=
  (identCodec_faithful.option.pair (identCodec_faithful.pair (argumentsCodec_faithful.pair
    (directivesCodec_faithful.pair (rangeCodec_faithful.option.pair spanCodec_faithful))))).via fun _ => rfl

private theorem spreadCodec_faithful : spreadCodec.Faithful fun (name, directives, s) =>
    name.Storable ∧ StorableList Directive.Storable directives ∧ s.Storable :=
  identCodec_faithful.pair (directivesCodec_faithful.pair spanCodec_faithful)

private theorem inlineCodec_faithful : inlineCodec.Faithful fun (condition, directives, range, s) =>
    (∀ c ∈ condition, c.Storable) ∧ StorableList Directive.Storable directives ∧ range.Storable ∧ s.Storable :=
  identCodec_faithful.option.pair (directivesCodec_faithful.pair (rangeCodec_faithful.pair spanCodec_faithful))

/-- The first word of a selection tells which of the three kinds follows. -/
private theorem selectionCodec_faithful : selectionCodec.Faithful Selection.Storable where
  reads s hs := by
    cases s with
    | field f => exact reads_tagged (by decide) (fieldCodec_faithful.reads f hs).last
    | spread name directives s =>
      exact reads_tagged (by decide) (spreadCodec_faithful.reads (name, directives, s) hs).last
    | «inline» condition directives range s =>
      exact reads_tagged (by decide) (inlineCodec_faithful.reads (condition, directives, range, s) hs).last
  steady := by
    refine Faithful.word.steady.bind fun tag => ?_
    match tag with
    | 0 => exact fieldCodec_faithful.steady.bind fun _ => .pure _
    | 1 => exact spreadCodec_faithful.steady.bind fun _ => .pure _
    | 2 => exact inlineCodec_faithful.steady.bind fun _ => .pure _
    | _ + 3 => exact .failure _

private theorem operationKindCodec_faithful : operationKindCodec.Faithful fun _ => True where
  reads kind _ rest := by cases kind <;> rfl
  steady := by
    refine Faithful.word.steady.bind fun tag => ?_
    match tag with
    | 0 | 1 | 2 => exact .pure _
    | _ + 3 => exact .failure _

private theorem operationCodec_faithful : operationCodec.Faithful Operation.Storable := by
  have hparts := operationKindCodec_faithful.pair (identCodec_faithful.option.pair
    (variableDefinitionCodec_faithful.list.pair
      (directivesCodec_faithful.pair (rangeCodec_faithful.pair spanCodec_faithful))))
  have hwhole : operationCodec.Faithful _ := hparts.via fun _ => rfl
  exact hwhole.mono fun o ho => ⟨trivial, ho⟩

private theorem fragmentCodec_faithful : fragmentCodec.Faithful Fragment.Storable :=
  (identCodec_faithful.pair (identCodec_faithful.pair (directivesCodec_faithful.pair
    (rangeCodec_faithful.pair spanCodec_faithful)))).via fun _ => rfl

private theorem definitionCodec_faithful : definitionCodec.Faithful Definition.Storable where
  reads d hd := by
    cases d with
    | operation index => exact reads_tagged (by decide) (Faithful.word.reads index hd).last
    | fragment index => exact reads_tagged (by decide) (Faithful.word.reads index hd).last
  steady := by
    refine Faithful.word.steady.bind fun tag => ?_
    match tag with
    | 0 | 1 => exact Faithful.word.steady.bind fun _ => .pure _
    | _ + 2 => exact .failure _

/-- Documents whose numbers and lengths can be stored are read back. -/
theorem documentCodec_faithful : documentCodec.Faithful Document.Storable :=
  (Faithful.string.list.pair (definitionCodec_faithful.list.pair (operationCodec_faithful.list.pair
    (fragmentCodec_faithful.list.pair (selectionCodec_faithful.list.pair spanCodec_faithful))))).via fun _ => rfl

/-- A document whose numbers fit and whose references point inside is read back from its binary form; with bytes
behind it the binary form is refused with their number, and a part of it holds no document. -/
theorem Document.encode_selfDelimiting {c : Document} (hc : c.Storable) (hsound : c.referenceError? = none) :
    decode c.encode = .ok c ∧
    (∀ more, more ≠ [] → decode (c.encode ++ more) = .error (.trailingBytes more.length)) ∧
    ∀ part left, c.encode = part ++ left → left ≠ [] → decode part = .error .malformed := by
  have hreads (more : List UInt8) : documentCodec.read (c.encode ++ more) = some (c, more) :=
    documentCodec_faithful.reads c hc more
  refine ⟨?_, ?_, ?_⟩
  · have hread := hreads []
    rw [List.append_nil] at hread
    simp only [decode, hread, hsound]
  · intro more hmore
    obtain ⟨byte, more, rfl⟩ := List.exists_cons_of_ne_nil hmore
    simp only [decode, hreads]
  · intro part left hencode hleft
    simp only [decode, documentCodec_faithful.read_eq_none hc hencode hleft]

/-- The compact form of `{a(b: [$c, 1])}` far down in a source text. -/
def listArgument : Document :=
  let place : Span := ⟨⟨300, 0, 0, 70000⟩, ⟨300, 14, 14, 70014⟩⟩
  let items := [.var ⟨2, place⟩ place, .int 3 place]
  ⟨["a", "b", "c", "1"], [.operation 0], [⟨.query, none, [], [], ⟨0, 1⟩, place⟩], [],
    [.field ⟨none, ⟨0, place⟩, [⟨⟨1, place⟩, .list items place, place⟩], [], none, place⟩], place⟩

theorem Document.encode_selfDelimiting_listArgument :
    decode listArgument.encode = .ok listArgument ∧
    decode (listArgument.encode ++ [0]) = .error (.trailingBytes 1) ∧
    decode [] = .error .malformed := by
  have hstorable : listArgument.Storable := by
    simp [listArgument, Document.Storable, StorableList, Definition.Storable, Operation.Storable, Range.Storable,
      Selection.Storable, Field.Storable, Argument.Storable, Value.Storable, Value.StorableItems, Ident.Storable,
      Span.Storable, Position.Storable, UInt32.size, UInt64.size]
    decide
  have hsound : listArgument.referenceError? = none := by decide
  obtain ⟨hwhole, hmore, hpart⟩ := encode_selfDelimiting hstorable hsound
  exact ⟨hwhole, hmore [0] (by decide), hpart [] listArgument.encode rfl (by decide)⟩

end Compact

end GraphQL
