import GraphQL.Binary
import GraphQL.Compact.Reference

/-!
# The binary form of compact documents

`encode` writes the parts of a document one after the other, without names. `decode` reads a document back and
refuses a byte string that is malformed, too long, or holds a reference that points outside.
-/

namespace GraphQL.Compact

open Codec

def positionCodec : Codec Position :=
  (word.pair (word.pair (word.pair word))).via
    (fun p => (p.line, p.column, p.column16, p.offset)) (fun (l, c, c16, o) => ⟨l, c, c16, o⟩)

def spanCodec : Codec Span :=
  (positionCodec.pair positionCodec).via (fun s => (s.first, s.stop)) (fun (a, b) => ⟨a, b⟩)

def identCodec : Codec Ident :=
  (word.pair spanCodec).via (fun i => (i.word, i.span)) (fun (w, s) => ⟨w, s⟩)

def rangeCodec : Codec Range :=
  (word.pair word).via (fun r => (r.start, r.size)) (fun (a, n) => ⟨a, n⟩)

mutual

def Value.write : Value → List UInt8
  | .var name s => word.write 0 ++ identCodec.write name ++ spanCodec.write s
  | .int w s => word.write 1 ++ word.write w ++ spanCodec.write s
  | .float w s => word.write 2 ++ word.write w ++ spanCodec.write s
  | .string w s => word.write 3 ++ word.write w ++ spanCodec.write s
  | .boolean b s => word.write 4 ++ bool.write b ++ spanCodec.write s
  | .null s => word.write 5 ++ spanCodec.write s
  | .enum w s => word.write 6 ++ word.write w ++ spanCodec.write s
  | .list items s => word.write 7 ++ length.write items.length ++ Value.writeItems items ++ spanCodec.write s
  | .object fields s => word.write 8 ++ length.write fields.length ++ Value.writeFields fields ++ spanCodec.write s

def Value.writeItems : List Value → List UInt8
  | [] => []
  | v :: vs => v.write ++ Value.writeItems vs

def Value.writeFields : List ObjectField → List UInt8
  | [] => []
  | ⟨name, v, s⟩ :: fs => identCodec.write name ++ v.write ++ spanCodec.write s ++ Value.writeFields fs

end

def readField (value : Reader Value) : Reader ObjectField := do
  let name ← identCodec.read
  let value ← value
  return ⟨name, value, ← spanCodec.read⟩

/-- Reads a value that is nested at most `depth` levels deep. -/
def readValue : Nat → Reader Value
  | 0 => failure
  | depth + 1 => do
    match ← word.read with
    | 0 => return .var (← identCodec.read) (← spanCodec.read)
    | 1 => return .int (← word.read) (← spanCodec.read)
    | 2 => return .float (← word.read) (← spanCodec.read)
    | 3 => return .string (← word.read) (← spanCodec.read)
    | 4 => return .boolean (← bool.read) (← spanCodec.read)
    | 5 => return .null (← spanCodec.read)
    | 6 => return .enum (← word.read) (← spanCodec.read)
    | 7 => return .list (← readTimes (readValue depth) (← length.read)) (← spanCodec.read)
    | 8 => return .object (← readTimes (readField (readValue depth)) (← length.read)) (← spanCodec.read)
    | _ => failure

/-- Each level of nesting takes a byte of its own, so that the bytes left bound the depth. -/
def valueCodec : Codec Value := ⟨Value.write, fun bytes => readValue bytes.length bytes⟩

def TypeRef.write : TypeRef → List UInt8
  | .named name nullable s => word.write 0 ++ identCodec.write name ++ bool.write nullable ++ spanCodec.write s
  | .list element nullable s => word.write 1 ++ element.write ++ bool.write nullable ++ spanCodec.write s

def readTypeRef : Nat → Reader TypeRef
  | 0 => failure
  | depth + 1 => do
    match ← word.read with
    | 0 => return .named (← identCodec.read) (← bool.read) (← spanCodec.read)
    | 1 => return .list (← readTypeRef depth) (← bool.read) (← spanCodec.read)
    | _ => failure

def typeRefCodec : Codec TypeRef := ⟨TypeRef.write, fun bytes => readTypeRef bytes.length bytes⟩

def argumentsCodec : Codec (List Argument) :=
  list ((identCodec.pair (valueCodec.pair spanCodec)).via
    (fun a => (a.name, a.value, a.span)) (fun (n, v, s) => ⟨n, v, s⟩))

def directivesCodec : Codec (List Directive) :=
  list ((identCodec.pair (argumentsCodec.pair spanCodec)).via
    (fun d => (d.name, d.arguments, d.span)) (fun (n, as, s) => ⟨n, as, s⟩))

def variableDefinitionCodec : Codec VariableDefinition :=
  (identCodec.pair (typeRefCodec.pair ((option valueCodec).pair (directivesCodec.pair spanCodec)))).via
    (fun v => (v.name, v.type, v.defaultValue, v.directives, v.span)) (fun (n, t, d, ds, s) => ⟨n, t, d, ds, s⟩)

def fieldCodec : Codec Field :=
  ((option identCodec).pair (identCodec.pair (argumentsCodec.pair
    (directivesCodec.pair ((option rangeCodec).pair spanCodec))))).via
    (fun f => (f.aliasName, f.name, f.arguments, f.directives, f.selections, f.span))
    (fun (a, n, as, ds, r, s) => ⟨a, n, as, ds, r, s⟩)

def spreadCodec : Codec (Ident × List Directive × Span) := identCodec.pair (directivesCodec.pair spanCodec)

def inlineCodec : Codec (Option Ident × List Directive × Range × Span) :=
  (option identCodec).pair (directivesCodec.pair (rangeCodec.pair spanCodec))

def selectionCodec : Codec Selection where
  write
    | .field f => word.write 0 ++ fieldCodec.write f
    | .spread n ds s => word.write 1 ++ spreadCodec.write (n, ds, s)
    | .inline c ds r s => word.write 2 ++ inlineCodec.write (c, ds, r, s)
  read := do
    match ← word.read with
    | 0 => return .field (← fieldCodec.read)
    | 1 =>
      let (n, ds, s) ← spreadCodec.read
      return .spread n ds s
    | 2 =>
      let (c, ds, r, s) ← inlineCodec.read
      return .inline c ds r s
    | _ => failure

def operationKindCodec : Codec OperationKind where
  write
    | .query => word.write 0
    | .mutation => word.write 1
    | .subscription => word.write 2
  read := do
    match ← word.read with
    | 0 => return .query
    | 1 => return .mutation
    | 2 => return .subscription
    | _ => failure

def operationCodec : Codec Operation :=
  (operationKindCodec.pair ((option identCodec).pair ((list variableDefinitionCodec).pair
    (directivesCodec.pair (rangeCodec.pair spanCodec))))).via
    (fun o => (o.kind, o.name, o.variableDefinitions, o.directives, o.selections, o.span))
    (fun (k, n, vs, ds, r, s) => ⟨k, n, vs, ds, r, s⟩)

def fragmentCodec : Codec Fragment :=
  (identCodec.pair (identCodec.pair (directivesCodec.pair (rangeCodec.pair spanCodec)))).via
    (fun f => (f.name, f.condition, f.directives, f.selections, f.span)) (fun (n, c, ds, r, s) => ⟨n, c, ds, r, s⟩)

def definitionCodec : Codec Definition where
  write
    | .operation index => word.write 0 ++ word.write index
    | .fragment index => word.write 1 ++ word.write index
  read := do
    match ← word.read with
    | 0 => return .operation (← word.read)
    | 1 => return .fragment (← word.read)
    | _ => failure

def documentCodec : Codec Document :=
  ((list string).pair ((list definitionCodec).pair ((list operationCodec).pair
    ((list fragmentCodec).pair ((list selectionCodec).pair spanCodec))))).via
    (fun d => (d.strings, d.definitions, d.operations, d.fragments, d.selections, d.span))
    (fun (ss, ds, os, fs, sels, s) => ⟨ss, ds, os, fs, sels, s⟩)

namespace Document

/-- The binary form of a document. -/
def encode (d : Document) : List UInt8 := documentCodec.write d

/-- Reads the binary form of a document. -/
def decode (bytes : List UInt8) : Except DecodeError Document :=
  match documentCodec.read bytes with
  | none => .error .malformed
  | some (d, []) =>
    match d.referenceError? with
    | some e => .error e
    | none => .ok d
  | some (_, rest) => .error (.trailingBytes rest.length)

end Document

end GraphQL.Compact
