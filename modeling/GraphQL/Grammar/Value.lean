import GraphQL.Grammar.Parse
import GraphQL.StringLiteral.Quoted
import GraphQL.StringLiteral.Block

/-!
# The grammar of values, directives and type references
-/

namespace GraphQL.Parse

/-- Where a value stands, which decides whether it may hold variables. -/
inductive ValuePlace where
  | anywhere
  | variableDefault
  | constDirective
  | inputDefault

/-- The name of a place that forbids variables. -/
def ValuePlace.forbids? : ValuePlace → Option String
  | anywhere => none
  | variableDefault => some "variable default values"
  | constDirective => some "const directive arguments"
  | inputDefault => some "input value default values"

/-- A string literal with its value. -/
def stringLiteral : Parse StringLiteral := do
  let t ← peek
  let (cooked, block) ← match t.kind with
    | .string raw => pure (Quoted.cook raw, false)
    | .blockString raw => pure (Block.cook raw, true)
    | _ => unexpected t ["string"]
  match cooked with
  | .ok value =>
    advance
    return ⟨value, block, t.span⟩
  | .error cause => fail (.badString cause) t.span

/-- `name: value`, where `value` parses the value. -/
def objectField (value : Parse Value) : Parse ObjectField := do
  let name ← name
  let _ ← expect .colon
  let value ← value
  return ⟨name, value, ← spanFrom name.span⟩

/-- A value with as many levels of nesting left as the number says. -/
def value (place : ValuePlace) : Nat → Parse Value
  | 0 => tooDeep
  | depth + 1 => do
    let t ← peek
    match t.kind with
    | .punctuator .dollar =>
      match place.forbids? with
      | some place => fail (.variableIn place) t.span
      | none =>
        advance
        let name ← name
        return .var ⟨name, t.span.merge name.span⟩
    | .int raw => advance; return .int raw t.span
    | .float raw => advance; return .float raw t.span
    | .string _ | .blockString _ => return .string (← stringLiteral)
    | .trueWord => advance; return .boolean true t.span
    | .falseWord => advance; return .boolean false t.span
    | .nullWord => advance; return .null t.span
    | .name text => advance; return .enum text t.span
    | .punctuator .openBracket =>
      let (items, span) ← delimited .openBracket .closeBracket "list value" true (value place depth)
      return .list items span
    | .punctuator .openBrace =>
      let (fields, span) ←
        delimited .openBrace .closeBrace "input object value" true (objectField (value place depth))
      return .object fields span
    | _ => unexpected t ["value"]

/-- The string in front of a definition, if there is one. -/
def description : Parse (Option StringLiteral) := do
  match (← peek).kind with
  | .string _ | .blockString _ => some <$> stringLiteral
  | _ => return none

def argument (place : ValuePlace) (depth : Nat) : Parse Argument := do
  let name ← name
  let _ ← expect .colon
  let value ← value place depth
  return ⟨name, value, ← spanFrom name.span⟩

/-- `(name: value, ...)`, or nothing. -/
def arguments (place : ValuePlace) (depth : Nat) : Parse (List Argument) :=
  delimitedIf .openParen .closeParen "argument list" (argument place depth)

/-- `@name(arguments)`, or nothing. -/
def directive? (place : ValuePlace) (depth : Nat) : Parse (Option Directive) := do
  match ← accept .atSign with
  | some sign =>
    let name ← name
    let arguments ← arguments place depth
    return some ⟨name, arguments, ← spanFrom sign.span⟩
  | none => return none

def directives (place : ValuePlace) (depth : Nat) : Parse (List Directive) := repeated (directive? place depth)

/-- Whether no `!` follows; the sign is consumed. -/
def nullable : Parse Bool := return (← accept .bang).isNone

/-- `Name` or `[Type]`, each with an optional `!`. -/
def typeRef : Nat → Parse TypeRef
  | 0 => tooDeep
  | depth + 1 => do
    let t ← peek
    if t.kind = .punctuator .openBracket then
      advance
      let element ← typeRef depth
      let close ← peek
      if close.kind = .punctuator .closeBracket then advance
      else if close.kind = .endOfInput then fail (.unclosed .closeBracket "list type" t.span) close.span
      else unexpected close ["`]`"]
      let nullable ← nullable
      return .list element nullable (← spanFrom t.span)
    else if t.kind.asName?.isSome then
      let name ← name
      let nullable ← nullable
      return .named name nullable (← spanFrom name.span)
    else unexpected t ["type"]

end GraphQL.Parse
