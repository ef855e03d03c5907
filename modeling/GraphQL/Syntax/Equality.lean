import GraphQL.Syntax.Value

/-!
# Equality of values

Two values are equal if they are written alike but for their spans, the form of their strings and the order of the
fields of input objects. Numbers are compared by their source text.
-/

namespace GraphQL

mutual

def Value.equal : Value → Value → Bool
  | .var a, .var b => a.name.value = b.name.value
  | .int a _, .int b _ => a = b
  | .float a _, .float b _ => a = b
  | .string a, .string b => a.value = b.value
  | .boolean a _, .boolean b _ => a = b
  | .null _, .null _ => true
  | .enum a _, .enum b _ => a = b
  | .list as _, .list bs _ => itemsEqual as bs
  | .object as _, .object bs _ => as.length = bs.length && fieldsAmong as bs
  | _, _ => false

def itemsEqual : List Value → List Value → Bool
  | [], [] => true
  | a :: as, b :: bs => a.equal b && itemsEqual as bs
  | _, _ => false

/-- Whether each field of the first list has an equal field in the second. -/
def fieldsAmong : List ObjectField → List ObjectField → Bool
  | [], _ => true
  | ⟨name, v, _⟩ :: as, bs =>
    bs.any (fun b => name.value = b.name.value && v.equal b.value) && fieldsAmong as bs

end

/-- Whether two lists of arguments give equal values to the same names. -/
def argumentsEqual (as bs : List Argument) : Bool :=
  as.length = bs.length &&
    as.all fun a => bs.any fun b => a.name.value = b.name.value && a.value.equal b.value

end GraphQL
