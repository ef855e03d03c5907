import GraphQL.Source.Span

/-!
# Plain data

Plain data is what trees and results are handed to other tools as: records with named parts, lists, texts, numbers
and truth values. A choice among shapes is the name of the shape, or a record of the name and its content.
-/

namespace GraphQL

inductive Data where
  | null
  | flag (value : Bool)
  | number (value : Int)
  | text (value : String)
  | list (items : List Data)
  | record (parts : List (String × Data))

/-- Things that can be handed over as plain data. -/
class ToData (α : Type) where
  data : α → Data

export ToData (data)

namespace Data

/-- One of several shapes, with its content. -/
def shape (name : String) (content : Data) : Data := record [(name, content)]

end Data

instance : ToData Data := ⟨id⟩

instance : ToData Bool := ⟨.flag⟩

instance : ToData Nat := ⟨fun n => .number n⟩

instance : ToData Int := ⟨.number⟩

instance : ToData String := ⟨.text⟩

instance {α : Type} [ToData α] : ToData (List α) := ⟨fun xs => .list (xs.map data)⟩

/-- What is absent is null. -/
instance {α : Type} [ToData α] : ToData (Option α) := ⟨fun | some a => data a | none => .null⟩

instance {α β : Type} [ToData α] [ToData β] : ToData (α × β) := ⟨fun (a, b) => .list [data a, data b]⟩

/-- A span is a list of eight numbers: line, column, column in UTF-16 units and offset of both ends. -/
instance : ToData Span where
  data s := data [s.first.line, s.first.column, s.first.column16, s.first.offset,
    s.stop.line, s.stop.column, s.stop.column16, s.stop.offset]

end GraphQL
