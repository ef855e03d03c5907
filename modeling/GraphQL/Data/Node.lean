import GraphQL.Data
import GraphQL.Syntax.Node

/-!
# Node trees as plain data

A node is a record of its kind and its fields, without spans.
-/

namespace GraphQL

mutual

def Node.toData : Node → Data
  | ⟨kind, _, fields⟩ => .record (("kind", data kind.tag) :: NodeField.listToParts fields)

def NodeField.listToParts : List NodeField → List (String × Data)
  | [] => []
  | ⟨key, content⟩ :: rest => (key, content.toData) :: NodeField.listToParts rest

def NodeContent.toData : NodeContent → Data
  | .absent => .null
  | .text s => data s
  | .flag b => data b
  | .node n => n.toData
  | .nodes ns => .list (Node.listToData ns)

def Node.listToData : List Node → List Data
  | [] => []
  | n :: ns => n.toData :: Node.listToData ns

end

instance : ToData Node := ⟨Node.toData⟩

end GraphQL
