namespace LuaBundle.Yaml

-- A value of a document. An alias stands for the node that carries the anchor with its number.
inductive Node
  | scalar (isPlain : Bool) (tag : Option String) (text : String)
  | sequence (items : List Node)
  | mapping (entries : List (Node × Node))
  | alias (anchor : Nat)

namespace Node

-- What is meant where nothing is written.
def absent : Node :=
  scalar true none ""

end Node

-- What one document holds: its node, unless it is empty, and the nodes that carry anchors.
structure Document where
  root : Option Node
  anchored : List (Nat × Node)

namespace Document

-- The node that a node stands for.
def resolve (d : Document) : Node → Node
  | .alias anchor => (d.anchored.lookup anchor).getD .absent
  | n => n

end Document
end LuaBundle.Yaml
