import PipelineDoc.Graph.Basic
import PipelineDoc.Value

/-!
# The written form of a graph

A graph is written as a value. The field `active` is there only on the active node.
-/

namespace PipelineDoc

/-- A point as a value. -/
def Point.toValue (p : Point) : Value := .record [("x", .int p.x.toInt), ("y", .int p.y.toInt)]

/-- A node as a value. -/
def Node.toValue (n : Node) : Value :=
  .record
    ([("id", .text n.id), ("kind", .ofString n.kind.display), ("label", .text n.label),
      ("rank", .int n.rank), ("position", n.position.toValue)] ++
      if n.active then [("active", .bool true)] else [])

/-- An edge as a value. -/
def Edge.toValue (e : Edge) : Value :=
  .record
    [("id", .text e.id), ("source", .text e.source), ("target", .text e.target),
      ("kind", .ofString e.kind.display)]

/-- A graph as a value. -/
def Graph.toValue (g : Graph) : Value :=
  .record [("nodes", .list (g.nodes.map Node.toValue)), ("edges", .list (g.edges.map Edge.toValue))]

end PipelineDoc
