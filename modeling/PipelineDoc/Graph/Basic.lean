import PipelineDoc.Text.Basic

/-!
# Dependency graphs

Nodes and edges are kept in the order in which they were added, and are never removed. No two nodes
share an id, no two edges join the same nodes in the same direction, no edge joins a node to itself,
and the ends of an edge are nodes: `addNode` and `addEdge` leave the graph as it is where an
addition would break this. At most one node is *active*, and that one stands for a module.
-/

namespace PipelineDoc

/-- A place in the plane. -/
structure Point where
  x : Int32
  y : Int32
  deriving DecidableEq, Repr

namespace Point

/-- The place where nodes stand before they are laid out. -/
def origin : Point := ⟨0, 0⟩

/-- Whether a place is the origin. -/
def isOrigin (p : Point) : Bool := p == origin

end Point

/-- What a node stands for. -/
inductive NodeKind where
  /-- A declared module. -/
  | module
  /-- The runtime block of a module. -/
  | runtime
  /-- A field of the pipeline input. -/
  | input
  /-- An end of an arrow that no module declares. -/
  | inferred
  deriving DecidableEq, Repr

namespace NodeKind

/-- The written form of a kind of node. -/
def display : NodeKind → String
  | .module => "module"
  | .runtime => "runtime"
  | .input => "input"
  | .inferred => "inferred"

/-- All kinds of node. -/
def all : List NodeKind := [.module, .runtime, .input, .inferred]

/-- The kind of a written form. -/
def ofDisplay? (s : String) : Option NodeKind := all.find? fun k => k.display == s

end NodeKind

/-- What an edge says. -/
inductive EdgeKind where
  /-- Data goes from the source into the target. -/
  | dataFlow
  /-- The target is a part of the source. -/
  | structural
  deriving DecidableEq, Repr

namespace EdgeKind

/-- The written form of a kind of edge. -/
def display : EdgeKind → String
  | .dataFlow => "data_flow"
  | .structural => "structural"

/-- All kinds of edge. -/
def all : List EdgeKind := [.dataFlow, .structural]

/-- The kind of a written form. -/
def ofDisplay? (s : String) : Option EdgeKind := all.find? fun k => k.display == s

end EdgeKind

/-- The id of a part of what has the id `id`. -/
def nestedId (id part : Text) : Text := id ++ ([':', ':'] ++ part)

/-- A node of a dependency graph. -/
structure Node where
  id : Text
  kind : NodeKind
  label : Text
  rank : Nat
  position : Point
  active : Bool
  deriving DecidableEq, Repr

/-- An edge of a dependency graph. -/
structure Edge where
  id : Text
  source : Text
  target : Text
  kind : EdgeKind
  deriving DecidableEq, Repr

/-- The edge between two ids. Its own id joins them by a dash. -/
def Edge.between (source target : Text) (kind : EdgeKind) : Edge where
  id := source ++ '-' :: target
  source
  target
  kind

/-- A dependency graph. -/
structure Graph where
  nodes : List Node
  edges : List Edge
  deriving DecidableEq, Repr

namespace Graph

/-- The graph without nodes. -/
def empty : Graph := ⟨[], []⟩

/-- The node with an id. -/
def node? (g : Graph) (id : Text) : Option Node := g.nodes.find? fun n => n.id == id

/-- Whether there is a node with an id. -/
def contains (g : Graph) (id : Text) : Bool := g.nodes.any fun n => n.id == id

/-- Whether there is a node with an id that stands for a module. -/
def isModule (g : Graph) (id : Text) : Bool := (g.node? id).any fun n => n.kind == .module

/-- Whether an edge joins two ids. -/
def joins (g : Graph) (source target : Text) : Bool :=
  g.edges.any fun e => e.source == source && e.target == target

/-- Whether a node with an id can be added. -/
def admitsNode (g : Graph) (id : Text) : Bool := !g.contains id

/-- Adds a node, unless its id is taken. -/
def addNode (g : Graph) (kind : NodeKind) (id label : Text) : Graph :=
  if g.admitsNode id then { g with nodes := g.nodes ++ [⟨id, kind, label, 0, .origin, false⟩] }
  else g

/-- Whether an edge between two ids can be added. -/
def admitsEdge (g : Graph) (source target : Text) : Bool :=
  source != target && g.contains source && g.contains target && !g.joins source target

/-- Adds an edge, unless it has an end that is no node, joins a node to itself or repeats
another. -/
def addEdge (g : Graph) (kind : EdgeKind) (source target : Text) : Graph :=
  if g.admitsEdge source target then { g with edges := g.edges ++ [.between source target kind] }
  else g

/-- Makes the module with an id active and every other node inactive. -/
def setActive (g : Graph) (id : Text) : Graph :=
  { g with
    nodes := g.nodes.map fun n => { n with active := n.id == id && n.kind == .module } }

/-- The active nodes. -/
def activeNodes (g : Graph) : List Node := g.nodes.filter fun n => n.active

end Graph

end PipelineDoc
