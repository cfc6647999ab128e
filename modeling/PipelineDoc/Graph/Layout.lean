import PipelineDoc.Graph.Basic
import PipelineDoc.Graph.Rank

/-!
# Layout

A layout ranks the nodes of a graph and puts them into columns by rank; within a column they keep
the order in which they were added. Coordinates are 32-bit numbers: sums and products that leave the
range stop at its ends.
-/

namespace PipelineDoc

/-- How ranks are found. -/
inductive Engine where
  | relaxation
  /-- By layering; a graph with a cycle is relaxed. -/
  | longestPath
  deriving DecidableEq, Repr

namespace Engine

/-- The written form of an engine. -/
def display : Engine → String
  | .relaxation => "relaxation"
  | .longestPath => "longest_path"

/-- All engines. -/
def all : List Engine := [.relaxation, .longestPath]

/-- The engine of a written form. -/
def ofDisplay? (s : String) : Option Engine := all.find? fun e => e.display == s

end Engine

/-- The settings of a layout. -/
structure Layout where
  engine : Engine := .relaxation
  /-- The bound on the passes of relaxation; the number of nodes if there is none. -/
  passes : Option Nat := none
  /-- The distance of two columns. -/
  rankSpacing : Int32 := 280
  /-- The distance of two nodes in a column. -/
  orderSpacing : Int32 := 140
  /-- Where the first column and the first node of a column stand. -/
  margin : Int32 := 40
  deriving DecidableEq, Repr

/-- The 32-bit number closest to an integer. -/
def saturate (n : Int) : Int32 :=
  Int32.ofInt (max Int32.minValue.toInt (min n Int32.maxValue.toInt))

/-- The coordinate of the column or row with number `step`. -/
def coordinate (margin spacing : Int32) (step : Nat) : Int32 :=
  let reach := saturate ((saturate step).toInt * spacing.toInt)
  saturate (margin.toInt + reach.toInt)

/-- Each rank with the number of earlier ranks equal to it, after the ranks `seen`. -/
def withOrders (seen : List Nat) : List Nat → List (Nat × Nat)
  | [] => []
  | r :: ranks => (r, seen.count r) :: withOrders (r :: seen) ranks

namespace Graph

/-- The place of a node in the list of nodes. -/
def indexOf? (g : Graph) (id : Text) : Option Nat := g.nodes.findIdx? fun n => n.id == id

/-- The edges as pairs of places in the list of nodes. -/
def edgeIndices (g : Graph) : List (Nat × Nat) :=
  g.edges.filterMap fun e =>
    match g.indexOf? e.source, g.indexOf? e.target with
    | some s, some t => some (s, t)
    | _, _ => none

end Graph

namespace Layout

/-- The ranks of the nodes of a graph. -/
def ranks (layout : Layout) (g : Graph) : List Nat :=
  let n := g.nodes.length
  let relaxed := Rank.relaxation n g.edgeIndices (layout.passes.getD n)
  match layout.engine with
  | .relaxation => relaxed
  | .longestPath => (Rank.longestPath? n g.edgeIndices).getD relaxed

/-- Where the node with a rank and a place in its column stands. -/
def position (layout : Layout) (rank order : Nat) : Point :=
  ⟨coordinate layout.margin layout.rankSpacing rank,
    coordinate layout.margin layout.orderSpacing order⟩

/-- **Lays out a graph**: every node gets a rank and a position. -/
def apply (layout : Layout) (g : Graph) : Graph :=
  { g with
    nodes := g.nodes.zipWith
      (fun n (rank, order) => { n with rank, position := layout.position rank order })
      (withOrders [] (layout.ranks g)) }

end Layout

end PipelineDoc
