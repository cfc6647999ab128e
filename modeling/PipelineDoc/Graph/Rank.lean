/-!
# Ranks

The nodes of a graph are the numbers below `n`, its edges are pairs of them. A ranking gives every
node a number so that edges lead to higher ranks, as far as that can be.

* *Relaxation* passes over the edges again and again and lifts each target above its source. On a
  cycle this never ends, so the number of passes is bounded.
* *Layering* removes all nodes without incoming edges, then all nodes that have none left, and so
  on. The round in which a node goes is the length of the longest path that ends at it. On a cycle
  no node ever goes, and there is no layering.
-/

namespace PipelineDoc.Rank

/-- Lifts the target of an edge above its source. -/
def lift (ranks : Array Nat) (e : Nat × Nat) : Array Nat :=
  ranks.setIfInBounds e.2 (max (ranks.getD e.2 0) (ranks.getD e.1 0 + 1))

/-- One pass over the edges, in order. -/
def pass (edges : List (Nat × Nat)) (ranks : Array Nat) : Array Nat := edges.foldl lift ranks

/-- At most the given number of passes; the first that changes nothing is the last. -/
def relax (edges : List (Nat × Nat)) : (passes : Nat) → Array Nat → Array Nat
  | 0, ranks => ranks
  | passes + 1, ranks =>
    let lifted := pass edges ranks
    if lifted = ranks then ranks else relax edges passes lifted

/-- The ranks by relaxation. -/
def relaxation (n : Nat) (edges : List (Nat × Nat)) (passes : Nat) : List Nat :=
  (relax edges passes (Array.replicate n 0)).toList

/-- The layers of the nodes that are left, in at most the given number of rounds. -/
def layers? (edges : List (Nat × Nat)) :
    (rounds : Nat) → (left : List Nat) → Option (List (List Nat))
  | _, [] => some []
  | 0, _ :: _ => none
  | rounds + 1, left =>
    let live := edges.filter fun e => left.contains e.1
    let (blocked, free) := left.partition fun v => live.any fun e => e.2 == v
    if free.isEmpty then none else (layers? edges rounds blocked).map (free :: ·)

/-- The ranks by layering; none when there is a cycle. -/
def longestPath? (n : Nat) (edges : List (Nat × Nat)) : Option (List Nat) :=
  (layers? edges n (List.range n)).map fun layers =>
    (List.range n).map fun v => layers.findIdx fun layer => layer.contains v

end PipelineDoc.Rank
