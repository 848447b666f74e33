import CoralReef.Misc.Fault

/-!
# Union-find

`codegen/union_find.rs`: a disjoint-set forest with linking by size and path halving, in which
every class has a chosen representative.
-/

namespace CoralReef

/-- A node of the forest: an inner node, or a root with the size of its class and the
representative. -/
inductive UnionFindNode (X : Type) where
  | child (parentIdx : Nat)
  | root (size : Nat) (representative : X)
  deriving DecidableEq, Repr

/-- `idxMap` is the hash map from the values seen so far to their nodes. -/
structure UnionFind (X : Type) where
  idxMap : X → Option Nat := fun _ => none
  nodes : List (UnionFindNode X) := []

namespace UnionFind

variable {X : Type}

/-- `UnionFind::find_root`: the nodes after halving the path, and the root found with its size and
representative. -/
def findRoot : Nat → List (UnionFindNode X) → Nat →
    Except Fault (List (UnionFindNode X) × Nat × Nat × X)
  | 0, _, _ => .error (.panic "out of fuel")
  | fuel + 1, nodes, idx =>
    match nodes[idx]? with
    | none => .error (.panic "index out of bounds")
    | some (.root size representative) => .ok (nodes, idx, size, representative)
    | some (.child parentIdx) =>
      match nodes[parentIdx]? with
      | none => .error (.panic "index out of bounds")
      | some (.root size representative) => .ok (nodes, parentIdx, size, representative)
      | some (.child grandparentIdx) =>
        findRoot fuel (nodes.set idx (.child grandparentIdx)) grandparentIdx

/-- `UnionFind::find`. -/
def find (uf : UnionFind X) (x : X) : Except Fault (X × UnionFind X) :=
  match uf.idxMap x with
  | some idx => do
    let (nodes, _, _, representative) ← findRoot uf.nodes.length uf.nodes idx
    return (representative, { uf with nodes })
  | none => return (x, uf)

variable [DecidableEq X]

/-- `UnionFind::map_or_create`. -/
def mapOrCreate (uf : UnionFind X) (x : X) : Nat × UnionFind X :=
  match uf.idxMap x with
  | some idx => (idx, uf)
  | none =>
    (uf.nodes.length,
      { idxMap := Function.update uf.idxMap x (some uf.nodes.length),
        nodes := uf.nodes ++ [.root 1 x] })

/-- `UnionFind::union`: the representative of `a` stands for the joined class. -/
def union (uf : UnionFind X) (a b : X) : Except Fault (UnionFind X) :=
  if a = b then return uf
  else do
    let (aIdx, uf) := uf.mapOrCreate a
    let (bIdx, uf) := uf.mapOrCreate b
    let (nodes, aRoot, aSize, aRep) ← findRoot uf.nodes.length uf.nodes aIdx
    let (nodes, bRoot, bSize, _) ← findRoot nodes.length nodes bIdx
    if aRoot ≠ bRoot then
      let (newRoot, newChild) := if aSize ≥ bSize then (aRoot, bRoot) else (bRoot, aRoot)
      let nodes := nodes.set newRoot (.root (aSize + bSize) aRep)
      return { uf with nodes := nodes.set newChild (.child newRoot) }
    else return { uf with nodes }

/-- `UnionFind::is_empty`. -/
def isEmpty (uf : UnionFind X) : Bool := uf.nodes.isEmpty

end UnionFind

end CoralReef
