import CoralReef.Misc.Fault
import Mathlib.Data.List.Basic

/-!
# Control-flow graphs

`coral-reef-stubs/src/cfg`: blocks with their successor and predecessor lists. The source keeps
two maps of lists in step; here both are read off one list of edges in the order of insertion.
Block 0 is the entry.
-/

namespace CoralReef

structure CFG (α : Type) where
  blocks : List α := []
  edges : List (Nat × Nat) := []
  deriving DecidableEq, Repr

namespace CFG

variable {α : Type}

def len (cfg : CFG α) : Nat := cfg.blocks.length

/-- `CFG::successors`, or `succ_indices`. -/
def successors (cfg : CFG α) (id : Nat) : List Nat :=
  cfg.edges.filterMap fun edge => if edge.1 = id then some edge.2 else none

/-- `CFG::predecessors`, or `pred_indices`. -/
def predecessors (cfg : CFG α) (id : Nat) : List Nat :=
  cfg.edges.filterMap fun edge => if edge.2 = id then some edge.1 else none

def addEdge (cfg : CFG α) (source target : Nat) : CFG α :=
  { cfg with edges := cfg.edges ++ [(source, target)] }

/-- `CFG::disconnect_block`: remove every edge from or to the block. -/
def disconnectBlock (cfg : CFG α) (id : Nat) : CFG α :=
  { cfg with edges := cfg.edges.filter fun edge => edge.1 ≠ id ∧ edge.2 ≠ id }

/-- The edges join blocks of the graph. -/
def EdgesIn (cfg : CFG α) : Prop :=
  ∀ edge ∈ cfg.edges, edge.1 < cfg.len ∧ edge.2 < cfg.len

theorem mem_successors {cfg : CFG α} {b s : Nat} : s ∈ cfg.successors b ↔ (b, s) ∈ cfg.edges := by
  simp only [successors, List.mem_filterMap, Option.ite_none_right_eq_some, Option.some.injEq]
  constructor
  · rintro ⟨⟨x, y⟩, member, rfl, rfl⟩
    exact member
  · intro member
    exact ⟨(b, s), member, rfl, rfl⟩

theorem mem_predecessors {cfg : CFG α} {b p : Nat} :
    p ∈ cfg.predecessors b ↔ (p, b) ∈ cfg.edges := by
  simp only [predecessors, List.mem_filterMap, Option.ite_none_right_eq_some, Option.some.injEq]
  constructor
  · rintro ⟨⟨x, y⟩, member, rfl, rfl⟩
    exact member
  · intro member
    exact ⟨(p, b), member, rfl, rfl⟩

/-!
## Dominators and loops

`coral-reef-stubs/src/cfg/traverse.rs` and `cfg/dom.rs`. The iterative dominator computation
(Cooper, Harvey and Kennedy) gives up with a panic after 1000 passes, so everything that is
read off the dominator tree can fault. The loops that climb the tree run on the number of blocks
as fuel.
-/

variable {α : Type}

/-- `rpo_dfs`: the nodes visited and the post-order so far. A nested call has one block less to
visit, so the fuel lasts when it starts above the number of blocks. -/
def rpoDfs (cfg : CFG α) : Nat → List Nat × List Nat → Nat → List Nat × List Nat
  | 0, state, _ => state
  | fuel + 1, (visited, order), node =>
    if node ≥ cfg.len ∨ node ∈ visited then (visited, order)
    else
      let (visited, order) :=
        (cfg.successors node).foldl (rpoDfs cfg fuel) (node :: visited, order)
      (visited, order ++ [node])

/-- `CFG::reverse_post_order`. -/
def reversePostOrder (cfg : CFG α) : List Nat :=
  if cfg.len = 0 then [] else (cfg.rpoDfs (cfg.len + 1) ([], []) 0).2.reverse

/-- The number of a node in reverse post-order; 0 when it is not reachable. -/
def rpoNumber (rpo : List Nat) (node : Nat) : Nat :=
  if node ∈ rpo then rpo.idxOf node else 0

def domParent (doms : List (Option Nat)) (node : Nat) : Option Nat := doms[node]?.join

/-- `CFG::intersect`. -/
def intersect (doms : List (Option Nat)) (rpo : List Nat) :
    Nat → Nat → Nat → Except Fault Nat
  | 0, _, _ => .error (.panic "out of fuel")
  | fuel + 1, finger1, finger2 =>
    if finger1 = finger2 then return finger1
    else if rpoNumber rpo finger1 > rpoNumber rpo finger2 then
      intersect doms rpo fuel ((domParent doms finger1).getD finger1) finger2
    else intersect doms rpo fuel finger1 ((domParent doms finger2).getD finger2)

/-- The dominator computed for `b` from its predecessors. -/
def newIdom (cfg : CFG α) (doms : List (Option Nat)) (rpo : List Nat) (entry b : Nat) :
    Except Fault Nat := do
  let found ← (cfg.predecessors b).foldlM (fun found p =>
    match domParent doms p, found with
    | none, found => .ok found
    | some _, none => .ok (some p)
    | some _, some prev => (intersect doms rpo (2 * cfg.len + 1) p prev).map some) none
  return found.getD entry

/-- One pass of the `while changed` loop over the nodes after the entry. -/
def dominatorPass (cfg : CFG α) (rpo : List Nat) (entry : Nat) (doms : List (Option Nat)) :
    Except Fault (List (Option Nat) × Bool) :=
  (rpo.drop 1).foldlM (fun (doms, changed) b => do
    let idom ← cfg.newIdom doms rpo entry b
    if domParent doms b ≠ some idom then return (doms.set b (some idom), true)
    else return (doms, changed)) (doms, false)

/-- The `while changed` loop; the fuel is the guard of the source. -/
def dominatorLoop (cfg : CFG α) (rpo : List Nat) (entry : Nat) :
    Nat → List (Option Nat) → Except Fault (List (Option Nat))
  | 0, _ => .error (.panic "Cooper-Harvey-Kennedy dominator computation did not converge")
  | fuel + 1, doms => do
    let (doms, changed) ← cfg.dominatorPass rpo entry doms
    if changed then dominatorLoop cfg rpo entry fuel doms else return doms

/-- `compute_dominators`, on a graph that has a block. -/
def computeDominators (cfg : CFG α) : Except Fault (List (Option Nat)) :=
  let rpo := cfg.reversePostOrder
  let entry := rpo.headD 0
  cfg.dominatorLoop rpo entry 1000 ((List.replicate cfg.len none).set entry (some entry))

/-- `dom_path_reaches`: climbing from `finger` passes `target`. -/
def domPathReaches (doms : List (Option Nat)) : Nat → Nat → Nat → Bool
  | 0, _, _ => false
  | fuel + 1, finger, target =>
    if finger = target then true
    else
      match domParent doms finger with
      | some p => if p ≠ finger then domPathReaches doms fuel p target else false
      | none => false

/-- `detect_back_edges`. -/
def detectBackEdges (cfg : CFG α) (doms : List (Option Nat)) : Bool :=
  cfg.edges.any fun edge =>
    decide (edge.1 < cfg.len) && decide (edge.2 < cfg.len) && (domParent doms edge.2).isSome &&
      domPathReaches doms (cfg.len + 1) edge.1 edge.2

/-- `CFG::has_loop`. -/
def hasLoop (cfg : CFG α) : Except Fault Bool :=
  if cfg.len = 0 then return false
  else do
    let doms ← cfg.computeDominators
    return cfg.detectBackEdges doms

section Congr

variable {β : Type} {cfg : CFG α} {cfg' : CFG β}

theorem rpoDfs_congr (len : cfg'.len = cfg.len) (edges : cfg'.edges = cfg.edges) :
    ∀ fuel, cfg'.rpoDfs fuel = cfg.rpoDfs fuel := by
  intro fuel
  induction fuel with
  | zero => rfl
  | succ fuel ih =>
    funext state node
    obtain ⟨visited, order⟩ := state
    simp only [rpoDfs, ih, len, successors, edges]

theorem reversePostOrder_congr (len : cfg'.len = cfg.len) (edges : cfg'.edges = cfg.edges) :
    cfg'.reversePostOrder = cfg.reversePostOrder := by
  rw [reversePostOrder, reversePostOrder, rpoDfs_congr len edges, len]

/-- Dominators are found by the edges alone. -/
theorem computeDominators_congr (len : cfg'.len = cfg.len) (edges : cfg'.edges = cfg.edges) :
    cfg'.computeDominators = cfg.computeDominators := by
  have idom : cfg'.newIdom = cfg.newIdom := by
    funext doms rpo entry b
    simp only [newIdom, predecessors, edges, len]
  have pass : cfg'.dominatorPass = cfg.dominatorPass := by
    funext rpo entry doms
    rw [dominatorPass, dominatorPass, idom]
  have loop : ∀ rpo entry fuel, cfg'.dominatorLoop rpo entry fuel =
      cfg.dominatorLoop rpo entry fuel := by
    intro rpo entry fuel
    induction fuel with
    | zero => rfl
    | succ fuel ih =>
      funext doms
      simp only [dominatorLoop, pass, ih]
  simp only [computeDominators, reversePostOrder_congr len edges, loop, len]

theorem detectBackEdges_congr (len : cfg'.len = cfg.len) (edges : cfg'.edges = cfg.edges) :
    cfg'.detectBackEdges = cfg.detectBackEdges := by
  funext doms
  simp only [detectBackEdges, edges, len]

/-- Loops are found by the edges alone. -/
theorem hasLoop_congr (len : cfg'.len = cfg.len) (edges : cfg'.edges = cfg.edges) :
    cfg'.hasLoop = cfg.hasLoop := by
  rw [hasLoop, hasLoop, computeDominators_congr len edges, detectBackEdges_congr len edges, len]

end Congr

end CFG

end CoralReef
