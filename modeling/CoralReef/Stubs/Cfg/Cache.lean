import CoralReef.Stubs.Cfg

/-!
# The cached analysis of a graph

`coral-reef-stubs/src/cfg/ops.rs` and `cfg/dom.rs`: dominators, loops and the order of the
dominator tree are computed at the first query and kept. Of the operations that change the graph
`disconnect_block` alone drops what is kept.
-/

namespace CoralReef.CFG

variable {α : Type}

/-- `DomAnalysis`. -/
structure DomAnalysis where
  domParent : List (Option Nat) := []
  domDfsPre : List Nat := []
  loopDepth : List Nat := []
  hasLoop : Bool := false
  deriving DecidableEq, Repr

/-- The blocks found backwards from the stack. An inserted block pushes its predecessors, so a
stack that starts with one block empties within one step more than there are edges. -/
def loopBlocks (cfg : CFG α) : Nat → List Nat → List Nat → List Nat
  | 0, _, inLoop => inLoop
  | _, [], inLoop => inLoop
  | fuel + 1, node :: stack, inLoop =>
    if node ∈ inLoop then loopBlocks cfg fuel stack inLoop
    else loopBlocks cfg fuel ((cfg.predecessors node).reverse ++ stack) (node :: inLoop)

/-- One edge of `compute_loop_depth`: the first back edge of a header counts its loop. -/
def countLoop (cfg : CFG α) (doms : List (Option Nat)) (state : List Nat × List Nat)
    (edge : Nat × Nat) : List Nat × List Nat :=
  if edge.2 ≥ cfg.len ∨ edge.1 ≥ cfg.len ∨ edge.2 ∈ state.1 ∨
      domPathReaches doms (cfg.len + 1) edge.1 edge.2 = false then state
  else
    let inLoop := cfg.loopBlocks (cfg.edges.length + 2) [edge.1] [edge.2]
    (edge.2 :: state.1, state.2.mapIdx fun node depth =>
      if node ∈ inLoop then depth + 1 else depth)

/-- `compute_loop_depth`, with the keys of the map of successors in its order of iteration. -/
def computeLoopDepth (cfg : CFG α) (keys : List Nat) (doms : List (Option Nat)) (hasLoop : Bool) :
    List Nat :=
  if hasLoop then
    ((keys.flatMap fun source => (cfg.successors source).map fun target =>
      (source, target)).foldl (cfg.countLoop doms) ([], List.replicate cfg.len 0)).2
  else List.replicate cfg.len 0

/-- The loop of `compute_dom_dfs_pre`; a block is pushed by its parent alone. -/
def domDfsPreLoop (doms : List (Option Nat)) (n : Nat) :
    Nat → List Nat → List Nat × Nat → List Nat
  | 0, _, state => state.1
  | _, [], state => state.1
  | fuel + 1, node :: stack, (pre, counter) =>
    if node ≥ n then domDfsPreLoop doms n fuel stack (pre, counter)
    else
      let children := (List.range n).filter fun i => i ≠ node ∧ domParent doms i = some node
      domDfsPreLoop doms n fuel (children ++ stack) (pre.set node counter, counter + 1)

def computeDomDfsPre (doms : List (Option Nat)) (entry n : Nat) : List Nat :=
  domDfsPreLoop doms n (n + 1) [entry] (List.replicate n 0, 0)

/-- `compute_dom_analysis`. -/
def computeDomAnalysis (cfg : CFG α) (keys : List Nat) : Except Fault DomAnalysis :=
  let rpo := cfg.reversePostOrder
  if rpo.isEmpty then return {}
  else do
    let doms ← cfg.computeDominators
    let hasLoop := cfg.detectBackEdges doms
    return {
      domParent := doms
      hasLoop
      loopDepth := cfg.computeLoopDepth keys doms hasLoop
      domDfsPre := computeDomDfsPre doms (rpo.headD 0) cfg.len }

/-- The queries. `is_dominated_by` and `idom` are `dominates` and `dom_parent_index` by other
names. -/
inductive Query where
  | isLoopHeader (id : Nat)
  | loopHeaderIndex (id : Nat)
  | loopDepth (id : Nat)
  | domParentIndex (id : Nat)
  | dominates (a b : Nat)
  | domDfsPreIndex (id : Nat)
  | hasLoop
  | reversePostOrder
  deriving DecidableEq, Repr

/-- What a query returns; `never` when it does not return. -/
inductive Answer where
  | bool (answer : Bool)
  | number (answer : Nat)
  | node (answer : Option Nat)
  | nodes (answer : List Nat)
  | never
  deriving DecidableEq, Repr

namespace DomAnalysis

variable (analysis : DomAnalysis)

/-- `CFG::dominates`. -/
def dominates (a b : Nat) : Bool :=
  if a ≥ analysis.domParent.length ∨ b ≥ analysis.domParent.length then false
  else domPathReaches analysis.domParent (analysis.domParent.length + 1) b a

/-- A predecessor that the block dominates. -/
def hasBackEdge (cfg : CFG α) (id : Nat) : Bool :=
  (cfg.predecessors id).any fun p => analysis.dominates id p

/-- The loop of `loop_header_index`. The entry is its own parent, so a climb that does not end
within the number of blocks never does. -/
def climbToHeader (cfg : CFG α) : Nat → Nat → Answer
  | 0, _ => .never
  | fuel + 1, node =>
    match CFG.domParent analysis.domParent node with
    | some parent =>
      if analysis.hasBackEdge cfg parent then .node (some parent) else climbToHeader cfg fuel parent
    | none => .node none

/-- The answer to a query from an analysis and the graph as it is. -/
def answer (cfg : CFG α) : Query → Answer
  | .isLoopHeader id =>
    .bool (decide (analysis.loopDepth.getD id 0 > 0) && analysis.hasBackEdge cfg id)
  | .loopHeaderIndex id =>
    if analysis.loopDepth.getD id 0 = 0 then .node none
    else analysis.climbToHeader cfg (analysis.domParent.length + 1) id
  | .loopDepth id => .number (analysis.loopDepth.getD id 0)
  | .domParentIndex id => .node ((CFG.domParent analysis.domParent id).filter fun p => p ≠ id)
  | .dominates a b => .bool (analysis.dominates a b)
  | .domDfsPreIndex id => .number (analysis.domDfsPre.getD id id)
  | .hasLoop => .bool analysis.hasLoop
  | .reversePostOrder => .nodes cfg.reversePostOrder

end DomAnalysis

/-- A graph with the order in which its map of successors is iterated, and what is kept of its
analysis. -/
structure Cached (α : Type) where
  cfg : CFG α := {}
  keys : List Nat := []
  domAnalysis : Option DomAnalysis := none
  deriving DecidableEq, Repr

/-- The public operations that change a graph, and the queries. An operation on the maps comes with
the order in which the map of successors is iterated after it. -/
inductive Cached.Op (α : Type) where
  | push (block : α)
  | addEdge (source target : Nat) (keys : List Nat)
  | disconnectBlock (id : Nat) (keys : List Nat)
  | drain
  /-- `block_mut`, `iter_mut` and indexing. -/
  | setBlock (id : Nat) (block : α)
  /-- `blocks_mut`: the list of blocks becomes any other. -/
  | setBlocks (blocks : List α)
  | ask (query : Query)
  deriving DecidableEq, Repr

namespace Cached

/-- `ensure_dom_analysis`. -/
def ensureDomAnalysis (c : Cached α) : Except Fault DomAnalysis :=
  match c.domAnalysis with
  | some analysis => .ok analysis
  | none => c.cfg.computeDomAnalysis c.keys

/-- The answer that a query gives. -/
def ask (c : Cached α) (query : Query) : Except Fault Answer :=
  match query with
  | .reversePostOrder => .ok (.nodes c.cfg.reversePostOrder)
  | query => do return (← c.ensureDomAnalysis).answer c.cfg query

/-- The answer from an analysis made for the graph as it is. -/
def fresh (c : Cached α) (query : Query) : Except Fault Answer :=
  { c with domAnalysis := none }.ask query

/-- One operation. -/
def step (c : Cached α) : Op α → Except Fault (Cached α)
  | .push block => .ok { c with cfg := { c.cfg with blocks := c.cfg.blocks ++ [block] } }
  | .addEdge source target keys => .ok { c with cfg := c.cfg.addEdge source target, keys }
  | .disconnectBlock id keys =>
    .ok { cfg := c.cfg.disconnectBlock id, keys, domAnalysis := none }
  | .drain => .ok { c with cfg := { c.cfg with blocks := [] } }
  | .setBlock id block => .ok { c with cfg := { c.cfg with blocks := c.cfg.blocks.set id block } }
  | .setBlocks blocks => .ok { c with cfg := { c.cfg with blocks } }
  | .ask .reversePostOrder => .ok c
  | .ask _ => do return { c with domAnalysis := some (← c.ensureDomAnalysis) }

/-- The operation changes the number of blocks or the edges and leaves the analysis alone. -/
def Op.reshapes (c : Cached α) : Op α → Prop
  | .push _ | .addEdge _ _ _ => True
  | .drain => c.cfg.len ≠ 0
  | .setBlocks blocks => blocks.length ≠ c.cfg.len
  | .disconnectBlock _ _ | .setBlock _ _ | .ask _ => False

/-- What is reached by operations that reshape the graph only while no analysis is kept. -/
inductive Careful (start : Cached α) : Cached α → Prop where
  | start : Careful start start
  | step {c c' : Cached α} {o : Op α} (run : Careful start c) (made : c.step o = .ok c')
      (dropped : o.reshapes c → c.domAnalysis = none) : Careful start c'

/-- What is kept is what would be computed. -/
def Current (c : Cached α) : Prop :=
  ∀ analysis, c.domAnalysis = some analysis → c.cfg.computeDomAnalysis c.keys = .ok analysis

end Cached

section Congr

variable {β : Type} {cfg : CFG α} {cfg' : CFG β}

theorem loopBlocks_congr (edges : cfg'.edges = cfg.edges) :
    ∀ fuel stack inLoop, cfg'.loopBlocks fuel stack inLoop = cfg.loopBlocks fuel stack inLoop := by
  intro fuel
  induction fuel with
  | zero => exact fun _ _ => rfl
  | succ fuel ih =>
    intro stack inLoop
    cases stack with
    | nil => rfl
    | cons node stack => simp only [loopBlocks, ih, predecessors, edges]

/-- The analysis is made from the edges and the number of blocks alone. -/
theorem computeDomAnalysis_congr (len : cfg'.len = cfg.len) (edges : cfg'.edges = cfg.edges)
    (keys : List Nat) : cfg'.computeDomAnalysis keys = cfg.computeDomAnalysis keys := by
  have count : cfg'.countLoop = cfg.countLoop := by
    funext doms state edge
    simp only [countLoop, loopBlocks_congr edges, len, edges]
  have depth : cfg'.computeLoopDepth = cfg.computeLoopDepth := by
    funext keys doms hasLoop
    simp only [computeLoopDepth, count, len, successors, edges]
  simp only [computeDomAnalysis, reversePostOrder_congr len edges,
    computeDominators_congr len edges, detectBackEdges_congr len edges, depth, len]

end Congr

namespace Cached

/-- An operation that does not reshape the graph keeps what is kept current. -/
theorem Current.of_shape {c c' : Cached α} (current : c.Current) (len : c'.cfg.len = c.cfg.len)
    (edges : c'.cfg.edges = c.cfg.edges) (keys : c'.keys = c.keys)
    (kept : c'.domAnalysis = c.domAnalysis) : c'.Current := by
  intro analysis isKept
  rw [computeDomAnalysis_congr len edges, keys]
  exact current analysis (kept ▸ isKept)

theorem Current.of_none {c : Cached α} (nothing : c.domAnalysis = none) : c.Current := by
  intro analysis isKept
  rw [nothing] at isKept
  cases isKept

theorem Current.ensure {c : Cached α} (current : c.Current) :
    c.ensureDomAnalysis = c.cfg.computeDomAnalysis c.keys := by
  rw [ensureDomAnalysis]
  split
  next analysis isKept => exact (current analysis isKept).symm
  next => rfl

/-- One operation keeps what is kept current, if it reshapes the graph only while nothing is. -/
theorem Current.step {c c' : Cached α} (current : c.Current) {op : Op α}
    (made : c.step op = .ok c') (dropped : op.reshapes c → c.domAnalysis = none) : c'.Current := by
  cases op with
  | push block | addEdge source target keys =>
    cases made
    exact .of_none (dropped trivial)
  | disconnectBlock id keys =>
    cases made
    exact .of_none rfl
  | drain =>
    cases made
    by_cases empty : c.cfg.len = 0
    · exact current.of_shape empty.symm rfl rfl rfl
    · exact .of_none (dropped empty)
  | setBlock id block =>
    cases made
    exact current.of_shape List.length_set rfl rfl rfl
  | setBlocks blocks =>
    cases made
    by_cases same : blocks.length = c.cfg.len
    · exact current.of_shape same rfl rfl rfl
    · exact .of_none (dropped same)
  | ask query =>
    by_cases order : query = .reversePostOrder
    · subst order
      cases made
      exact current
    · have ensured : (do return { c with domAnalysis := some (← c.ensureDomAnalysis) }) =
          Except.ok c' := by
        cases query <;> first | exact made | exact absurd rfl order
      obtain ⟨analysis, found, same⟩ := bind_eq_ok.mp ensured
      cases same
      rw [current.ensure] at found
      intro kept isKept
      cases isKept
      exact found

theorem Current.ask {c : Cached α} (current : c.Current) (query : Query) :
    c.ask query = c.fresh query := by
  have same : c.ensureDomAnalysis = ({ c with domAnalysis := none } : Cached α).ensureDomAnalysis :=
    current.ensure
  cases query with
  | reversePostOrder => rfl
  | isLoopHeader | loopHeaderIndex | loopDepth | domParentIndex | dominates | domDfsPreIndex
  | hasLoop => simp only [fresh, Cached.ask, same]

/-- Every query is answered as if it were computed from scratch, in every run that pushes blocks,
adds edges and replaces the blocks only while no analysis is kept. -/
theorem Careful.ask_eq_fresh {start c : Cached α} (empty : start.domAnalysis = none)
    (run : Careful start c) (query : Query) : c.ask query = c.fresh query := by
  have current : c.Current := by
    induction run with
    | start => exact .of_none empty
    | step _ made dropped ih => exact ih.step made dropped
  exact current.ask query

def twoBlocks : Cached Unit := { cfg := { blocks := [(), ()], edges := [(0, 1)] }, keys := [0] }

/-- `twoBlocks` with its edge turned round. -/
def turned : Cached Unit := { cfg := { blocks := [(), ()], edges := [(1, 0)] }, keys := [1] }

/-- The edge is turned after a query, through `disconnect_block`. -/
theorem Careful.ask_eq_fresh_turned : turned.ask .hasLoop = turned.fresh .hasLoop := by
  let analysis : DomAnalysis :=
    { domParent := [some 0, some 0], domDfsPre := [0, 1], loopDepth := [0, 0] }
  have asked : Careful twoBlocks { twoBlocks with domAnalysis := some analysis } :=
    .step (o := .ask .hasLoop) .start rfl False.elim
  have cut : Careful twoBlocks { cfg := { blocks := [(), ()] } } :=
    .step (o := .disconnectBlock 0 []) asked rfl False.elim
  have joined : Careful twoBlocks turned :=
    .step (o := .addEdge 1 0 [1]) cut rfl fun _ => rfl
  exact Careful.ask_eq_fresh rfl joined .hasLoop

/-- An edge added after a query makes a loop that the next query does not find. -/
theorem addEdge_keeps_stale : ∃ asked added : Cached Unit,
    twoBlocks.step (.ask .hasLoop) = .ok asked ∧ asked.step (.addEdge 1 0 [0, 1]) = .ok added ∧
      added.ask .hasLoop = .ok (.bool false) ∧ added.fresh .hasLoop = .ok (.bool true) :=
  ⟨_, _, rfl, rfl, rfl, rfl⟩

end Cached

end CoralReef.CFG
