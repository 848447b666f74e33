import CoralReef.Codegen.Ir.Operands

/-!
# Executions of a function

What a function does along a path of its CFG. The ops are uninterpreted: an op computes its
results from its operands, its guard and from the effects so far. A guarded instruction defines its
destinations whatever the guard is, as it does for `SimpleLiveness`: what a name held before is not
among the operands. So whatever holds for every interpretation holds for the machine's on functions
that do not read a name whose guarded definition was off. A phi source is kept from the predecessor
to the phi destination; a name that nothing has defined holds `undef`.
-/

open List

namespace CoralReef

/-- What can be observed of an instruction: its values read, or the value of one phi source or of
one copy of a parallel copy. -/
inductive Event (V : Type) where
  | instr (skeleton : Instr) (reads : List V)
  | phi (phi : Phi) (read : V)
  | copy (pair : Dst × Src) (read : V)

/-- A meaning for the ops: `op` gives the value of each definition. -/
structure Interp (V : Type) where
  undef : V
  src : Src → List V → V
  op : List (Event V) → Instr → List V → Nat → V

structure Machine (V : Type) where
  vals : SSAValue → V
  phis : Phi → V
  /-- What the instructions that cannot be eliminated have read. -/
  effects : List (Event V) := []
  /-- What all instructions have read. -/
  trace : List (Event V) := []

variable {V : Type}

/-- Write values one after the other. -/
def assign (vals : SSAValue → V) (writes : List (SSAValue × V)) : SSAValue → V :=
  writes.foldl (fun vals write => Function.update vals write.1 write.2) vals

/-- An instruction that dead-code elimination must keep. -/
def Instr.isEffect (instr : Instr) : Bool := !instr.canEliminate && !instr.pred.isFalse

/-- An instruction that may stand before the phi destinations of a block, or is them. -/
def Instr.isHead (instr : Instr) : Bool :=
  match instr.op with
  | .annotate _ | .phiDsts _ => true
  | _ => false

/-- What dead-code elimination asserts of the instructions it is given: phis and parallel copies
have no guard and no destination is a register. Nor is a value defined under a guard that is always
false: it removes that instruction. -/
def Instr.isClean (instr : Instr) : Bool :=
  (match instr.op with
    | .phiSrcs _ | .phiDsts _ | .parCopy _ => instr.pred.isTrue
    | _ => !instr.pred.isFalse || instr.ssaDefs.isEmpty) &&
    instr.dsts.all fun dst => dst.asReg.isNone

namespace Interp

variable (interp : Interp V)

/-- The value of an operand, from the values of the names in it. -/
def readSrc (src : Src) (reads : List V) : V :=
  match src.asSsa, reads with
  | some _, [v] => v
  | _, _ => interp.src src reads

/-- The values of operands that share the values read. -/
def readSrcs : List Src → List V → List V
  | [], _ => []
  | src :: srcs, reads =>
    interp.readSrc src (reads.take src.iterSsa.length) ::
      readSrcs srcs (reads.drop src.iterSsa.length)

/-- The values an instruction gives its definitions, in order. Like everything an instruction
does, they depend on the instruction without its names and on the values read. -/
def results (machine : Machine V) (skeleton : Instr) (reads : List V) : List V :=
  match skeleton.op with
  | .undef dst => dst.iterSsa.map fun _ => interp.undef
  | .phiDsts dsts => dsts.flatMap fun entry => entry.2.iterSsa.map fun _ => machine.phis entry.1
  | .parCopy pcopy =>
    ((pcopy.dstsSrcs.map Prod.fst).zip (interp.readSrcs (pcopy.dstsSrcs.map Prod.snd)
      (reads.drop skeleton.pred.iterSsa.length))).flatMap fun entry =>
        entry.1.iterSsa.map fun _ => entry.2
  | _ => skeleton.ssaDefs.zipIdx.map fun entry =>
      interp.op machine.effects skeleton reads entry.2

/-- The phi sources an instruction reads. -/
def phiReads (skeleton : Instr) (reads : List V) : List (Phi × V) :=
  match skeleton.op with
  | .phiSrcs srcs => (srcs.map Prod.fst).zip
      (interp.readSrcs (srcs.map Prod.snd) (reads.drop skeleton.pred.iterSsa.length))
  | _ => []

def events (skeleton : Instr) (reads : List V) : List (Event V) :=
  match skeleton.op with
  | .undef _ | .phiDsts _ | .annotate _ => []
  | .phiSrcs _ => (interp.phiReads skeleton reads).map fun entry => .phi entry.1 entry.2
  | .parCopy pcopy => (pcopy.dstsSrcs.zip (interp.readSrcs (pcopy.dstsSrcs.map Prod.snd)
      (reads.drop skeleton.pred.iterSsa.length))).map fun entry => .copy entry.1 entry.2
  | _ => [.instr skeleton reads]

/-- The effect of one instruction. -/
def step (machine : Machine V) (instr : Instr) : Machine V :=
  let reads := instr.ssaUses.map machine.vals
  let events := interp.events instr.skeleton reads
  { vals := assign machine.vals (instr.ssaDefs.zip (interp.results machine instr.skeleton reads))
    phis := (interp.phiReads instr.skeleton reads).foldl
      (fun phis entry => Function.update phis entry.1 entry.2) machine.phis
    effects := if instr.skeleton.isEffect then machine.effects ++ events else machine.effects
    trace := machine.trace ++ events }

def run (instrs : List Instr) (machine : Machine V) : Machine V := instrs.foldl interp.step machine

/-- Run the blocks of a path. -/
def runPath (f : Function) (path : List Nat) (machine : Machine V) : Machine V :=
  path.foldl (fun machine b => interp.run (f.instrs b) machine) machine

@[simp] theorem run_nil (machine : Machine V) : interp.run [] machine = machine := rfl

@[simp] theorem run_cons (instr : Instr) (instrs : List Instr) (machine : Machine V) :
    interp.run (instr :: instrs) machine = interp.run instrs (interp.step machine instr) := rfl

theorem run_append (first second : List Instr) (machine : Machine V) :
    interp.run (first ++ second) machine = interp.run second (interp.run first machine) :=
  foldl_append

theorem runPath_snoc (f : Function) (path : List Nat) (b : Nat) (machine : Machine V) :
    interp.runPath f (path ++ [b]) machine =
      interp.run (f.instrs b) (interp.runPath f path machine) := by
  simp [runPath]

end Interp

variable {before : List Nat}

/-- The events without those of the phis that are not `known`. -/
def observe (known : Phi → Bool) (trace : List (Event V)) : List (Event V) :=
  trace.filter fun
    | .phi phi _ => known phi
    | .instr _ _ | .copy _ _ => true

/-- The blocks run before `b` on a path from block `root`. -/
inductive CFG.PathTo {α : Type} (cfg : CFG α) (root : Nat) : List Nat → Nat → Prop where
  | root : PathTo cfg root [] root
  | step {before : List Nat} {p b : Nat} (path : PathTo cfg root before p)
      (edge : (p, b) ∈ cfg.edges) : PathTo cfg root (before ++ [p]) b

/-- A block on a path is reached by what comes before it. -/
theorem CFG.PathTo.cut {α : Type} {cfg : CFG α} {root b : Nat} (path : cfg.PathTo root before b)
    {pre post : List Nat} {c : Nat} (split : before = pre ++ c :: post) :
    cfg.PathTo root pre c := by
  induction path generalizing post with
  | root => simp at split
  | @step before p b path edge ih =>
    rcases eq_nil_or_concat post with rfl | ⟨post', q, rfl⟩
    · obtain ⟨rfl, same⟩ := append_inj' split rfl
      rw [singleton_inj] at same
      rwa [← same]
    · rw [concat_eq_append, ← cons_append, ← append_assoc] at split
      exact ih (append_inj' split rfl).1

/-- Each block of a path is reached by what comes before it. -/
theorem CFG.PathTo.upTo {α : Type} {cfg : CFG α} {root b : Nat} (path : cfg.PathTo root before b)
    {pre post : List Nat} {c : Nat} (split : before ++ [b] = pre ++ c :: post) :
    cfg.PathTo root pre c := by
  rcases eq_nil_or_concat post with rfl | ⟨post', q, rfl⟩
  · obtain ⟨rfl, same⟩ := append_inj' split rfl
    rw [singleton_inj] at same
    rwa [← same]
  · rw [concat_eq_append, ← cons_append, ← append_assoc] at split
    exact path.cut (append_inj' split rfl).1

/-- A block that can be reached can be reached for the first time. -/
theorem CFG.PathTo.first {α : Type} {cfg : CFG α} {root b : Nat} (path : cfg.PathTo root before b) :
    ∃ before', cfg.PathTo root before' b ∧ b ∉ before' := by
  by_cases member : b ∈ before
  · obtain ⟨pre, post, split, fresh⟩ := eq_append_cons_of_mem member
    exact ⟨pre, path.cut split, fresh⟩
  · exact ⟨before, path, member⟩

/-- A path starts at its root. -/
theorem CFG.PathTo.head {α : Type} {cfg : CFG α} {root b : Nat} (path : cfg.PathTo root before b) :
    ∃ tail, before ++ [b] = root :: tail := by
  induction path with
  | root => exact ⟨[], rfl⟩
  | @step before p b _ _ ih =>
    obtain ⟨tail, split⟩ := ih
    exact ⟨tail ++ [b], by rw [split]; rfl⟩

/-- A path to a block other than its root passes the root. -/
theorem CFG.PathTo.root_mem {α : Type} {cfg : CFG α} {root b : Nat}
    (path : cfg.PathTo root before b) : b = root ∨ root ∈ before := by
  induction path with
  | root => exact .inl rfl
  | @step before p b path edge ih =>
    right
    rcases ih with rfl | passed
    · simp
    · exact mem_append_left _ passed

namespace Function

/-- The names a block defines, in order. -/
def defs (f : Function) (b : Nat) : List SSAValue := (f.instrs b).flatMap Instr.ssaDefs

/-- All the definitions of a function. -/
def allDefs (f : Function) : List SSAValue :=
  f.blocks.blocks.flatMap fun bb => bb.instrs.flatMap Instr.ssaDefs

/-- Each use is reached by a definition of its name on every path from the entry. -/
def ReachedByDef (f : Function) : Prop :=
  ∀ before b pre instr post, f.blocks.PathTo 0 before b → f.instrs b = pre ++ instr :: post →
    ∀ x ∈ instr.ssaUses, x ∈ before.flatMap f.defs ∨ x ∈ pre.flatMap Instr.ssaDefs

/-- No name has two definitions, and the definition of a name dominates its uses: it lies on every
path from the entry to them. Phi sources are used at the end of the predecessor. -/
structure StrictSsa (f : Function) : Prop where
  unique : f.allDefs.Nodup
  dominated : f.ReachedByDef

/-- The edges join blocks, and the allocators are past every number in use. -/
structure WellFormed (f : Function) : Prop where
  edges : f.blocks.EdgesIn
  ssas : ∀ b, ∀ instr ∈ f.instrs b, ∀ x ∈ instr.ssaUses ++ instr.ssaDefs, x.idx ≤ f.ssaAlloc.count
  srcPhis : ∀ b srcs, ∀ instr ∈ f.instrs b, instr.op = .phiSrcs srcs →
    ∀ entry ∈ srcs, entry.1.idx < f.phiAlloc.count
  dstPhis : ∀ b dsts, ∀ instr ∈ f.instrs b, instr.op = .phiDsts dsts →
    ∀ entry ∈ dsts, entry.1.idx < f.phiAlloc.count
  /-- Annotations and phi destinations carry no guard. -/
  unguarded : ∀ b, ∀ instr ∈ f.instrs b, instr.isHead → instr.pred.iterSsa = []

/-- The function is what dead-code elimination leaves. -/
def Clean (f : Function) : Prop := ∀ b, ∀ instr ∈ f.instrs b, instr.isClean = true

/-- Some use of `x` can be reached from the start of block `b` before any definition of it. -/
inductive LiveIn (f : Function) (x : SSAValue) : Nat → Prop where
  | use {b : Nat} {pre : List Instr} {instr : Instr} {post : List Instr}
      (split : f.instrs b = pre ++ instr :: post) (used : x ∈ instr.ssaUses)
      (undefined : x ∉ pre.flatMap Instr.ssaDefs) : LiveIn f x b
  | through {b s : Nat} (undefined : x ∉ f.defs b) (edge : (b, s) ∈ f.blocks.edges)
      (live : LiveIn f x s) : LiveIn f x b

theorem LiveIn.defined {f : Function} {x : SSAValue} {b : Nat} (live : f.LiveIn x b)
    (reached : f.ReachedByDef) {before : List Nat} (path : f.blocks.PathTo 0 before b) :
    x ∈ before.flatMap f.defs := by
  induction live generalizing before with
  | use split used undefined =>
    exact (reached before _ _ _ _ path split x used).resolve_right undefined
  | @through b s undefined edge _ ih =>
    have := ih (path.step edge)
    rw [flatMap_append, mem_append] at this
    rcases this with earlier | here
    · exact earlier
    · simp only [flatMap_cons, flatMap_nil, append_nil] at here
      exact absurd here undefined

/-- Where every use is reached by a definition, nothing is live into the entry. -/
theorem ReachedByDef.not_liveIn {f : Function} (reached : f.ReachedByDef) (x : SSAValue) :
    ¬ f.LiveIn x 0 := by
  intro live
  have := live.defined reached .root
  simp at this

end Function

end CoralReef
