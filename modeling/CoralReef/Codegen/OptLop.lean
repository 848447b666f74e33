import CoralReef.Codegen.Ir.AluPass

/-!
# Logic ops of logic ops

`codegen/opt_lop.rs`: the sources of a logic op of three inputs that are logic ops themselves are
replaced by the sources of those, and the tables are composed.
-/

namespace CoralReef

/-- The bit that every bit of a constant operand is, if they are alike. -/
def SrcRef.constBit : SrcRef → Option Bool
  | .zero | .boolFalse | .imm32 0 => some false
  | .boolTrue | .imm32 0xffffffff => some true
  | _ => none

/-- `src_as_bool`. -/
def srcAsBool (src : Src) : Except Fault (Option Bool) := do
  assertThat src.isUnmodified "src.is_unmodified()"
  return src.reference.constBit

structure LopEntry where
  op : LogicOp3
  srcsUsed : Fin 3 → Bool
  srcs : Fin 3 → Src

namespace LopEntry

/-- `entry.srcs_used.count_ones()`. -/
def numUsed (entry : LopEntry) : Nat := (List.finRange 3).countP entry.srcsUsed

end LopEntry

structure LopPass where
  useCounts : SSAValue → Option Nat
  ssaLop : SSAValue → Option LopEntry

/-- The values that `LopPass::new` counts, each as often as it is read. -/
def AluInstr.countedUses (instr : AluInstr) : List SSAValue :=
  instr.pred.iterSsa ++ instr.op.srcs.flatMap fun src => src.reference.asSsa.getD []

/-- The tables of a logic op, and the sources they share. -/
structure LopOps (n : Nat) where
  ops : Fin n → LogicOp3
  srcs : Fin 3 → Src

namespace LogicOp3

/-- The table that takes input `i` for input `j`. -/
def shareSrc (op : LogicOp3) (i j : Fin 3) : LogicOp3 :=
  newLut fun x y z =>
    let s := ![x, y, z]
    let s := Function.update s j (s i)
    op.eval (s 0) (s 1) (s 2)

/-- The inputs of an entry, where its sources have been put. -/
def entryInputs {α : Type} (zero : α) (entrySrcs : Fin 3 → Option (Fin 3)) (s : Fin 3 → α)
    (i : Fin 3) : α :=
  match entrySrcs i with
  | some j => s j
  | none => zero

/-- The table with another in place of input `srcIdx`. -/
def compose (op entryOp : LogicOp3) (entrySrcs : Fin 3 → Option (Fin 3)) (srcIdx : Fin 3) :
    LogicOp3 :=
  newLut fun x y z =>
    let s := ![x, y, z]
    let es := entryInputs 0 entrySrcs s
    let s := Function.update s srcIdx (entryOp.eval (es 0) (es 1) (es 2))
    op.eval (s 0) (s 1) (s 2)

end LogicOp3

/-- One round of the loops in `LopPass::dedup_srcs`. -/
def dedupSrc (srcs : Fin 3 → Src) (op : LogicOp3) (pair : Fin 3 × Fin 3) :
    Except Fault LogicOp3 :=
  if (srcs pair.1).reference = (srcs pair.2).reference then do
    assertThat (srcs pair.1).isUnmodified "srcs[i].is_unmodified()"
    assertThat (srcs pair.2).isUnmodified "srcs[j].is_unmodified()"
    return op.shareSrc pair.1 pair.2
  else .ok op

/-- `LopPass::dedup_srcs`. -/
def dedupSrcs (op : LogicOp3) (srcs : Fin 3 → Src) : Except Fault LogicOp3 :=
  [(0, 1), (0, 2), (1, 2)].foldlM (dedupSrc srcs) op

namespace LopOps

variable {n : Nat}

/-- The tables, where a source is known to be `b`. -/
def fixSrc (op : LopOps n) (i : Fin 3) : Option Bool → Fin n → LogicOp3
  | some b, k => (op.ops k).fixSrc i b
  | none, k => op.ops k

/-- A constant source is fixed in the tables, and a source that no table uses is replaced. -/
def foldSrc (filler : SrcRef) (op : LopOps n) (i : Fin 3) : Except Fault (LopOps n) := do
  let ops := op.fixSrc i (← srcAsBool (op.srcs i))
  if ∀ k, (ops k).srcUsed i = false then
    return { ops, srcs := Function.update op.srcs i { reference := filler } }
  else return { op with ops }

/-- A source that is inverted is inverted in the tables. -/
def invertSrc (op : LopOps n) (i : Fin 3) : LopOps n :=
  if (op.srcs i).modifier = .bNot then
    { ops := fun k => (op.ops k).invertSrc i
      srcs := Function.update op.srcs i { op.srcs i with modifier := .none } }
  else op

/-- The sources of an entry, put into their places. -/
def copySrcs (entry : LopEntry) (entrySrcs : Fin 3 → Option (Fin 3)) :
    List (Fin 3) → (Fin 3 → Src) → Fin 3 → Src
  | [], srcs => srcs
  | i :: rest, srcs => copySrcs entry entrySrcs rest (match entrySrcs i with
    | some j => Function.update srcs j (entry.srcs i)
    | none => srcs)

/-- An entry in place of source `srcIdx`, which is cleared. -/
def substitute (op : LopOps n) (entry : LopEntry) (srcIdx : Fin 3)
    (entrySrcs : Fin 3 → Option (Fin 3)) (cleared : SrcRef) : LopOps n where
  ops k := (op.ops k).compose entry.op entrySrcs srcIdx
  srcs := copySrcs entry entrySrcs (List.finRange 3)
    (Function.update op.srcs srcIdx { reference := cleared })

end LopOps

/-- The next of the places that hold a constant or the source that is replaced, and the places
after it. -/
def nextFree (srcs : Fin 3 → Src) (srcIdx : Fin 3) :
    List (Fin 3) → Except Fault (Option (Fin 3 × List (Fin 3)))
  | [] => .ok none
  | j :: rest =>
    if j = srcIdx then .ok (some (j, rest))
    else do
      match ← srcAsBool (srcs j) with
      | some _ => return some (j, rest)
      | none => nextFree srcs srcIdx rest

/-- The places for the sources that an entry uses: where the same source stands already, or a free
place. `free` is what is left from `next_src` on. -/
def placeSrcs (entry : LopEntry) (srcs : Fin 3 → Src) (srcIdx : Fin 3) :
    List (Fin 3) → List (Fin 3) → Except Fault (Option (Fin 3 → Option (Fin 3)))
  | [], _ => .ok (some fun _ => none)
  | i :: rest, free =>
    if entry.srcsUsed i = false then placeSrcs entry srcs srcIdx rest free
    else
      match (List.finRange 3).find? fun j => (entry.srcs i).reference = (srcs j).reference with
      | some j => do
        match ← placeSrcs entry srcs srcIdx rest free with
        | some entrySrcs => return some (Function.update entrySrcs i (some j))
        | none => return none
      | none => do
        match ← nextFree srcs srcIdx free with
        | none => return none
        | some (j, free) =>
          match ← placeSrcs entry srcs srcIdx rest free with
          | some entrySrcs => return some (Function.update entrySrcs i (some j))
          | none => return none

/-- What a propagated source is replaced by. -/
def clearedSrc : RegFile → Except Fault SrcRef
  | .gpr | .ugpr => .ok .zero
  | .pred | .upred => .ok .boolTrue
  | .carry | .bar | .mem => .error (.panic "Not a normal register")

namespace LopPass

/-- `LopPass::new`. -/
def new (f : AluFunction) : LopPass where
  useCounts x :=
    let count :=
      (f.blocks.blocks.flatMap fun bb => bb.instrs.flatMap AluInstr.countedUses).count x
    if count = 0 then none else some count
  ssaLop _ := none

/-- `LopPass::add_lop`. -/
def addLop (pass : LopPass) (ssa : SSAValue) (op : LogicOp3) (srcs : Fin 3 → Src) :
    Except Fault LopPass := do
  (List.finRange 3).forM fun i => do
    if op.srcUsed i then
      assertThat (← srcAsBool (srcs i)).isNone "src_as_bool(&srcs[i]).is_none()"
  let entry := { op, srcsUsed := op.srcUsed, srcs }
  return { pass with ssaLop := Function.update pass.ssaLop ssa (some entry) }

/-- The body of the loop in `LopPass::try_prop_to_src`. -/
def tryPropToSrc {n : Nat} (pass : LopPass) (srcIdx : Fin 3) (op : LopOps n) :
    Except Fault (Option (LopOps n)) := do
  assertThat (op.srcs srcIdx).isUnmodified "srcs[src_idx].is_unmodified()"
  match (op.srcs srcIdx).reference with
  | .ssa vec => do
    assertThat (vec.length = 1) "vec.comps() == 1"
    let ssa ← expect vec.head? "vec[0]"
    match pass.ssaLop ssa with
    | none => return none
    | some entry => do
      let entryUseCount ← expect (pass.useCounts ssa) "SSA value in ssa_lop must have use count"
      if 1 < entry.numUsed ∧ 1 < entryUseCount then return none
      else
        match ← placeSrcs entry op.srcs srcIdx (List.finRange 3) (List.finRange 3) with
        | none => return none
        | some entrySrcs => do
          let cleared ← clearedSrc ssa.file
          return some (op.substitute entry srcIdx entrySrcs cleared)
  | _ => return none

/-- The second half of `opt_lop3` and `opt_plop3`: constants are folded, and what the sources are
is propagated into them. -/
def propagate {n : Nat} (fuel : Nat) (pass : LopPass) (filler : SrcRef) (op : LopOps n) :
    Except Fault (LopOps n) := do
  let op ← (List.finRange 3).foldlM (LopOps.foldSrc filler) op
  (List.finRange 3).foldlM (fun op i => loopWhileSome (pass.tryPropToSrc i) fuel op) op

/-- The entry for a destination, when it is a name. -/
def addDst (pass : LopPass) (dst : Dst) (op : LogicOp3) (srcs : Fin 3 → Src) :
    Except Fault LopPass :=
  match dst with
  | .ssa vec => do
    assertThat (vec.length = 1) "ssa.comps() == 1"
    let ssa ← expect vec.head? "ssa[0]"
    pass.addLop ssa op srcs
  | _ => .ok pass

/-- `LopPass::opt_lop3`. -/
def optLop3 (fuel : Nat) (pass : LopPass) (op : OpLop3) : Except Fault (OpLop3 × LopPass) := do
  let lut ← dedupSrcs op.op op.srcs
  let out ← pass.propagate fuel .zero { ops := fun _ : Fin 1 => lut, srcs := op.srcs }
  let pass ← pass.addDst op.dst (out.ops 0) out.srcs
  return ({ op with op := out.ops 0, srcs := out.srcs }, pass)

/-- `LopPass::opt_plop3`. -/
def optPlop3 (fuel : Nat) (pass : LopPass) (op : OpPLop3) : Except Fault (OpPLop3 × LopPass) := do
  let plain := (List.finRange 3).foldl LopOps.invertSrc { ops := op.ops, srcs := op.srcs }
  let first ← dedupSrcs (plain.ops 0) plain.srcs
  let second ← dedupSrcs (plain.ops 1) plain.srcs
  let out ← pass.propagate fuel .boolTrue { plain with ops := ![first, second] }
  let pass ← pass.addDst (op.dsts 0) (out.ops 0) out.srcs
  let pass ← pass.addDst (op.dsts 1) (out.ops 1) out.srcs
  return ({ op with ops := out.ops, srcs := out.srcs }, pass)

/-- The body of the loop of `LopPass::run`. -/
def optInstr (fuel : Nat) (pass : LopPass) (instr : AluInstr) : Except Fault (AluInstr × LopPass) :=
  match instr.op with
  | .lop3 op => do
    let (op, pass) ← pass.optLop3 fuel op
    return ({ instr with op := .lop3 op }, pass)
  | .plop3 op => do
    let (op, pass) ← pass.optPlop3 fuel op
    return ({ instr with op := .plop3 op }, pass)
  | _ => .ok (instr, pass)

end LopPass

/-- `Shader::opt_lop`, of one function. -/
def AluFunction.optLop (fuel : Nat) (f : AluFunction) : Except Fault AluFunction :=
  f.mapInstrs (LopPass.optInstr fuel) (.new f)

end CoralReef
