import CoralReef.Codegen.Builder
import CoralReef.Misc.StraightCode

/-!
# What the builder emits

A helper of the builder allocates registers and adds instructions that write them. What was computed
before stays as it is.
-/

open List
open Function (update update_of_ne update_self)

namespace CoralReef

theorem Value.eq_word {v : Option Value} {w : BitVec 32} (isWord : Value.word? v = some w) :
    v = some (.word w) := by
  rcases v with _ | v
  · cases isWord
  cases v <;> cases isWord
  rfl

/-- An operand reads its registers only. -/
theorem Env.srcValue_congr {env env' : Env} {src : Src} (same : ∀ x ∈ src.iterSsa, env' x = env x) :
    env'.srcValue src = env.srcValue src := by
  obtain ⟨reference, modifier, swizzle⟩ := src
  unfold Env.srcValue
  split <;> try rfl
  next y isRef =>
    simp only at isRef
    subst isRef
    exact same y (mem_singleton.mpr rfl)

theorem Env.getU32Src_congr {env env' : Env} {src : Src} (same : ∀ x ∈ src.iterSsa, env' x = env x) :
    env'.getU32Src src = env.getU32Src src := congrArg Value.word? (Env.srcValue_congr same)

theorem Env.getU32BnotSrc_congr {env env' : Env} {src : Src}
    (same : ∀ x ∈ src.iterSsa, env' x = env x) :
    env'.getU32BnotSrc src = env.getU32BnotSrc src := by
  unfold Env.getU32BnotSrc
  rw [Env.getU32Src_congr same]

theorem Env.getPredSrc_congr {env env' : Env} {src : Src}
    (same : ∀ x ∈ src.iterSsa, env' x = env x) : env'.getPredSrc src = env.getPredSrc src := by
  unfold Env.getPredSrc
  rw [Env.srcValue_congr same]

namespace BuilderOp

/-- The registers that an op writes. -/
def writes : BuilderOp → List SSAValue
  | .value op => op.dst.iterSsa
  | op => (op.results fun _ => none).flatMap fun entry => entry.1.iterSsa

theorem assign_frame {V : Type} {writes : List (SSAValue × V)} {vals : SSAValue → V} {x : SSAValue}
    (other : ∀ write ∈ writes, write.1 ≠ x) : assign vals writes x = vals x := by
  induction writes generalizing vals with
  | nil => rfl
  | cons write writes ih =>
    show assign (update vals write.1 write.2) writes x = _
    rw [ih fun w member => other w (mem_cons_of_mem write member)]
    exact update_of_ne (Ne.symm (other write mem_cons_self)) _ _

/-- An op keeps what it does not write. -/
theorem exec_frame (sm : Nat) (op : BuilderOp) (env : Env) (x : SSAValue) (kept : x ∉ op.writes) :
    exec sm env op x = env x := by
  have dsts : ∀ env', (op.results env').map Prod.fst = (op.results fun _ => none).map Prod.fst := by
    intro env'
    cases op <;> simp [results]
  have written : ∀ results : List (Dst × Option Value),
      results.map Prod.fst = (op.results fun _ => none).map Prod.fst →
      x ∉ ((op.results fun _ => none).flatMap fun entry => entry.1.iterSsa) →
      assign env (results.flatMap fun entry => entry.1.iterSsa.map (·, entry.2)) x = env x := by
    intro results same unwritten
    refine assign_frame ?_
    rintro ⟨y, v⟩ member rfl
    obtain ⟨⟨dst, v'⟩, inResults, named⟩ := mem_flatMap.mp member
    obtain ⟨y', isName, pair⟩ := mem_map.mp named
    cases pair
    refine unwritten (mem_flatMap.mpr ?_)
    have inDsts : dst ∈ (op.results fun _ => none).map Prod.fst :=
      same ▸ mem_map_of_mem inResults
    obtain ⟨entry, inOp, rfl⟩ := mem_map.mp inDsts
    exact ⟨entry, inOp, isName⟩
  cases op with
  | value op =>
    show op.exec noFold sm env x = env x
    refine assign_frame ?_
    rintro ⟨y, v⟩ member rfl
    obtain ⟨⟨y', i⟩, isName, pair⟩ := mem_map.mp member
    cases pair
    exact kept (fst_mem_of_mem_zipIdx isName)
  | _ => exact written _ (dsts env) kept

theorem run_two (sm : Nat) (env : Env) (op op' : BuilderOp) :
    run sm env [op, op'] = exec sm (exec sm env op) op' := rfl

end BuilderOp

namespace Builder

variable {src : Src} {b : Builder} {start : Env} {file : RegFile}

/-- The instructions of a builder for a chip. -/
def machine (sm : Nat) : Straight.Machine BuilderOp SSAValue (Option Value) where
  writes := BuilderOp.writes
  exec := fun op env => BuilderOp.exec sm env op
  frame := fun op env x kept => BuilderOp.exec_frame sm op env x kept

/-- The states of the builder. -/
def emitter : Straight.Emitter Builder BuilderOp SSAValue where
  code := Builder.instrs
  allocated := fun b x => x.idx ≤ b.ssaAlloc.count

/-- What the registers hold after the instructions so far. -/
def env (b : Builder) (start : Env) : Env := BuilderOp.run b.sm start b.instrs

/-- A helper returns, with code added that establishes `post` and keeps the registers allocated
before. -/
def Emits {α : Type} (p : BuilderM α) (b : Builder) (post : α → Builder → Prop) : Prop :=
  Straight.Emits (machine b.sm) emitter p b fun a b' => b'.sm = b.sm ∧ post a b'

/-- The builder after `n` allocations and some instructions. -/
def emit (b : Builder) (n : Nat) (ops : List BuilderOp) : Builder :=
  { b with ssaAlloc := ⟨b.ssaAlloc.count + n⟩, instrs := b.instrs ++ ops }

/-- The register allocated after `i` others. -/
def fresh (b : Builder) (file : RegFile) (i : Nat) : SSAValue := ⟨file, b.ssaAlloc.count + i + 1⟩

/-- An operand of registers that are allocated. -/
def Known (b : Builder) (src : Src) : Prop := ∀ x ∈ src.iterSsa, x.idx ≤ b.ssaAlloc.count

theorem pairOf_ran {pair : SSAValue × SSAValue} {rest : List SSAValue} {text : String}
    (isSsa : src.asSsa = some (pair.1 :: pair.2 :: rest)) : pairOf src text = pure pair := by
  unfold pairOf
  rw [isSsa]

/-- A part that returns without an instruction. -/
theorem lift_bind {α β : Type} (a : α) (q : α → BuilderM β) :
    (StateT.lift (.ok a) >>= q : BuilderM β) = q a := rfl

/-- Two instructions are added one after the other. -/
theorem emit_two {α : Type} (a : α) (b : Builder) (n : Nat) (op op' : BuilderOp) :
    (Except.ok (a, { b with ssaAlloc := ⟨b.ssaAlloc.count + n⟩
                            instrs := b.instrs ++ [op] ++ [op'] }) : Except Fault (α × Builder)) =
      .ok (a, b.emit n [op, op']) := by
  rw [append_assoc]
  rfl

theorem emit_three {α : Type} (a : α) (b : Builder) (n : Nat) (op op' op'' : BuilderOp) :
    (Except.ok (a, { b with ssaAlloc := ⟨b.ssaAlloc.count + n⟩
                            instrs := b.instrs ++ [op] ++ [op'] ++ [op''] }) :
      Except Fault (α × Builder)) = .ok (a, b.emit n [op, op', op'']) := by
  rw [append_assoc, append_assoc]
  rfl

theorem env_emit (b : Builder) (n : Nat) (ops : List BuilderOp) (start : Env) :
    (b.emit n ops).env start = BuilderOp.run b.sm (b.env start) ops := foldl_append

/-- An operand of allocated registers that reads a word. -/
structure Reads (b : Builder) (start : Env) (src : Src) (v : BitVec 32) : Prop where
  known : b.Known src
  value : (b.env start).getU32Src src = some v

/-- An operand of allocated registers that reads a truth value. -/
structure ReadsPred (b : Builder) (start : Env) (src : Src) (v : Bool) : Prop where
  known : b.Known src
  value : (b.env start).getPredSrc src = some v

/-- Two registers that hold the halves of 64 bits. -/
structure Pair (env : Env) (pair : SSAValue × SSAValue) (v : BitVec 64) : Prop where
  low : env pair.1 = some (.word (v.setWidth 32))
  high : env pair.2 = some (.word ((v >>> 32).setWidth 32))

/-- An operand whose first two registers are allocated and hold the halves of 64 bits. -/
structure Reads64 (b : Builder) (start : Env) (pair : SSAValue × SSAValue) (src : Src)
    (v : BitVec 64) : Prop where
  isSsa : ∃ rest, src.asSsa = some (pair.1 :: pair.2 :: rest)
  low : b.Reads start (.ofSsa pair.1) (v.setWidth 32)
  high : b.Reads start (.ofSsa pair.2) ((v >>> 32).setWidth 32)

/-- The registers allocated before are as they were. -/
def Kept (b : Builder) (start : Env) (env : Env) : Prop :=
  ∀ x : SSAValue, x.idx ≤ b.ssaAlloc.count → env x = b.env start x

theorem Kept.refl (b : Builder) (start : Env) : Kept b start (b.env start) := fun _ _ => rfl

theorem Kept.update {start env : Env} (kept : Kept b start env) (file : RegFile) (i : Nat)
    (v : Option Value) : Kept b start (update env (b.fresh file i) v) := by
  intro x old
  rw [update_of_ne, kept x old]
  rintro rfl
  exact Nat.not_succ_le_self _ (Nat.le_trans (Nat.succ_le_succ (Nat.le_add_right _ i)) old)

theorem Reads.kept {start env : Env} {v : BitVec 32} (reads : b.Reads start src v)
    (kept : Kept b start env) : env.getU32Src src = some v :=
  (Env.getU32Src_congr fun x member => kept x (reads.known x member)).trans reads.value

theorem Reads.of_update {v : BitVec 32} (reads : b.Reads start src v) (file : RegFile) (i : Nat)
    (w : Option Value) :
    Env.getU32Src (update (b.env start) (b.fresh file i) w) src = some v :=
  reads.kept ((Kept.refl b start).update file i w)

/-- A register that was just written. -/
theorem getPredSrc_update_self (env : Env) (x : SSAValue) (v : Bool) :
    Env.getPredSrc (update env x (some (.pred v))) (.ofSsa x) = some v := by
  have written := update_self x (some (Value.pred v)) env
  exact (congrArg (fun w => (Value.pred? w).map (· != false)) written).trans
    (congrArg some (Bool.bne_false v))

/-- What agrees on the allocated registers reads an operand alike. -/
theorem Known.getU32BnotSrc (known : b.Known src) {env env' : Env}
    (old : ∀ x : SSAValue, x.idx ≤ b.ssaAlloc.count → env' x = env x) :
    env'.getU32BnotSrc src = env.getU32BnotSrc src :=
  Env.getU32BnotSrc_congr fun x member => old x (known x member)

theorem fresh_ne (b : Builder) (file file' : RegFile) {i j : Nat} (other : i ≠ j) :
    b.fresh file i ≠ b.fresh file' j := by
  intro same
  exact other (Nat.add_left_cancel (Nat.succ.inj (congrArg SSAValue.idx same)))

theorem fresh_new (b : Builder) (file : RegFile) (i : Nat) :
    b.ssaAlloc.count < (b.fresh file i).idx := Nat.lt_succ_of_le (Nat.le_add_right _ i)

/-- Ops with one destination write it, one after the other. -/
theorem run_value {sm : Nat} {op : ValueOp} {dst : SSAValue} (isDst : op.dst = .ofSsa dst)
    (env : Env) (ops : List BuilderOp) : BuilderOp.run sm env (.value op :: ops) =
      BuilderOp.run sm (update env dst (op.value noFold sm env dst 0)) ops :=
  congrArg (BuilderOp.run sm · ops) (ValueOp.exec_ofSsa noFold _ isDst env)

/-- An op whose result is known. -/
theorem run_result {sm : Nat} {op : ValueOp} {dst : SSAValue} {env : Env} {v : Value}
    (isDst : op.dst = .ofSsa dst) (result : op.value noFold sm env dst 0 = some v)
    (ops : List BuilderOp) : BuilderOp.run sm env (.value op :: ops) =
      BuilderOp.run sm (update env dst (some v)) ops := by
  rw [run_value isDst, result]

/-- Two ops that write the halves of 64 bits. -/
theorem Pair.of_two {op op' : ValueOp} {n : Nat} {v : BitVec 64}
    (isDst : op.dst = .ofSsa (b.fresh .gpr 0)) (isDst' : op'.dst = .ofSsa (b.fresh .gpr 1))
    (low : op.value noFold b.sm (b.env start) (b.fresh .gpr 0) 0 = some (.word (v.setWidth 32)))
    (high : ∀ w, op'.value noFold b.sm (update (b.env start) (b.fresh .gpr 0) w)
      (b.fresh .gpr 1) 0 = some (.word ((v >>> 32).setWidth 32))) :
    Pair ((b.emit n [.value op, .value op']).env start) (b.fresh .gpr 0, b.fresh .gpr 1) v := by
  rw [env_emit, run_value isDst, run_value isDst', low, high]
  constructor
  · refine (update_of_ne ?_ _ _).trans (update_self _ _ _)
    exact fresh_ne b .gpr .gpr Nat.zero_ne_one
  · exact update_self _ _ _

/-- A helper whose run is known. -/
theorem Emits.of_run {α : Type} {p : BuilderM α} {a : α} {n : Nat} {ops : List BuilderOp}
    {post : α → Builder → Prop} (ran : p b = .ok (a, b.emit n ops))
    (new : ∀ op ∈ ops, ∀ x ∈ op.writes, b.ssaAlloc.count < x.idx) (holds : post a (b.emit n ops)) :
    Emits p b post := by
  refine ⟨a, _, ran, Straight.Extends.of_code ops ?_ rfl ?_, rfl, holds⟩
  · intro x old
    exact Nat.le_trans old (Nat.le_add_right _ n)
  · intro op member x written old
    exact absurd old (Nat.not_le.mpr (new op member x written))

/-- What is known stays so, and reads the same. -/
theorem extends_known {b b' : Builder} (more : Straight.Extends (machine b.sm) emitter b b')
    (known : b.Known src) : b'.Known src := fun x member => more.allocated x (known x member)

theorem extends_reads {b b' : Builder} (sameSm : b'.sm = b.sm)
    (more : Straight.Extends (machine b.sm) emitter b b') {x : SSAValue}
    (known : x.idx ≤ b.ssaAlloc.count) (start : Env) : b'.env start x = b.env start x := by
  have kept := more.frame start x known
  rw [env, sameSm]
  exact kept

/-- The registers that are not written stay as they are. -/
theorem Reads.mono {b b' : Builder} {v : BitVec 32} (reads : b.Reads start src v)
    (sameSm : b'.sm = b.sm) (more : Straight.Extends (machine b.sm) emitter b b') :
    b'.Reads start src v where
  known := extends_known more reads.known
  value := (Env.getU32Src_congr fun x member =>
    extends_reads sameSm more (reads.known x member) start).trans reads.value

/-- What is written first is new. -/
theorem writes_fresh {op : BuilderOp} (writes : op.writes = [b.fresh file 0]) :
    ∀ op' ∈ [op], ∀ x ∈ op'.writes, b.ssaAlloc.count < x.idx := by
  intro op' member x written
  rw [mem_singleton.mp member, writes] at written
  rw [mem_singleton.mp written]
  exact fresh_new b file 0

/-- A helper that adds one op, which writes a new register. -/
theorem Emits.of_value {p : BuilderM SSAValue} {op : ValueOp} {v : Value}
    (ran : p b = .ok (b.fresh file 0, b.emit 1 [.value op]))
    (isDst : op.dst = .ofSsa (b.fresh file 0))
    (computes : op.value noFold b.sm (b.env start) (b.fresh file 0) 0 = some v) :
    Emits p b fun dst b' => b'.env start dst = some v := by
  refine Emits.of_run ran (writes_fresh (congrArg Dst.iterSsa isDst)) ?_
  rw [env_emit, run_result isDst computes]
  exact update_self _ _ _

/-- A register that holds a word is an operand that reads it. -/
theorem Reads.of_fresh {w : BitVec 32} {ops : List BuilderOp}
    (holds : (b.emit 1 ops).env start (b.fresh file 0) = some (.word w)) :
    (b.emit 1 ops).Reads start (.ofSsa (b.fresh file 0)) w where
  known := by
    intro x member
    rw [mem_singleton.mp member]
    exact Nat.le_refl _
  value := congrArg Value.word? holds

/-- A helper that adds one op, which writes a word to a new register. -/
theorem Emits.of_word {p : BuilderM SSAValue} {op : BuilderOp} {w : BitVec 32}
    (ran : p b = .ok (b.fresh file 0, b.emit 1 [op])) (writes : op.writes = [b.fresh file 0])
    (computes : op.exec b.sm (b.env start) (b.fresh file 0) = some (.word w)) :
    Emits p b fun dst b' => b'.Reads start (.ofSsa dst) w :=
  Emits.of_run ran (writes_fresh writes) (.of_fresh ((congrFun (env_emit b 1 [op] start) _).trans
    computes))

theorem Emits.bind {α β : Type} {p : BuilderM α} {q : α → BuilderM β} {mid : α → Builder → Prop}
    {post : β → Builder → Prop} (first : Emits p b mid)
    (second : ∀ a b', b'.sm = b.sm → Straight.Extends (machine b.sm) emitter b b' → mid a b' →
      Emits (q a) b' post) : Emits (p >>= q) b post := by
  refine Straight.Emits.bind first ?_
  rintro a b' more ⟨sameSm, holds⟩
  have later := second a b' sameSm more holds
  rw [Emits, sameSm] at later
  exact later

/-- The registers 1 and 2 as a pair. -/
def firstPair (modifier : SrcMod) : Src := { reference := .ssa [⟨.gpr, 1⟩, ⟨.gpr, 2⟩], modifier }

theorem firstPair_reads {sm : Nat} {v : BitVec 64} {start : Env}
    (low : start ⟨.gpr, 1⟩ = some (.word (v.setWidth 32)))
    (high : start ⟨.gpr, 2⟩ = some (.word ((v >>> 32).setWidth 32))) :
    Reads64 { sm, ssaAlloc := ⟨2⟩ } start (⟨.gpr, 1⟩, ⟨.gpr, 2⟩) (firstPair .none) v where
  isSsa := ⟨[], rfl⟩
  low := by
    refine ⟨fun x member => ?_, congrArg Value.word? low⟩
    rw [mem_singleton.mp member]
    exact Nat.le_succ 1
  high := by
    refine ⟨fun x member => ?_, congrArg Value.word? high⟩
    rw [mem_singleton.mp member]

end Builder

end CoralReef
