import CoralReef.Codegen.Nv.PtxEmit.Warp

/-!
# The scan over a warp

The code that `emit_warp_scan` adds, and what it leaves in the lanes: the doubling steps of a prefix
fold.
-/

namespace CoralReef.Ptx

open List CoralReef.Straight PrefixFold WarpInstr
open NagaTranslate (Scalar)

/-! ## The code -/

/-- The instructions of a step. -/
def scanStepCode (op : WarpOp) (type : PtxType) (d tmp pred : Reg) (offset : Nat) :
    List WarpInstr :=
  [.shfl .up tmp (some pred) d (.imm offset) 0 0xFFFFFFFF, .guarded pred op type d d tmp]

def inclusiveCode (op : WarpOp) (type : PtxType) (v d tmp pred : Reg) : List WarpInstr :=
  .mov type d v :: [1, 2, 4, 8, 16].flatMap (scanStepCode op type d tmp pred)

/-- What an exclusive scan adds: the values move up a lane. -/
def exclusiveCode (type : PtxType) (identity : Nat) (d tmp pred : Reg) : List WarpInstr :=
  [.shfl .up tmp (some pred) d (.imm 1) 0 0xFFFFFFFF, .selp type d tmp identity pred]

def scanCode (op : WarpOp) (type : PtxType) (exclusive : Bool) (identity : Nat)
    (v d tmp pred : Reg) : List WarpInstr :=
  inclusiveCode op type v d tmp pred ++
    if exclusive then exclusiveCode type identity d tmp pred else []

section

variable {s : PtxEmitter WarpInstr} {val : PtxVal} {v : Reg} {scalar : Scalar}

theorem emitScanSteps_eq (d tmp pred : Reg) (op : WarpOp) (type : PtxType) (offsets : List Nat)
    (s : PtxEmitter WarpInstr) :
    offsets.forM (emitScanStep d tmp pred op type) s = .ok ((), { s with
      body := s.body ++ offsets.flatMap (scanStepCode op type d tmp pred) }) := by
  induction offsets generalizing s with
  | nil =>
    rw [flatMap_nil, append_nil]
    rfl
  | cons offset offsets ih =>
    have first : emitScanStep d tmp pred op type offset s =
        .ok ((), { s with body := s.body ++ scanStepCode op type d tmp pred offset }) := by
      unfold scanStepCode
      rw [← singleton_append, ← append_assoc]
      rfl
    show (emitScanStep d tmp pred op type offset >>= fun _ =>
      offsets.forM (emitScanStep d tmp pred op type)) s = _
    rw [run_bind first, ih, flatMap_cons, append_assoc]

theorem emitWarpScan_eq (isReg : val.fmtOperand = .ok v) (narrow : scalar.width ≠ 8) (id : Nat)
    (type : PtxType) (op : WarpOp) (exclusive : Bool) (sgOp : SubgroupOperation) :
    emitWarpScan val (.r32 id) type op exclusive sgOp scalar s = .ok ((), { s with
      r32Next := s.r32Next + 1, predNext := s.predNext + 1
      body := s.body ++ scanCode op type exclusive (scanIdentity sgOp scalar) v (.r id)
        (.r s.r32Next) (.p s.predNext) }) := by
  have operandVal : ∀ t : PtxEmitter WarpInstr, operand val t = .ok (v, t) := by
    intro t
    unfold operand
    rw [isReg]
    rfl
  unfold emitWarpScan allocForScalar
  rw [if_neg narrow]
  refine (run_bind rfl).trans ((run_bind rfl).trans ((run_bind rfl).trans ((run_bind rfl).trans
    ((run_bind rfl).trans ((run_bind (operandVal _)).trans ((run_bind rfl).trans
      ((run_bind (emitScanSteps_eq _ _ _ _ _ _ _)).trans ?_)))))))
  have added : ∀ rest : List WarpInstr,
      s.body ++ [.mov type (.r id) v] ++ [1, 2, 4, 8, 16].flatMap
        (scanStepCode op type (.r id) (.r s.r32Next) (.p s.predNext)) ++ rest =
      s.body ++ (inclusiveCode op type v (.r id) (.r s.r32Next) (.p s.predNext) ++ rest) := by
    intro rest
    unfold inclusiveCode
    rw [append_assoc, append_assoc]
    rfl
  have returned : ∀ {body body' : List WarpInstr}, body = body' →
      (Except.ok ((), { s with
        r32Next := s.r32Next + 1, predNext := s.predNext + 1, body := body }) :
          Except Fault (Unit × PtxEmitter WarpInstr)) = .ok ((), { s with
          r32Next := s.r32Next + 1, predNext := s.predNext + 1, body := body' }) :=
    fun same => by rw [same]
  cases exclusive with
  | false => exact returned ((append_nil _).symm.trans (added []))
  | true => exact returned ((append_assoc _ [_] [_]).trans (added (exclusiveCode type
      (scanIdentity sgOp scalar) (.r id) (.r s.r32Next) (.p s.predNext))))

end

/-! ## What it leaves in the lanes -/

/-- Shuffling up by `k` reads the lane `k` before, where there is one. -/
theorem shflSource_up : ∀ (k : Fin 32) (lane : Lane),
    (shflSource .up (BitVec.ofNat 5 k.1) 0 lane).2 = decide (k.1 ≤ lane.1) ∧
      (shflSource .up (BitVec.ofNat 5 k.1) 0 lane).1.1 =
        if k.1 ≤ lane.1 then lane.1 - k.1 else lane.1 := by
  decide

theorem shflSource_up_eq {k : Nat} (small : k < 32) {lane : Lane} (inside : k ≤ lane.1) :
    shflSource .up (BitVec.ofNat 5 k) 0 lane = (⟨lane.1 - k, by omega⟩, true) := by
  rcases shflSource_up ⟨k, small⟩ lane with ⟨inRange, source⟩
  rw [if_pos inside] at source
  exact Prod.ext (Fin.ext source) (inRange.trans (decide_eq_true inside))

theorem shflSource_up_out {k : Nat} (small : k < 32) {lane : Lane} (out : ¬ k ≤ lane.1) :
    shflSource .up (BitVec.ofNat 5 k) 0 lane = (lane, false) := by
  rcases shflSource_up ⟨k, small⟩ lane with ⟨inRange, source⟩
  rw [if_neg out] at source
  exact Prod.ext (Fin.ext source) (inRange.trans (decide_eq_false out))

theorem before_lt (lane : Lane) : lane.1 - 1 < 32 := by omega

section run

variable (floats : FloatOps) {op : WarpOp} {type : PtxType} (narrow : type.is64 = false)
  {d tmp pred : Reg} (notTmp : d ≠ tmp) (notPred : d ≠ pred) (apart : tmp ≠ pred)
  {env : Reg → Lane → Cell} {x : Lane → BitVec 32} (held : ∀ lane, env d lane = .b32 (x lane))

include narrow notTmp notPred apart held

/-- The code of a step is a step of the fold. -/
theorem run_scanStepCode {k : Nat} (small : k < 32) (lane : Lane) :
    (warp floats).run (scanStepCode op type d tmp pred k) env d lane =
      .b32 (scanStep (op.eval floats type.kind) x k lane) := by
  have shuffled : (warp floats).run (scanStepCode op type d tmp pred k) env d lane =
      if (shflSource .up (BitVec.ofNat 5 k) 0 lane).2 then
        arith floats op type (env d lane) (env d (shflSource .up (BitVec.ofNat 5 k) 0 lane).1)
      else env d lane := by
    have ofPred : ∀ b : Bool, (Cell.pred b).asPred = b := fun _ => rfl
    simp only [scanStepCode, Machine.run_cons, Machine.run_nil, warp, exec, bval,
      Function.update_self, Function.update_of_ne notTmp, Function.update_of_ne notPred,
      Function.update_of_ne apart, ofPred]
  rw [shuffled]
  unfold scanStep
  by_cases inside : k ≤ lane.1
  · rw [if_pos inside, shflSource_up_eq small inside, if_pos rfl, held, held]
    unfold arith
    rw [if_neg (by rw [narrow]; exact Bool.false_ne_true)]
    rfl
  · rw [if_neg inside, shflSource_up_out small inside, if_neg Bool.false_ne_true, held]

/-- The codes of steps are the steps, one after the other. -/
theorem run_scanSteps {offsets : List Nat} (small : ∀ k ∈ offsets, k < 32) (lane : Lane) :
    (warp floats).run (offsets.flatMap (scanStepCode op type d tmp pred)) env d lane =
      .b32 (offsets.foldl (scanStep (op.eval floats type.kind)) x lane) := by
  induction offsets generalizing env x with
  | nil => exact held lane
  | cons k offsets ih =>
    rw [flatMap_cons, Machine.run_append, foldl_cons]
    refine ih (fun lane => ?_) fun j member => small j (mem_cons_of_mem k member)
    exact run_scanStepCode floats narrow notTmp notPred apart held (small k mem_cons_self) lane

omit notTmp notPred in
/-- After a scan the values move up a lane, and the first lane has the constant. -/
theorem run_exclusiveCode {identity : Nat} (lane : Lane) :
    (warp floats).run (exclusiveCode type identity d tmp pred) env d lane =
      .b32 (if _ : 1 ≤ lane.1 then x ⟨lane.1 - 1, before_lt lane⟩ else BitVec.ofNat 32 identity) := by
  have selected : (warp floats).run (exclusiveCode type identity d tmp pred) env d lane =
      if (shflSource .up (BitVec.ofNat 5 1) 0 lane).2 then
        env d (shflSource .up (BitVec.ofNat 5 1) 0 lane).1
      else if type.is64 then .b64 (BitVec.ofNat 64 identity)
      else .b32 (BitVec.ofNat 32 identity) := by
    have ofPred : ∀ b : Bool, (Cell.pred b).asPred = b := fun _ => rfl
    simp only [exclusiveCode, Machine.run_cons, Machine.run_nil, warp, exec, bval,
      Function.update_self, Function.update_of_ne apart, ofPred]
  rw [selected]
  by_cases inside : 1 ≤ lane.1
  · rw [dif_pos inside, shflSource_up_eq (by decide) inside, if_pos rfl, held]
  · rw [dif_neg inside, shflSource_up_out (by decide) inside, if_neg Bool.false_ne_true,
      if_neg (by rw [narrow]; exact Bool.false_ne_true)]

end run

/-- What the steps make of the values of the lanes. -/
def scanned (floats : FloatOps) (op : WarpOp) (type : PtxType) (x : Lane → BitVec 32) :
    Lane → BitVec 32 :=
  [1, 2, 4, 8, 16].foldl (scanStep (op.eval floats type.kind)) x

/-- What a scan leaves. -/
def scanResult (floats : FloatOps) (op : WarpOp) (type : PtxType) (exclusive : Bool)
    (identity : Nat) (x : Lane → BitVec 32) (lane : Lane) : BitVec 32 :=
  if exclusive then
    if h : 1 ≤ lane.1 then scanned floats op type x ⟨lane.1 - 1, by omega⟩
    else BitVec.ofNat 32 identity
  else scanned floats op type x lane

theorem scanned_combines (floats : FloatOps) (op : WarpOp) (type : PtxType)
    (x : Lane → BitVec 32) (lane : Lane) :
    Combines (op.eval floats type.kind) (((List.finRange 32).filter (· ≤ lane)).map x)
      (scanned floats op type x lane) := by
  have combines := scan_combines (op.eval floats type.kind) x 5 lane
  rw [window_all (show lane.1 < 2 ^ 5 from lane.isLt)] at combines
  exact combines

theorem run_scanCode (floats : FloatOps) {op : WarpOp} {type : PtxType}
    (narrow : type.is64 = false) {v d tmp pred : Reg} (notTmp : d ≠ tmp) (notPred : d ≠ pred)
    (apart : tmp ≠ pred) {env : Reg → Lane → Cell} {x : Lane → BitVec 32}
    (held : ∀ lane, env v lane = .b32 (x lane)) (exclusive : Bool) (identity : Nat) (lane : Lane) :
    (warp floats).run (scanCode op type exclusive identity v d tmp pred) env d lane =
      .b32 (scanResult floats op type exclusive identity x lane) := by
  have inclusive : ∀ lane, (warp floats).run (inclusiveCode op type v d tmp pred) env d lane =
      .b32 (scanned floats op type x lane) := by
    intro lane
    unfold inclusiveCode
    rw [Machine.run_cons]
    refine run_scanSteps floats narrow notTmp notPred apart (fun lane => ?_) (by decide) lane
    rw [← held lane]
    exact congrFun (Function.update_self d (env v) env) lane
  unfold scanCode scanResult
  rw [Machine.run_append]
  cases exclusive with
  | false => exact inclusive lane
  | true => exact run_exclusiveCode floats narrow apart inclusive lane

/-- A scan writes the registers allocated for it. -/
theorem scanCode_writes {op : WarpOp} {type : PtxType} {exclusive : Bool} {identity : Nat}
    {v d tmp pred : Reg} {instr : WarpInstr}
    (member : instr ∈ scanCode op type exclusive identity v d tmp pred) :
    ∀ r ∈ instr.writes, r = d ∨ r = tmp ∨ r = pred := by
  intro r written
  have pair : ∀ {a b : Reg}, r ∈ [a, b] → r = a ∨ r = b := fun both => by simpa using both
  unfold scanCode inclusiveCode at member
  rcases mem_append.mp member with inInclusive | inExclusive
  · rcases mem_cons.mp inInclusive with isMov | inSteps
    · subst isMov
      exact .inl (mem_singleton.mp written)
    · rcases mem_flatMap.mp inSteps with ⟨k, _, inStep⟩
      rcases mem_cons.mp inStep with isShfl | isGuarded
      · subst isShfl
        exact .inr (pair written)
      · rcases mem_singleton.mp isGuarded
        exact .inl (mem_singleton.mp written)
  · cases exclusive with
    | false => cases inExclusive
    | true =>
      rcases mem_cons.mp inExclusive with isShfl | isSelp
      · subst isShfl
        exact .inr (pair written)
      · rcases mem_singleton.mp isSelp
        exact .inl (mem_singleton.mp written)

end CoralReef.Ptx
