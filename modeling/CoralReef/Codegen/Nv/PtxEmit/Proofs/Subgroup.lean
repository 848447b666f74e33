import CoralReef.Codegen.Nv.PtxEmit.Proofs.WarpScan

/-!
# Subgroup operations over a full warp

Which collectives and gathers are emitted as code that PTX admits and that gives each lane what naga
says.
-/

open List

namespace CoralReef.Ptx

open CoralReef.Straight PrefixFold WarpInstr
open NagaTranslate (Scalar)

/-- The added code is admitted and keeps what was computed before, and its result is right. -/
structure Delivers (floats : FloatOps) (start : Reg → Lane → Cell) (s t : PtxEmitter WarpInstr)
    (result : PtxVal) (right : Lane → Cell → Prop) : Prop where
  legal : ∀ i ∈ t.body.drop s.body.length, i.legal
  keeps : Extends (warp floats) (emitter WarpInstr) s t
  result : ∃ y, HoldsVal (warp floats) start t result y ∧ ∀ lane, right lane (y lane)

/-- For all values in the lanes, what is emitted for a collective gives each lane its fold. -/
def CollectiveRight (floats : FloatOps) (collectiveOp : CollectiveOperation)
    (op : SubgroupOperation) (scalar : Scalar) : Prop :=
  ∀ (val : PtxVal) (v : Lane → BitVec (bits scalar)) (start : Reg → Lane → Cell)
    (s : PtxEmitter WarpInstr), InClass scalar val →
    HoldsVal (warp floats) start s val (fun lane => cellOf scalar (v lane)) →
    ∀ result t, emitSubgroupCollective op collectiveOp val scalar s = .ok (result, t) →
      Delivers floats start s t result fun lane cell =>
        IsFold floats op scalar ((collectiveOp.lanes lane).map v) (valueOf scalar cell)

/-- For all values and indices in the lanes, what is emitted for a gather gives each lane the value
of its source. -/
def GatherRight (floats : FloatOps) (mode : GatherMode Unit) (scalar : Scalar) : Prop :=
  ∀ (val index : PtxVal) (v : Lane → BitVec (bits scalar)) (i : Lane → BitVec 32)
    (start : Reg → Lane → Cell) (s : PtxEmitter WarpInstr), InClass scalar val →
    HoldsVal (warp floats) start s val (fun lane => cellOf scalar (v lane)) →
    InClass ⟨.uint, 4⟩ index → HoldsVal (warp floats) start s index (fun lane => .b32 (i lane)) →
    ∀ result t, emitSubgroupGather (mode.withIndex index) val scalar s = .ok (result, t) →
      Delivers floats start s t result fun lane cell =>
        ∀ source, (mode.withIndex i).source lane = some source → valueOf scalar cell = v source

section emitted

variable {floats : FloatOps} {start : Reg → Lane → Cell} {s t : PtxEmitter WarpInstr}

/-- Code into a new register delivers what it leaves there. -/
theorem delivers_iff {code : List WarpInstr} {id : Nat} {right : Lane → Cell → Prop}
    (added : t.body = s.body ++ code) (r32 : s.r32Next ≤ t.r32Next) (rd64 : s.rd64Next = t.rd64Next)
    (preds : s.predNext ≤ t.predNext) (isNew : id < t.r32Next)
    (fresh : ∀ i ∈ code, ∀ r ∈ i.writes, ¬ s.Allocated r) :
    Delivers floats start s t (.r32 id) right ↔ (∀ i ∈ code, i.legal) ∧
      ∀ lane, right lane ((warp floats).run code (s.env (warp floats) start) (.r id) lane) := by
  have dropped : t.body.drop s.body.length = code := by
    rw [added, drop_left]
  have ran : t.env (warp floats) start (.r id) =
      (warp floats).run code (s.env (warp floats) start) (.r id) := by
    show (warp floats).run t.body start _ = _
    rw [added, Machine.run_append]
    rfl
  have keeps : Extends (warp floats) (emitter WarpInstr) s t := by
    refine .of_code _ ?_ added fresh
    intro r old
    cases r with
    | r id => exact Nat.lt_of_lt_of_le old r32
    | rd id => exact Nat.lt_of_lt_of_le old (Nat.le_of_eq rd64)
    | p id => exact Nat.lt_of_lt_of_le old preds
  constructor
  · rintro ⟨legal, _, y, ⟨r, isReg, holds⟩, isRight⟩
    cases isReg
    rw [dropped] at legal
    have value : t.env (warp floats) start (.r id) = y := holds.value
    rw [← ran, value]
    exact ⟨legal, isRight⟩
  · rintro ⟨legal, isRight⟩
    exact ⟨dropped.symm ▸ legal, keeps, _, ⟨.r id, rfl, isNew, ran⟩, isRight⟩

variable {scalar : Scalar} {val : PtxVal}

/-- A value of at most 32 bits that is no predicate is in a register of 32 bits. -/
theorem exists_r32 (narrow : scalar.width ≠ 8) (notBool : scalar.kind ≠ .bool)
    (inClass : InClass scalar val) : ∃ id, val = .r32 id := by
  cases val with
  | r32 id => exact ⟨id, rfl⟩
  | rd64 id => exact absurd inClass narrow
  | pred id => exact absurd inClass notBool
  | vec vals => exact inClass.elim

theorem cellOf_narrow (narrow : scalar.width ≠ 8) (notBool : scalar.kind ≠ .bool)
    (v : BitVec (bits scalar)) : cellOf scalar v = .b32 (v.setWidth 32) := by
  unfold cellOf
  rw [if_neg notBool, if_neg narrow]

theorem emitCollective_scan {op : SubgroupOperation} {collectiveOp : CollectiveOperation}
    {o : WarpOp} {v : Reg} (narrow : scalar.width ≠ 8) (isReg : val.fmtOperand = .ok v)
    (isOp : scanOpStr op scalar = .ok o)
    (scans : collectiveOp ≠ .reduce ∨ reduceOp op = none) :
    emitSubgroupCollective op collectiveOp val scalar s = .ok (.r32 s.r32Next, { s with
      r32Next := s.r32Next + 1 + 1, predNext := s.predNext + 1
      body := s.body ++ scanCode o (ptxAtomType scalar) (collectiveOp = .exclusiveScan)
        (scanIdentity op scalar) v (.r s.r32Next) (.r (s.r32Next + 1)) (.p s.predNext) }) := by
  have alloc : allocForScalar scalar s =
      .ok (.r32 s.r32Next, { s with r32Next := s.r32Next + 1 }) := by
    unfold allocForScalar
    rw [if_neg narrow]
    rfl
  have lifted : ∀ t : PtxEmitter WarpInstr,
      (StateT.lift (scanOpStr op scalar) : PtxM WarpInstr WarpOp) t = .ok (o, t) := by
    intro t
    rw [isOp]
    rfl
  unfold emitSubgroupCollective
  refine (run_bind alloc).trans ?_
  cases collectiveOp with
  | reduce =>
    rcases scans with notReduce | isNone
    · exact absurd rfl notReduce
    · dsimp only
      rw [isNone]
      exact (run_bind (lifted _)).trans
        ((run_bind (emitWarpScan_eq isReg narrow _ _ _ _ _)).trans rfl)
  | inclusiveScan | exclusiveScan =>
    exact (run_bind (lifted _)).trans
        ((run_bind (emitWarpScan_eq isReg narrow _ _ _ _ _)).trans rfl)

theorem emitCollective_redux {op : SubgroupOperation} {o : WarpOp} {v : Reg}
    (narrow : scalar.width ≠ 8) (isReg : val.fmtOperand = .ok v) (isOp : reduceOp op = some o) :
    emitSubgroupCollective op .reduce val scalar s = .ok (.r32 s.r32Next, { s with
      r32Next := s.r32Next + 1
      body := s.body ++ [.redux o (ptxAtomType scalar) (.r s.r32Next) v 0xFFFFFFFF] }) := by
  have alloc : allocForScalar scalar s =
      .ok (.r32 s.r32Next, { s with r32Next := s.r32Next + 1 }) := by
    unfold allocForScalar
    rw [if_neg narrow]
    rfl
  have operandVal : ∀ t : PtxEmitter WarpInstr, operand val t = .ok (v, t) := by
    intro t
    unfold operand
    rw [isReg]
    rfl
  unfold emitSubgroupCollective
  refine (run_bind alloc).trans ?_
  dsimp only
  rw [isOp]
  exact (run_bind rfl).trans ((run_bind (operandVal _)).trans ((run_bind rfl).trans rfl))

/-- The first state in which values are held, for any start. -/
def firstState : PtxEmitter WarpInstr := { r32Next := 2, rd64Next := 2, predNext := 2 }

theorem holds_firstState {y : Lane → Cell} {val : PtxVal} {r : Reg}
    (isReg : val.fmtOperand = .ok r) (allocated : firstState.Allocated r)
    (isStart : start r = y) : HoldsVal (warp floats) start firstState val y :=
  ⟨r, isReg, allocated, isStart⟩

end emitted

section collectives

variable {floats : FloatOps} {scalar : Scalar} (narrow : scalar.width ≠ 8)

include narrow

theorem ptxAtomType_narrow : (ptxAtomType scalar).is64 = false := by
  unfold ptxAtomType
  split
  case h_4 _ _ _ wide => exact absurd wide narrow
  case h_5 _ _ _ wide => exact absurd wide narrow
  case h_6 _ _ _ wide => exact absurd wide narrow
  all_goals rfl

variable (notBool : scalar.kind ≠ .bool) {op : SubgroupOperation}
  {collectiveOp : CollectiveOperation}

include notBool

/-- A collective is right when PTX admits its code and what the code leaves is the fold. -/
theorem collectiveRight_iff {code : PtxEmitter WarpInstr → Nat → List WarpInstr} {n m : Nat}
    {admitted : Prop} (left : (Lane → BitVec 32) → Lane → BitVec 32)
    (emits : ∀ s id, emitSubgroupCollective op collectiveOp (.r32 id) scalar s =
      .ok (.r32 s.r32Next, { s with r32Next := s.r32Next + (n + 1), predNext := s.predNext + m
                                    body := s.body ++ code s id }))
    (legal : ∀ s id, (∀ i ∈ code s id, i.legal) ↔ admitted)
    (fresh : ∀ s id, ∀ i ∈ code s id, ∀ r ∈ i.writes, ¬ s.Allocated r)
    (leaves : ∀ (s : PtxEmitter WarpInstr) (id : Nat) (env : Reg → Lane → Cell)
      (x : Lane → BitVec 32), (∀ lane, env (.r id) lane = .b32 (x lane)) → ∀ lane,
      (warp floats).run (code s id) env (.r s.r32Next) lane = .b32 (left x lane)) :
    CollectiveRight floats collectiveOp op scalar ↔ admitted ∧
      ∀ (v : Lane → BitVec (bits scalar)) lane, IsFold floats op scalar
        ((collectiveOp.lanes lane).map v)
        ((left (fun lane => (v lane).setWidth 32) lane).setWidth _) := by
  have delivered : ∀ (start : Reg → Lane → Cell) (s : PtxEmitter WarpInstr) (id : Nat)
      (v : Lane → BitVec (bits scalar)),
      HoldsVal (warp floats) start s (.r32 id) (fun lane => cellOf scalar (v lane)) →
      (Delivers floats start s { s with r32Next := s.r32Next + (n + 1), predNext := s.predNext + m
                                        body := s.body ++ code s id } (.r32 s.r32Next)
        (fun lane cell =>
          IsFold floats op scalar ((collectiveOp.lanes lane).map v) (valueOf scalar cell)) ↔
        admitted ∧ ∀ lane, IsFold floats op scalar ((collectiveOp.lanes lane).map v)
          ((left (fun lane => (v lane).setWidth 32) lane).setWidth _)) := by
    intro start s id v holds
    rcases holds with ⟨r, isReg, held⟩
    cases isReg
    have cells : ∀ lane, s.env (warp floats) start (.r id) lane = .b32 ((v lane).setWidth 32) := by
      intro lane
      rw [← cellOf_narrow narrow notBool]
      exact congrFun held.value lane
    refine (delivers_iff (t := { s with
      r32Next := s.r32Next + (n + 1), predNext := s.predNext + m, body := s.body ++ code s id })
      rfl (Nat.le_add_right _ _) rfl (Nat.le_add_right _ _)
      (show s.r32Next < s.r32Next + (n + 1) by omega) (fresh s id)).trans ?_
    rw [legal]
    simp only [leaves s id _ _ cells]
    rfl
  constructor
  · intro right
    have atFirst : ∀ v : Lane → BitVec (bits scalar), _ := fun v =>
      have holds : HoldsVal (warp floats) (fun _ lane => cellOf scalar (v lane)) firstState (.r32 0)
          fun lane => cellOf scalar (v lane) := holds_firstState rfl (show 0 < 2 by omega) rfl
      (delivered _ firstState 0 v holds).mp
        (right (.r32 0) v _ firstState ⟨notBool, narrow⟩ holds _ _ (emits firstState 0))
    exact ⟨(atFirst fun _ => 0).1, fun v => (atFirst v).2⟩
  · rintro ⟨isAdmitted, folds⟩ val v start s inClass holds result t emitted
    rcases exists_r32 narrow notBool inClass with ⟨id, rfl⟩
    rw [emits] at emitted
    cases emitted
    exact (delivered start s id v holds).mpr ⟨isAdmitted, folds v⟩

/-- What PTX admits of a scan. -/
def scanLegal (op : WarpOp) (type : PtxType) (exclusive : Bool) : Bool :=
  arithLegal op type && (!exclusive || decide (type.kind ≠ .float))

/-- A scan is right when what the doubling steps leave is the fold. -/
theorem collectiveRight_scan_iff {o : WarpOp} (isOp : scanOpStr op scalar = .ok o)
    (scans : collectiveOp ≠ .reduce ∨ reduceOp op = none) :
    CollectiveRight floats collectiveOp op scalar ↔
      scanLegal o (ptxAtomType scalar) (collectiveOp = .exclusiveScan) ∧
        ∀ (v : Lane → BitVec (bits scalar)) lane,
          IsFold floats op scalar ((collectiveOp.lanes lane).map v)
            ((scanResult floats o (ptxAtomType scalar) (collectiveOp = .exclusiveScan)
              (scanIdentity op scalar) (fun lane => (v lane).setWidth 32) lane).setWidth _) := by
  have is32 := ptxAtomType_narrow narrow
  have apart : ∀ id : Nat, Reg.r id ≠ Reg.r (id + 1) := by
    intro id same
    exact absurd (Reg.r.inj same) (by omega)
  have noPred : ∀ id id' : Nat, Reg.r id ≠ Reg.p id' := by
    intro id id' same
    cases same
  refine collectiveRight_iff (n := 1) (m := 1) narrow notBool _
    (fun s id => emitCollective_scan narrow rfl isOp scans) ?_ ?_ ?_
  · intro s id
    unfold scanCode inclusiveCode scanLegal
    cases decide (collectiveOp = .exclusiveScan) <;>
      simp [scanStepCode, exclusiveCode, WarpInstr.legal, fits, is32, isB32, isPred]
  · intro s id i member r written old
    rcases scanCode_writes member r written with isDst | isTmp | isPred
    · subst isDst
      exact Nat.lt_irrefl _ old
    · subst isTmp
      exact absurd (show s.r32Next + 1 < s.r32Next from old) (by omega)
    · subst isPred
      exact Nat.lt_irrefl _ old
  · intro s id env x held lane
    exact run_scanCode floats is32 (apart _) (noPred _ _) (noPred _ _) held _ _ lane

/-- The fold that `redux.sync` leaves. -/
def reduxResult (o : WarpOp) (type : PtxType) (x : Lane → BitVec 32) : BitVec 32 :=
  ((List.finRange 32).map x).foldr (o.evalInt (type.kind = .signed))
    (o.identity (type.kind = .signed))

theorem collectiveRight_redux_iff {o : WarpOp} (isOp : reduceOp op = some o) :
    CollectiveRight floats .reduce op scalar ↔ reduxLegal o (ptxAtomType scalar) ∧
      ∀ (v : Lane → BitVec (bits scalar)) (lane : Lane),
        IsFold floats op scalar ((CollectiveOperation.reduce.lanes lane).map v)
          ((reduxResult o (ptxAtomType scalar) fun lane => (v lane).setWidth 32).setWidth _) := by
  refine collectiveRight_iff (n := 0) (m := 0) narrow notBool
    (fun x _ => reduxResult o (ptxAtomType scalar) x)
    (fun s id => emitCollective_redux narrow rfl isOp) ?_ ?_ ?_
  · intro s id
    simp [WarpInstr.legal, isB32]
  · intro s id i member r written old
    rcases mem_singleton.mp member
    rcases mem_singleton.mp written
    exact Nat.lt_irrefl _ old
  · intro s id env x held lane
    have values : (List.finRange 32).map (fun lane => (env (.r id) lane).asB32) =
        (List.finRange 32).map x :=
      map_congr_left fun lane _ => by rw [held]; rfl
    unfold reduxResult
    rw [← values]
    have written : (warp floats).run [.redux o (ptxAtomType scalar) (.r s.r32Next) (.r id)
        0xFFFFFFFF] env (.r s.r32Next) = _ := Function.update_self _ _ _
    exact congrFun written lane

end collectives

/-! ## The operations on integers -/

namespace WarpOp

variable {w : Nat}

/-- The integer that a kind orders a value by. -/
def key (signed : Bool) (a : BitVec w) : Int := if signed then a.toInt else a.toNat

theorem key_inj {signed : Bool} {a b : BitVec w} (same : key signed a = key signed b) : a = b := by
  unfold key at same
  cases signed with
  | false => exact BitVec.eq_of_toNat_eq (Int.ofNat.inj same)
  | true => exact BitVec.eq_of_toInt_eq same

theorem lesser_eq (signed : Bool) (a b : BitVec w) :
    lesser signed a b = if key signed a ≤ key signed b then a else b := by
  unfold lesser key
  cases signed <;> simp [BitVec.sle_iff_toInt_le, BitVec.ule_iff_toNat_le]

theorem greater_eq (signed : Bool) (a b : BitVec w) :
    greater signed a b = if key signed a ≤ key signed b then b else a := by
  unfold greater key
  cases signed <;> simp [BitVec.sle_iff_toInt_le, BitVec.ule_iff_toNat_le]

theorem evalInt_comm (op : WarpOp) (signed : Bool) (a b : BitVec w) :
    op.evalInt signed a b = op.evalInt signed b a := by
  cases op with
  | add => exact BitVec.add_comm a b
  | mul | mulLo => exact BitVec.mul_comm a b
  | and => exact BitVec.and_comm a b
  | or => exact BitVec.or_comm a b
  | xor => exact BitVec.xor_comm a b
  | min =>
    show lesser signed a b = lesser signed b a
    rw [lesser_eq, lesser_eq]
    split_ifs with first second second
    · exact key_inj (Int.le_antisymm first second)
    · rfl
    · rfl
    · omega
  | max =>
    show greater signed a b = greater signed b a
    rw [greater_eq, greater_eq]
    split_ifs with first second second
    · exact key_inj (Int.le_antisymm second first)
    · rfl
    · rfl
    · omega

theorem evalInt_assoc (op : WarpOp) (signed : Bool) (a b c : BitVec w) :
    op.evalInt signed (op.evalInt signed a b) c = op.evalInt signed a (op.evalInt signed b c) := by
  cases op with
  | add => exact BitVec.add_assoc a b c
  | mul | mulLo => exact BitVec.mul_assoc a b c
  | and => exact BitVec.and_assoc a b c
  | or => exact BitVec.or_assoc a b c
  | xor => exact BitVec.xor_assoc a b c
  | min =>
    show lesser signed (lesser signed a b) c = lesser signed a (lesser signed b c)
    simp only [lesser_eq]
    split_ifs <;> first | rfl | omega
  | max =>
    show greater signed (greater signed a b) c = greater signed a (greater signed b c)
    simp only [greater_eq]
    split_ifs <;> first | rfl | omega

/-- The identities of minimum and maximum are the ends of the order. -/
theorem key_bounds (signed : Bool) (a : BitVec 32) :
    key signed (identity .max signed : BitVec 32) ≤ key signed a ∧
      key signed a ≤ key signed (identity .min signed : BitVec 32) := by
  cases signed with
  | false =>
    have below := a.isLt
    have least : key false (identity .max false : BitVec 32) = 0 := rfl
    have greatest : key false (identity .min false : BitVec 32) = 2 ^ 32 - 1 := rfl
    have isNat : key false a = a.toNat := rfl
    rw [least, greatest, isNat]
    omega
  | true => exact ⟨BitVec.le_toInt a, BitVec.toInt_le⟩

theorem evalInt_identity (op : WarpOp) (signed : Bool) (a : BitVec 32) :
    op.evalInt signed (op.identity signed) a = a := by
  cases op with
  | add => exact BitVec.zero_add a
  | mul | mulLo => exact BitVec.one_mul a
  | and => exact BitVec.allOnes_and
  | or => exact BitVec.zero_or
  | xor => exact BitVec.zero_xor
  | min =>
    show lesser signed _ a = a
    rw [lesser_eq]
    split_ifs with below
    · exact key_inj (Int.le_antisymm below (key_bounds signed a).2)
    · rfl
  | max =>
    show greater signed _ a = a
    rw [greater_eq, if_pos (key_bounds signed a).1]

/-- A combination of integers is the fold. -/
theorem combines_evalInt {op : WarpOp} {signed : Bool} {values : List (BitVec 32)} {v : BitVec 32}
    (combines : Combines (op.evalInt signed) values v) :
    v = values.foldr (op.evalInt signed) (op.identity signed) :=
  combines.eq_foldr (evalInt_assoc op signed) (evalInt_comm op signed) (evalInt_identity op signed)

end WarpOp

section folds

variable {floats : FloatOps} {op : SubgroupOperation} {o : WarpOp} {scalar : Scalar}

/-- The instructions of a scan of integers compute the operation. -/
theorem scanOpStr_evalInt (isOp : scanOpStr op scalar = .ok o) (signed : Bool) :
    (o.evalInt signed : BitVec 32 → BitVec 32 → BitVec 32) = op.warpOp.evalInt signed ∧
      (o.identity signed : BitVec 32) = op.warpOp.identity signed := by
  cases op with
  | all | any => cases isOp
  | mul =>
    rcases Except.ok.inj isOp
    split <;> exact ⟨rfl, rfl⟩
  | add | min | max | and | or | xor =>
    cases isOp
    exact ⟨rfl, rfl⟩

theorem scanOpStr_float (isOp : scanOpStr op ⟨.float, 4⟩ = .ok o) : o = op.warpOp := by
  cases op with
  | all | any => cases isOp
  | add | mul | min | max | and | or | xor =>
    cases isOp
    rfl

theorem isFold_u32 {values : List (BitVec 32)} {v : BitVec 32} :
    IsFold floats op ⟨.uint, 4⟩ values v ↔
      v = values.foldr (op.warpOp.evalInt false) (op.warpOp.identity false) := by
  unfold IsFold
  exact iff_of_eq (if_neg fun isFloat => nomatch isFloat.1)

theorem isFold_s32 {values : List (BitVec 32)} {v : BitVec 32} :
    IsFold floats op ⟨.sint, 4⟩ values v ↔
      v = values.foldr (op.warpOp.evalInt true) (op.warpOp.identity true) := by
  unfold IsFold
  exact iff_of_eq (if_neg fun isFloat => nomatch isFloat.1)

theorem isFold_float {values : List (BitVec (bits scalar))} {v : BitVec (bits scalar)}
    (isFloat : scalarKind scalar = .float) (some : values ≠ []) :
    IsFold floats op scalar values v ↔ Combines (op.warpOp.eval floats .float) values v := by
  unfold IsFold
  dsimp only
  rw [isFloat, if_pos ⟨rfl, some⟩]

/-- The lanes before a lane are those up to the one before it. -/
theorem lanes_exclusive {lane : Lane} (inside : 1 ≤ lane.1) :
    CollectiveOperation.exclusiveScan.lanes lane =
      (List.finRange 32).filter (· ≤ (⟨lane.1 - 1, before_lt lane⟩ : Lane)) := by
  refine filter_congr fun j _ => ?_
  rw [Bool.eq_iff_iff, decide_eq_true_eq, decide_eq_true_eq, Fin.lt_def, Fin.le_def]
  show j.1 < lane.1 ↔ j.1 ≤ lane.1 - 1
  omega

theorem lanes_exclusive_first {lane : Lane} (first : ¬ 1 ≤ lane.1) :
    CollectiveOperation.exclusiveScan.lanes lane = [] := by
  refine filter_eq_nil_iff.mpr ?_
  intro j _ before
  have below : j.1 < lane.1 := of_decide_eq_true before
  omega

/-- What a scan of integers leaves is the fold, where its constant is the identity. -/
theorem scanResult_int {type : PtxType} {signed : Bool}
    (isInt : (o.eval floats type.kind : BitVec 32 → _) = o.evalInt signed)
    (isOp : scanOpStr op scalar = .ok o) {collectiveOp : CollectiveOperation}
    (scans : collectiveOp ≠ .reduce) {identity : Nat}
    (isIdentity : collectiveOp = .exclusiveScan →
      BitVec.ofNat 32 identity = op.warpOp.identity signed)
    (x : Lane → BitVec 32) (lane : Lane) :
    scanResult floats o type (collectiveOp = .exclusiveScan) identity x lane =
      ((collectiveOp.lanes lane).map x).foldr (op.warpOp.evalInt signed)
        (op.warpOp.identity signed) := by
  rcases scanOpStr_evalInt isOp signed with ⟨sameOp, sameIdentity⟩
  have inclusive : ∀ lane, scanned floats o type x lane =
      (((List.finRange 32).filter (· ≤ lane)).map x).foldr (op.warpOp.evalInt signed)
        (op.warpOp.identity signed) := by
    intro lane
    have combines := scanned_combines floats o type x lane
    rw [isInt] at combines
    rw [← sameOp, ← sameIdentity]
    exact WarpOp.combines_evalInt combines
  unfold scanResult
  cases collectiveOp with
  | reduce => exact absurd rfl scans
  | inclusiveScan => exact inclusive lane
  | exclusiveScan =>
    rw [if_pos (decide_eq_true rfl)]
    by_cases inside : 1 ≤ lane.1
    · rw [dif_pos inside, lanes_exclusive inside]
      exact inclusive _
    · rw [dif_neg inside, lanes_exclusive_first inside]
      exact isIdentity rfl

end folds

/-! ## Collectives -/

/-- The collectives that are refused, and those that are right. -/
def collectiveCovered (collectiveOp : CollectiveOperation) (op : SubgroupOperation)
    (scalar : Scalar) : Bool :=
  let u32 : Scalar := ⟨.uint, 4⟩
  let s32 : Scalar := ⟨.sint, 4⟩
  let f32 : Scalar := ⟨.float, 4⟩
  match collectiveOp, op with
  | .reduce, .add | .reduce, .min | .reduce, .max => scalar = u32 ∨ scalar = s32
  | .reduce, _ => false
  | .inclusiveScan, .all | .inclusiveScan, .any | .exclusiveScan, .all
  | .exclusiveScan, .any => true
  | .inclusiveScan, .add | .inclusiveScan, .mul | .inclusiveScan, .min | .inclusiveScan, .max =>
    scalar = u32 ∨ scalar = s32 ∨ scalar = f32
  | .exclusiveScan, .add | .exclusiveScan, .mul => scalar = u32 ∨ scalar = s32
  | .exclusiveScan, .min | .exclusiveScan, .max => scalar = s32
  | _, _ => false

section covered

variable {floats : FloatOps} {op : SubgroupOperation} {o : WarpOp}
  {collectiveOp : CollectiveOperation}

theorem scan_u32_right (isOp : scanOpStr op ⟨.uint, 4⟩ = .ok o) (scans : collectiveOp ≠ .reduce)
    (legal : scanLegal o .u32 (collectiveOp = .exclusiveScan))
    (isIdentity : collectiveOp = .exclusiveScan →
      BitVec.ofNat 32 (scanIdentity op ⟨.uint, 4⟩) = op.warpOp.identity false) :
    CollectiveRight floats collectiveOp op ⟨.uint, 4⟩ := by
  refine (collectiveRight_scan_iff (by decide) (by decide) isOp (.inl scans)).mpr
    ⟨legal, fun v lane => isFold_u32.mpr ?_⟩
  have same : (fun lane => (v lane).setWidth 32) = v := funext fun lane => BitVec.setWidth_eq _
  rw [same]
  exact (BitVec.setWidth_eq _).trans (scanResult_int rfl isOp scans isIdentity v lane)

theorem scan_s32_right (isOp : scanOpStr op ⟨.sint, 4⟩ = .ok o) (scans : collectiveOp ≠ .reduce)
    (legal : scanLegal o .s32 (collectiveOp = .exclusiveScan))
    (isIdentity : collectiveOp = .exclusiveScan →
      BitVec.ofNat 32 (scanIdentity op ⟨.sint, 4⟩) = op.warpOp.identity true) :
    CollectiveRight floats collectiveOp op ⟨.sint, 4⟩ := by
  refine (collectiveRight_scan_iff (by decide) (by decide) isOp (.inl scans)).mpr
    ⟨legal, fun v lane => isFold_s32.mpr ?_⟩
  have same : (fun lane => (v lane).setWidth 32) = v := funext fun lane => BitVec.setWidth_eq _
  rw [same]
  exact (BitVec.setWidth_eq _).trans (scanResult_int rfl isOp scans isIdentity v lane)

theorem scan_f32_right (isOp : scanOpStr op ⟨.float, 4⟩ = .ok o)
    (legal : scanLegal o .f32 false) :
    CollectiveRight floats .inclusiveScan op ⟨.float, 4⟩ := by
  refine (collectiveRight_scan_iff (by decide) (by decide) isOp (.inl (by decide))).mpr
    ⟨legal, fun v lane => ?_⟩
  have some : (CollectiveOperation.inclusiveScan.lanes lane).map v ≠ [] := by
    rw [Ne, map_eq_nil_iff]
    exact ne_nil_of_mem
      (mem_filter.mpr ⟨mem_finRange lane, decide_eq_true (Nat.le_refl _)⟩)
  refine (isFold_float rfl some).mpr ?_
  have same : (fun lane => (v lane).setWidth 32) = v := funext fun lane => BitVec.setWidth_eq _
  rw [same, scanOpStr_float isOp]
  have combines := scanned_combines floats op.warpOp .f32 v lane
  exact (BitVec.setWidth_eq _).symm ▸ combines

theorem redux_u32_right (isOp : reduceOp op = some o) (legal : reduxLegal o .u32)
    (same : o = op.warpOp) : CollectiveRight floats .reduce op ⟨.uint, 4⟩ := by
  refine (collectiveRight_redux_iff (by decide) (by decide) isOp).mpr
    ⟨legal, fun v lane => isFold_u32.mpr ?_⟩
  have sameValues : (fun lane => (v lane).setWidth 32) = v :=
    funext fun lane => BitVec.setWidth_eq _
  rw [sameValues, same]
  exact BitVec.setWidth_eq _

theorem redux_s32_right (isOp : reduceOp op = some o) (legal : reduxLegal o .s32)
    (same : o = op.warpOp) : CollectiveRight floats .reduce op ⟨.sint, 4⟩ := by
  refine (collectiveRight_redux_iff (by decide) (by decide) isOp).mpr
    ⟨legal, fun v lane => isFold_s32.mpr ?_⟩
  have sameValues : (fun lane => (v lane).setWidth 32) = v :=
    funext fun lane => BitVec.setWidth_eq _
  rw [sameValues, same]
  exact BitVec.setWidth_eq _

/-- A scan without an operation is refused. -/
theorem rejected_right {scalar : Scalar} {fault : Fault} (isOp : scanOpStr op scalar = .error fault)
    (scans : collectiveOp ≠ .reduce) : CollectiveRight floats collectiveOp op scalar := by
  intro val v start s _ _ result t emitted
  have alloc : ∃ dst s', allocForScalar scalar s = .ok (dst, s') := by
    unfold allocForScalar
    split
    · exact ⟨_, _, rfl⟩
    · exact ⟨_, _, rfl⟩
  rcases alloc with ⟨dst, s', alloc⟩
  have refused : emitSubgroupCollective op collectiveOp val scalar s = .error fault := by
    unfold emitSubgroupCollective
    refine (run_bind alloc).trans ?_
    cases collectiveOp with
    | reduce => exact absurd rfl scans
    | inclusiveScan | exclusiveScan =>
      dsimp only
      rw [isOp]
      rfl
  rw [refused] at emitted
  cases emitted

theorem collectiveRight_of_covered {scalar : Scalar}
    (covered : collectiveCovered collectiveOp op scalar) :
    CollectiveRight floats collectiveOp op scalar := by
  cases collectiveOp with
  | reduce =>
    cases op with
    | add | min | max =>
      rcases of_decide_eq_true covered with isU32 | isS32
      · subst isU32
        exact redux_u32_right rfl rfl rfl
      · subst isS32
        exact redux_s32_right rfl rfl rfl
    | all | any | mul | and | or | xor => cases covered
  | inclusiveScan =>
    have inclusive : CollectiveOperation.inclusiveScan ≠ .reduce := by decide
    have noConstant : ∀ {p : Prop}, CollectiveOperation.inclusiveScan = .exclusiveScan → p :=
      fun never => nomatch never
    cases op with
    | all | any => exact rejected_right rfl inclusive
    | add | mul | min | max =>
      rcases of_decide_eq_true covered with isU32 | isS32 | isF32
      · subst isU32
        exact scan_u32_right rfl inclusive rfl noConstant
      · subst isS32
        exact scan_s32_right rfl inclusive rfl noConstant
      · subst isF32
        exact scan_f32_right rfl rfl
    | and | or | xor => cases covered
  | exclusiveScan =>
    have exclusive : CollectiveOperation.exclusiveScan ≠ .reduce := by decide
    cases op with
    | all | any => exact rejected_right rfl exclusive
    | add | mul =>
      rcases of_decide_eq_true covered with isU32 | isS32
      · subst isU32
        exact scan_u32_right rfl exclusive rfl fun _ => rfl
      · subst isS32
        exact scan_s32_right rfl exclusive rfl fun _ => rfl
    | min | max =>
      have isS32 := of_decide_eq_true covered
      subst isS32
      exact scan_s32_right rfl exclusive rfl fun _ => by decide
    | and | or | xor => cases covered

end covered

section wrong

variable {floats : FloatOps} {op : SubgroupOperation} {collectiveOp : CollectiveOperation}
variable {scalar : Scalar}

/-- The register that holds a value of a scalar in the first state. -/
def firstVal (scalar : Scalar) : PtxVal :=
  if scalar.kind = .bool then .pred 0 else if scalar.width = 8 then .rd64 0 else .r32 0

/-- Whether PTX admits the code that is emitted first for a collective. -/
def firstLegal (collectiveOp : CollectiveOperation) (op : SubgroupOperation) (scalar : Scalar) :
    Bool :=
  match emitSubgroupCollective op collectiveOp (firstVal scalar) scalar firstState with
  | .ok (_, t) => t.body.all WarpInstr.legal
  | .error _ => true

/-- The scalars of naga. -/
def validScalars : List Scalar :=
  [⟨.bool, 1⟩, ⟨.sint, 4⟩, ⟨.sint, 8⟩, ⟨.uint, 4⟩, ⟨.uint, 8⟩, ⟨.float, 2⟩, ⟨.float, 4⟩,
    ⟨.float, 8⟩]

theorem mem_validScalars (valid : validScalar scalar) :
    scalar ∈ validScalars := by
  rcases scalar with ⟨kind, width⟩
  unfold validScalar at valid
  dsimp only at valid
  split at valid
  all_goals first | exact absurd valid (by decide) | (unfold validScalars; simp)

/-- A value that is held in the first state. -/
theorem exists_firstVal (scalar : Scalar) {start : Reg → Lane → Cell} {y : Lane → Cell}
    (isStart : ∀ r, r ≠ .r 1 → start r = y) : InClass scalar (firstVal scalar) ∧
      HoldsVal (warp floats) start firstState (firstVal scalar) y := by
  have two : 0 < 2 := by omega
  unfold firstVal
  by_cases isBool : scalar.kind = .bool
  · rw [if_pos isBool]
    exact ⟨isBool, holds_firstState rfl two (isStart (.p 0) (by decide))⟩
  · rw [if_neg isBool]
    by_cases wide : scalar.width = 8
    · rw [if_pos wide]
      exact ⟨wide, holds_firstState rfl two (isStart (.rd 0) (by decide))⟩
    · rw [if_neg wide]
      exact ⟨⟨isBool, wide⟩, holds_firstState rfl two (isStart (.r 0) (by decide))⟩

theorem firstLegal_of_right (right : CollectiveRight floats collectiveOp op scalar) :
    firstLegal collectiveOp op scalar := by
  have first : _ ∧ HoldsVal (warp floats) (fun _ _ => cellOf scalar 0) _ _ _ :=
    exists_firstVal scalar fun _ _ => rfl
  rcases first with ⟨inClass, holds⟩
  unfold firstLegal
  split
  case h_1 result t emitted =>
    have delivers := right _ (fun _ => 0) _ _ inClass holds _ _ emitted
    exact all_eq_true.mpr fun i member => delivers.legal i member
  case h_2 => rfl

/-- The collectives whose first code PTX admits, and that are not right. -/
theorem firstLegal_cases : ∀ scalar ∈ validScalars, firstLegal collectiveOp op scalar →
    collectiveCovered collectiveOp op scalar ∨
    (collectiveOp = .reduce ∧ op = .mul ∧ scalar ∈ [⟨.uint, 4⟩, ⟨.sint, 4⟩, ⟨.float, 4⟩]) ∨
    (collectiveOp = .exclusiveScan ∧ op ∈ [.min, .max] ∧ scalar = ⟨.uint, 4⟩) ∨
    op ∈ [.add, .min, .max] ∧ scalar = ⟨.float, 2⟩ := by
  cases collectiveOp <;> cases op <;> decide +kernel

/-- The first lane has its own value, whatever the others have. -/
theorem scanResult_first (o : WarpOp) (type : PtxType) (identity : Nat) (x : Lane → BitVec 32) :
    scanResult floats o type (CollectiveOperation.reduce = .exclusiveScan) identity x 0 = x 0 := rfl

/-- An exclusive scan gives the first lane its constant. -/
theorem scanResult_constant (o : WarpOp) (type : PtxType) (identity : Nat) (x : Lane → BitVec 32) :
    scanResult floats o type (CollectiveOperation.exclusiveScan = .exclusiveScan) identity x 0 =
      BitVec.ofNat 32 identity := rfl

/-- The second lane of an inclusive scan, and the third of an exclusive one, have the value of the
first two, which floats of 16 bits are summed to as integers. -/
theorem scanResult_half_second (o : WarpOp) (identity : Nat) (x : Lane → BitVec 32) :
    scanResult floats o (ptxAtomType ⟨.float, 2⟩)
        (CollectiveOperation.inclusiveScan = .exclusiveScan) identity x 1 =
      o.evalInt false (x 1) (x 0) := rfl

theorem scanResult_half_third (o : WarpOp) (identity : Nat) (x : Lane → BitVec 32) :
    scanResult floats o (ptxAtomType ⟨.float, 2⟩)
        (CollectiveOperation.exclusiveScan = .exclusiveScan) identity x 2 =
      o.evalInt false (x 1) (x 0) := rfl

/-- Values that are `one` but in a lane. -/
def oneBut {w : Nat} (place : Lane) (one other : BitVec w) (lane : Lane) : BitVec w :=
  if lane = place then other else one

/-- A product is the value of the first lane there. -/
theorem reduce_mul_u32_wrong : ¬ CollectiveRight floats .reduce .mul ⟨.uint, 4⟩ := by
  intro right
  have fold := ((collectiveRight_scan_iff (by decide) (by decide) rfl (.inr rfl)).mp right).2
    (oneBut 1 1 0) 0
  rw [scanResult_first] at fold
  have product : (1 : BitVec 32) =
      ((List.finRange 32).map (oneBut 1 1 0)).foldr (WarpOp.evalInt .mul false) 1 :=
    isFold_u32.mp fold
  exact absurd product (by decide)

theorem reduce_mul_s32_wrong : ¬ CollectiveRight floats .reduce .mul ⟨.sint, 4⟩ := by
  intro right
  have fold := ((collectiveRight_scan_iff (by decide) (by decide) rfl (.inr rfl)).mp right).2
    (oneBut 1 1 0) 0
  rw [scanResult_first] at fold
  have product : (1 : BitVec 32) =
      ((List.finRange 32).map (oneBut 1 1 0)).foldr (WarpOp.evalInt .mul true) 1 :=
    isFold_s32.mp fold
  exact absurd product (by decide)

/-- A fold of floats keeps a value that absorbs the others. -/
theorem isFold_absorbs (isFloat : scalarKind scalar = .float) {o : FloatOp}
    (isOp : op.warpOp.floatOp = some o) {values : List (BitVec (bits scalar))}
    {a v : BitVec (bits scalar)} (member : a ∈ values)
    (absorbing : (floatFormat (bits scalar)).decode a.toNat = o.absorbing)
    (fold : IsFold floats op scalar values v) :
    (floatFormat (bits scalar)).decode v.toNat = o.absorbing := by
  have combines := (isFold_float isFloat (ne_nil_of_mem member)).mp fold
  have isFloatOp : (op.warpOp.eval floats .float : BitVec (bits scalar) → _) = floats.op o := by
    funext a b
    unfold WarpOp.eval
    rw [isOp]
  rw [isFloatOp] at combines
  exact combines.absorbs (floats.left o) (floats.right o) ⟨a, member, absorbing⟩

theorem reduce_mul_f32_wrong : ¬ CollectiveRight floats .reduce .mul ⟨.float, 4⟩ := by
  intro right
  have fold := ((collectiveRight_scan_iff (by decide) (by decide) rfl (.inr rfl)).mp right).2
    (oneBut 1 0x3F800000 0x7FC00000) 0
  rw [scanResult_first] at fold
  have nan := isFold_absorbs (o := .mul) rfl rfl (mem_map_of_mem (mem_finRange 1))
    (by decide) fold
  exact absurd nan (by decide)

/-- The constant of a type with sign is not the identity of the type without. -/
theorem exclusive_u32_wrong (isOp : op ∈ [.min, .max]) :
    ¬ CollectiveRight floats .exclusiveScan op ⟨.uint, 4⟩ := by
  intro right
  rcases mem_pair.mp isOp with isMin | isMax
  · subst isMin
    have fold := ((collectiveRight_scan_iff (by decide) (by decide) rfl (.inl (by decide))).mp
      right).2 (fun _ => 0) 0
    rw [scanResult_constant] at fold
    have constant : (0x7FFFFFFF : BitVec 32) = BitVec.allOnes 32 := isFold_u32.mp fold
    exact absurd constant (by decide)
  · subst isMax
    have fold := ((collectiveRight_scan_iff (by decide) (by decide) rfl (.inl (by decide))).mp
      right).2 (fun _ => 0) 0
    rw [scanResult_constant] at fold
    have constant : (0x80000000 : BitVec 32) = 0 := isFold_u32.mp fold
    exact absurd constant (by decide)

/-- A value of 16 bits that absorbs the others in an operation, and one of the others. -/
def halfBits : FloatOp → BitVec 16 × BitVec 16
  | .add | .mul => (0x7E00, 0x3C00)
  | .min => (0xFC00, 0x3C00)
  | .max => (0x7C00, 0xBC00)

/-- The lanes up to the first one include it. -/
theorem first_mem_lanes {lane : Lane} (later : 0 < lane.1) :
    (0 : Lane) ∈ collectiveOp.lanes lane := by
  cases collectiveOp with
  | reduce => exact mem_finRange 0
  | inclusiveScan =>
    exact mem_filter.mpr ⟨mem_finRange 0, decide_eq_true (Nat.zero_le lane.1)⟩
  | exclusiveScan => exact mem_filter.mpr ⟨mem_finRange 0, decide_eq_true later⟩

set_option maxRecDepth 4000 in
/-- Floats of 16 bits are computed with as integers. -/
theorem half_wrong (isOp : op ∈ [.add, .min, .max]) :
    ¬ CollectiveRight floats collectiveOp op ⟨.float, 2⟩ := by
  intro right
  have absorbed : ∀ (o : FloatOp) {lane : Lane} {v : BitVec 16},
      op.warpOp.floatOp = some o → 0 < lane.1 →
      IsFold floats op ⟨.float, 2⟩
        ((collectiveOp.lanes lane).map (oneBut 0 (halfBits o).2 (halfBits o).1)) v →
      (floatFormat 16).decode v.toNat = o.absorbing := by
    intro o lane v isOp later fold
    refine isFold_absorbs rfl isOp (mem_map_of_mem (first_mem_lanes later)) ?_ fold
    cases o <;> decide
  have narrow : (⟨.float, 2⟩ : Scalar).width ≠ 8 := by decide
  have notBool : (⟨.float, 2⟩ : Scalar).kind ≠ .bool := by decide
  have ops : op = .add ∨ op = .min ∨ op = .max := by simpa using isOp
  cases collectiveOp with
  | reduce =>
    have fold : ∀ {o} (v : Lane → BitVec 16), reduceOp op = some o → IsFold floats op ⟨.float, 2⟩
        ((CollectiveOperation.reduce.lanes 31).map v)
        ((reduxResult o (ptxAtomType ⟨.float, 2⟩) fun lane => (v lane).setWidth 32).setWidth _) :=
      fun v isRedux => ((collectiveRight_redux_iff narrow notBool isRedux).mp right).2 v 31
    rcases ops with isAdd | isMin | isMax
    · subst isAdd
      exact absurd (absorbed .add rfl (by decide) (fold _ rfl)) (by decide)
    · subst isMin
      exact absurd (absorbed .min rfl (by decide) (fold _ rfl)) (by decide)
    · subst isMax
      exact absurd (absorbed .max rfl (by decide) (fold _ rfl)) (by decide)
  | inclusiveScan =>
    have fold : ∀ {o} (v : Lane → BitVec 16), scanOpStr op ⟨.float, 2⟩ = .ok o →
        IsFold floats op ⟨.float, 2⟩ ((CollectiveOperation.inclusiveScan.lanes 1).map v)
          ((o.evalInt false ((v 1).setWidth 32) ((v 0).setWidth 32)).setWidth _) := by
      intro o v isScan
      have value := ((collectiveRight_scan_iff narrow notBool isScan (.inl (by decide))).mp
        right).2 v 1
      rw [scanResult_half_second] at value
      exact value
    rcases ops with isAdd | isMin | isMax
    · subst isAdd
      exact absurd (absorbed .add rfl (by decide) (fold _ rfl)) (by decide)
    · subst isMin
      exact absurd (absorbed .min rfl (by decide) (fold _ rfl)) (by decide)
    · subst isMax
      exact absurd (absorbed .max rfl (by decide) (fold _ rfl)) (by decide)
  | exclusiveScan =>
    have fold : ∀ {o} (v : Lane → BitVec 16), scanOpStr op ⟨.float, 2⟩ = .ok o →
        IsFold floats op ⟨.float, 2⟩ ((CollectiveOperation.exclusiveScan.lanes 2).map v)
          ((o.evalInt false ((v 1).setWidth 32) ((v 0).setWidth 32)).setWidth _) := by
      intro o v isScan
      have value := ((collectiveRight_scan_iff narrow notBool isScan (.inl (by decide))).mp
        right).2 v 2
      rw [scanResult_half_third] at value
      exact value
    rcases ops with isAdd | isMin | isMax
    · subst isAdd
      exact absurd (absorbed .add rfl (by decide) (fold _ rfl)) (by decide)
    · subst isMin
      exact absurd (absorbed .min rfl (by decide) (fold _ rfl)) (by decide)
    · subst isMax
      exact absurd (absorbed .max rfl (by decide) (fold _ rfl)) (by decide)

/-- The exact condition for a collective. -/
theorem collectiveRight_iff_covered (valid : validScalar scalar) :
    CollectiveRight floats collectiveOp op scalar ↔ collectiveCovered collectiveOp op scalar := by
  refine ⟨fun right => ?_, collectiveRight_of_covered⟩
  rcases firstLegal_cases scalar (mem_validScalars valid) (firstLegal_of_right right) with
    covered | ⟨isReduce, isMul, member⟩ | ⟨isExclusive, isOp, isU32⟩ | ⟨isOp, isHalf⟩
  · exact covered
  · subst isReduce isMul
    have three : scalar = ⟨.uint, 4⟩ ∨ scalar = ⟨.sint, 4⟩ ∨ scalar = ⟨.float, 4⟩ := by
      simpa using member
    rcases three with isU32 | isS32 | isF32
    · exact absurd (isU32 ▸ right) reduce_mul_u32_wrong
    · exact absurd (isS32 ▸ right) reduce_mul_s32_wrong
    · exact absurd (isF32 ▸ right) reduce_mul_f32_wrong
  · subst isExclusive isU32
    exact absurd right (exclusive_u32_wrong isOp)
  · subst isHalf
    exact absurd right (half_wrong isOp)

end wrong

end CoralReef.Ptx
