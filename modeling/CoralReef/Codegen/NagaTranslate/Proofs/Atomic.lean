import CoralReef.Codegen.NagaTranslate.Atomic

/-!
# Atomic statements

Every statement is emitted as an unsigned 32-bit op on global memory, which compares with zero and
answers with the old word. So the two 32-bit types are translated rightly where neither a sign nor
a second operand matters, and no other statement is: a difference puts a modifier on an operand
that takes none, and a minimum or maximum of `i32` compares as `u32` does.
-/

open List

namespace CoralReef.NagaTranslate

variable {statement : AtomicStatement} {place : Place} {m : MemMachine} {function : AtomicFunction}

/-- The instruction that is emitted. -/
def atomInstr (addr : SSARef) (data : Src) (function : AtomicFunction) (dst : Dst) : OpAtom where
  dst := dst
  srcs := ![{ reference := .ssa addr }, { reference := .zero }, data]
  atomOp := atomOp function
  atomType := .u32
  addrOffset := 0
  addrStride := .x1
  memSpace := .global .a64
  memOrder := .weak
  memEvictionPriority := .normal

/-- The data of the instruction. -/
def dataOf (function : AtomicFunction) (first : SSAValue) : Src :=
  if function = .subtract then { Src.ofSsa first with modifier := .iNeg } else .ofSsa first

/-- The register of the result. -/
def resultOf (s : MemTranslator) (result : Option ExprHandle) : Dst :=
  if result.isSome then .ofSsa ⟨.gpr, s.ssaAlloc.count + 1⟩ else .none

theorem emitAtomic_ok {s : MemTranslator} (live : s.deadCode = false) (addr : SSARef)
    {val : SSARef} {first : SSAValue} (isFirst : val[0]? = some first) (function : AtomicFunction)
    (result : Option ExprHandle) :
    ∃ s', emitAtomic addr val function result s = .ok s' ∧
      s'.currentInstrs = s.currentInstrs ++
        [atomInstr addr (dataOf function first) function (resultOf s result)] ∧
      ∀ handle, result = some handle →
        s'.exprMap handle = some [⟨.gpr, s.ssaAlloc.count + 1⟩] := by
  cases result with
  | none =>
    refine ⟨_, by simp only [emitAtomic, isFirst, expect_some, ok_bind]; rfl, ?_, ?_⟩
    · simp only [live]
      rfl
    · intro handle never
      cases never
  | some handle' =>
    refine ⟨_, by simp only [emitAtomic, isFirst, expect_some, ok_bind]; rfl, ?_, ?_⟩
    · simp only [live]
      rfl
    · intro handle same
      cases same
      exact Function.update_self _ _ _

theorem AtomicTy.le_bits (ty : AtomicTy) : 32 ≤ ty.bits := by
  cases ty <;> decide

/-- The lowest word of a value stands first. -/
theorem wordsOf_cons {w : Nat} (x : BitVec w) (large : 32 ≤ w) :
    ∃ rest, wordsOf x = x.extractLsb' 0 32 :: rest := by
  have positive : 0 < w / 32 := Nat.div_pos large (by omega)
  rcases Nat.exists_eq_succ_of_ne_zero positive.ne' with ⟨n, count⟩
  rw [wordsOf, count, range_succ_eq_map, map_cons]
  exact ⟨_, rfl⟩

/-- The first word of a value and of the memory at its place. -/
theorem AtomicReady.first {s : MemTranslator} {addr val : SSARef}
    {old value : BitVec statement.ty.bits}
    (ready : AtomicReady statement s m addr val place old value) :
    ∃ first, val[0]? = some first ∧ m.env first = some (.word (value.extractLsb' 0 32)) ∧
      m.memory place = old.extractLsb' 0 32 := by
  have large := statement.ty.le_bits
  have holds := ready.holds
  have stored := ready.stored
  rcases wordsOf_cons value large with ⟨rest, isValue⟩
  rcases wordsOf_cons old large with ⟨rest', isOld⟩
  rw [isValue] at holds
  rw [isOld] at stored
  have positive : 0 < statement.ty.bits / 32 := Nat.div_pos large (by omega)
  rcases Nat.exists_eq_succ_of_ne_zero positive.ne' with ⟨n, count⟩
  rw [count, loadWords] at stored
  cases val with
  | nil => cases holds
  | cons first others =>
    rw [map_cons, map_cons] at holds
    exact ⟨first, rfl, (cons.inj holds).1, (cons.inj stored).1⟩

/-- A place in global memory is named by a pair of registers. -/
theorem PointsTo.place_eq {env : Env} {addr : SSARef} (points : PointsTo .storage env addr place)
    (data : Src) (function : AtomicFunction) (dst : Dst) :
    (atomInstr addr data function dst).place env = some place := by
  cases place with
  | shared address => cases points.1
  | global address =>
    rcases points with ⟨_, x, y, lo, hi, isAddr, low, high, isAddress⟩
    subst isAddr isAddress
    simp only [OpAtom.place, atomInstr, Matrix.cons_val_zero, low, high, Value.word?_word,
      OffsetStride.factor]
    simp

/-- What the instruction of a statement other than a difference does. -/
theorem exec_atomInstr {addr : SSARef} {first : SSAValue} {data old : BitVec 32}
    (points : PointsTo .storage m.env addr place) (holds : m.env first = some (.word data))
    (stored : m.memory place = old) (function : AtomicFunction) (dst : Dst) :
    ∃ new, (atomOp function).eval false old 0 data = some new ∧
      (atomInstr addr (.ofSsa first) function dst).exec m = some {
        env := assign m.env (dst.iterSsa.map fun x => (x, some (.word old)))
        memory := Function.update m.memory place new } := by
  have supports : (atomInstr addr (.ofSsa first) function dst).supported = true := by
    simp only [OpAtom.supported, decide_eq_true_eq]
    intro i
    match i with
    | 0 => rfl
    | 1 => rfl
    | 2 => rfl
  have known : ∃ new, (atomOp function).eval false old 0 data = some new := by
    cases function with
    | exchange compare => cases compare <;> exact ⟨_, rfl⟩
    | _ => exact ⟨_, rfl⟩
  rcases known with ⟨new, evaluates⟩
  refine ⟨new, evaluates, ?_⟩
  have word : m.env.srcValue (.ofSsa first) = some (.word data) := holds
  have zero : m.env.srcValue { reference := .zero } = some (.word 0) := rfl
  rw [OpAtom.exec, if_pos supports, points.place_eq]
  simp only [OpAtom.signed?, atomInstr, Matrix.cons_val_one, Matrix.cons_val_zero,
    Matrix.cons_val, word, zero, Value.word?_word, stored, Option.bind_eq_bind, Option.bind_some,
    evaluates]
  rfl

/-- A modifier on the data is not supported. -/
theorem exec_difference (m : MemMachine) (addr : SSARef) (first : SSAValue) (dst : Dst) :
    (atomInstr addr (dataOf .subtract first) .subtract dst).exec m = none := by
  have unsupported :
      ¬ (atomInstr addr (dataOf .subtract first) .subtract dst).supported = true := by
    simp only [OpAtom.supported, decide_eq_true_eq]
    intro all
    have data := all 2
    simp [atomInstr, dataOf, OpAtom.srcTypes, Src.supportsType, Src.isUnmodified] at data
  rw [OpAtom.exec, if_neg unsupported]

/-- A pointer to workgroup memory is one register. -/
theorem exec_workGroup {addr : SSARef} (points : PointsTo .workGroup m.env addr place) (data : Src)
    (function : AtomicFunction) (dst : Dst) : (atomInstr addr data function dst).exec m = none := by
  have nowhere : (atomInstr addr data function dst).place m.env = none := by
    cases place with
    | global address => cases points.1
    | shared address =>
      rcases points with ⟨_, x, isAddr, _⟩
      subst isAddr
      rfl
  rw [OpAtom.exec]
  split
  · rw [nowhere]
    rfl
  · rfl

/-- What is emitted for a statement on storage that is no difference. -/
theorem AtomicReady.runs {s : MemTranslator} {addr val : SSARef}
    {old value : BitVec statement.ty.bits}
    (ready : AtomicReady statement s m addr val place old value)
    (storage : statement.space = .storage) (other : statement.function ≠ .subtract) :
    ∃ s' op m' new, emitAtomic addr val statement.function statement.result s = .ok s' ∧
      s'.currentInstrs = s.currentInstrs ++ [op] ∧ op.exec m = some m' ∧
      (atomOp statement.function).eval false (old.extractLsb' 0 32) 0 (value.extractLsb' 0 32) =
        some new ∧ m'.memory = Function.update m.memory place new ∧
      (∀ x : SSAValue, x.idx ≤ s.ssaAlloc.count → m'.env x = m.env x) ∧
      ∀ handle, statement.result = some handle → ∃ regs, s'.exprMap handle = some regs ∧
        regs.map m'.env = [some (.word (old.extractLsb' 0 32))] := by
  rcases ready.first with ⟨first, isFirst, holds, stored⟩
  rcases emitAtomic_ok ready.live addr isFirst statement.function statement.result with
    ⟨s', emitted, instrs, mapped⟩
  have points := ready.points
  rw [storage] at points
  rcases exec_atomInstr points holds stored statement.function (resultOf s statement.result) with
    ⟨new, evaluates, execs⟩
  have data : dataOf statement.function first = .ofSsa first := if_neg other
  rw [data] at instrs
  refine ⟨s', _, _, new, emitted, instrs, execs, evaluates, rfl, ?_, ?_⟩
  · intro x old'
    unfold resultOf
    cases statement.result with
    | none => rfl
    | some handle =>
      refine Function.update_of_ne ?_ _ _
      intro same
      rw [same] at old'
      exact absurd old' (by simp)
  · intro handle isResult
    refine ⟨_, mapped handle isResult, ?_⟩
    simp [resultOf, isResult, assign, Dst.ofSsa, Dst.iterSsa]

theorem storeWords_one (memory : Place → BitVec 32) (place : Place) (word : BitVec 32) :
    storeWords memory place [word] = Function.update memory place word := rfl

theorem resultValues_plain (plain : ∀ handle, function ≠ .exchange (some handle)) {w : Nat}
    (old compare : BitVec w) :
    resultValues function old compare = (wordsOf old).map fun word => some (.word word) := by
  unfold resultValues
  cases function with
  | exchange compared =>
    cases compared with
    | none => exact append_nil _
    | some handle => exact absurd rfl (plain handle)
  | _ => exact append_nil _

/-- On one of the 32-bit types a statement is right when its update is the op's. -/
theorem right_of_word (storage : statement.space = .storage)
    (other : statement.function ≠ .subtract) (word : statement.ty.bits = 32)
    (plain : ∀ handle, statement.function ≠ .exchange (some handle))
    (same : ∀ (old value compare : BitVec statement.ty.bits) (new : BitVec 32),
      (atomOp statement.function).eval false (old.extractLsb' 0 32) 0 (value.extractLsb' 0 32) =
        some new →
      Updates statement.function statement.ty old value compare (new.setWidth statement.ty.bits)) :
    statement.Right := by
  intro s m addr val place old value compare ready
  rcases ready.runs storage other with
    ⟨s', op, m', new, emitted, instrs, execs, evaluates, memory, frame, results⟩
  have words : ∀ x : BitVec statement.ty.bits, wordsOf x = [x.extractLsb' 0 32] := by
    intro x
    have one : range (statement.ty.bits / 32) = [0] := by
      rw [word]
      rfl
    rw [wordsOf, one]
    rfl
  refine ⟨s', op, m', emitted, instrs, execs,
    ⟨_, same old value compare new evaluates, ?_⟩, frame, ?_⟩
  · have back : (new.setWidth statement.ty.bits).extractLsb' 0 32 = new := by
      apply BitVec.eq_of_getLsbD_eq
      intro i below
      simp [below, word]
    rw [words, back, storeWords_one, memory]
  · intro handle isResult
    rcases results handle isResult with ⟨regs, mapped, holds⟩
    refine ⟨regs, mapped, ?_⟩
    rw [holds, resultValues_plain plain, words]
    rfl

theorem right_of_works (works : statement.Works) :
    statement.Right := by
  rcases statement with ⟨function, ty, space, result⟩
  rcases works with ⟨storage, works⟩
  have full : ∀ x : BitVec 32, x.extractLsb' 0 32 = x := fun x => BitVec.extractLsb'_eq_self
  cases function with
  | subtract => exact works.elim
  | exchange compare =>
    cases compare with
    | some handle => exact works.elim
    | none =>
      rcases works with isTy | isTy | isTy <;>
      · dsimp only at isTy
        subst isTy
        refine right_of_word storage (by simp) rfl (by simp) ?_
        intro old value compare new evaluates
        cases evaluates
        exact (BitVec.setWidth_eq _).trans (full value)
  | min | max =>
    dsimp only at works
    subst works
    refine right_of_word storage (by simp) rfl (by simp) ?_
    intro old value compare new evaluates
    have low : BitVec.extractLsb' 0 32 old = old := full old
    have low' : BitVec.extractLsb' 0 32 value = value := full value
    rw [low, low'] at evaluates
    cases evaluates
    exact BitVec.setWidth_eq _
  | add | and | exclusiveOr | inclusiveOr =>
    rcases works with isTy | isTy <;>
    · dsimp only at isTy
      subst isTy
      refine right_of_word storage (by simp) rfl (by simp) ?_
      intro old value compare new evaluates
      have low : BitVec.extractLsb' 0 32 old = old := full old
      have low' : BitVec.extractLsb' 0 32 value = value := full value
      rw [low, low'] at evaluates
      cases evaluates
      exact BitVec.setWidth_eq _

/-- The values of a run that shows a statement wrong: the words of the value stand in the values
from 2 on, and the pointer is zero. -/
def sampleEnv (words : List (BitVec 32)) : Env := fun x =>
  if x.idx < 2 then some (.word 0) else words[x.idx - 2]?.map .word

def sampleVal (ty : AtomicTy) : SSARef :=
  (List.range (ty.bits / 32)).map fun i => ⟨.gpr, i + 2⟩

def sampleMachine {w : Nat} (place : Place) (old value : BitVec w) : MemMachine where
  env := sampleEnv (wordsOf value)
  memory := storeWords (fun _ => 0) place (wordsOf old)

/-- The pointer of the sample. -/
def samplePointer : AtomicSpace → SSARef × Place
  | .storage => ([⟨.gpr, 0⟩, ⟨.gpr, 1⟩], .global 0)
  | .workGroup => ([⟨.gpr, 0⟩], .shared 0)

theorem sample_ready (statement : AtomicStatement) (old value : BitVec statement.ty.bits) :
    AtomicReady statement { ssaAlloc := ⟨8⟩ }
      (sampleMachine (samplePointer statement.space).2 old value)
      (samplePointer statement.space).1 (sampleVal statement.ty)
      (samplePointer statement.space).2 old value := by
  rcases statement with ⟨function, ty, space, result⟩
  refine ⟨rfl, ?_, ?_, ?_⟩
  · cases space with
    | storage => exact ⟨rfl, ⟨.gpr, 0⟩, ⟨.gpr, 1⟩, 0, 0, rfl, rfl, rfl, rfl⟩
    | workGroup => exact ⟨rfl, ⟨.gpr, 0⟩, rfl, rfl⟩
  · cases ty <;> simp [sampleMachine, sampleVal, sampleEnv, wordsOf, AtomicTy.bits,
      range_succ]
  · have other : ∀ place : Place, place.next ≠ place := by
      intro place
      cases place with
      | global address | shared address => simp [Place.next]
    cases ty <;> simp [sampleMachine, loadWords, storeWords, wordsOf, AtomicTy.bits,
      Function.update, other, range_succ]

/-- A statement whose instruction has no meaning is not right. -/
theorem not_right_of_none
    (stuck : ∀ (m : MemMachine) (addr : SSARef) (place : Place) (first : SSAValue) (dst : Dst),
      PointsTo statement.space m.env addr place →
      (atomInstr addr (dataOf statement.function first) statement.function dst).exec m = none) :
    ¬ statement.Right := by
  intro right
  have ready := sample_ready statement 0 0
  rcases right _ _ _ _ _ _ _ 0 ready with ⟨s', op, m', emitted, instrs, execs, _⟩
  rcases ready.first with ⟨first, isFirst, _⟩
  rcases emitAtomic_ok ready.live (samplePointer statement.space).1 isFirst statement.function
    statement.result with ⟨s'', emitted', instrs', _⟩
  rw [emitted] at emitted'
  cases emitted'
  rw [instrs] at instrs'
  have same := (append_inj' instrs' rfl).2
  rw [(cons.inj same).1, stuck _ _ _ first _ ready.points] at execs
  cases execs

/-- What a right statement on storage stores: the word of the op, and behind it what was there. -/
theorem AtomicStatement.Right.words (right : statement.Right) (storage : statement.space = .storage)
    (other : statement.function ≠ .subtract) (old value compare : BitVec statement.ty.bits) :
    ∃ new new', (atomOp statement.function).eval false (old.extractLsb' 0 32) 0
        (value.extractLsb' 0 32) = some new ∧
      Updates statement.function statement.ty old value compare new' ∧
      wordsOf new' = new :: (wordsOf old).tail := by
  have ready := sample_ready statement old value
  rcases right _ _ _ _ _ _ _ compare ready with
    ⟨s', op, m', emitted, instrs, execs, ⟨new', updates, memory⟩, _⟩
  rcases ready.runs storage other with
    ⟨s'', op', m'', new, emitted', instrs', execs', evaluates, memory', _⟩
  rw [emitted] at emitted'
  cases emitted'
  rw [instrs] at instrs'
  have sameOp := (cons.inj (append_inj' instrs' rfl).2).1
  rw [sameOp, execs'] at execs
  cases execs
  refine ⟨new, new', evaluates, updates, ?_⟩
  rw [memory'] at memory
  rcases statement with ⟨function, ty, space, result⟩
  dsimp only at storage
  subst storage
  have here := congrFun memory (.global 0)
  have behind := congrFun memory (.global 4)
  cases ty <;>
    simp [sampleMachine, samplePointer, storeWords, wordsOf, AtomicTy.bits, Function.update,
      range_succ, Place.next] at here behind ⊢ <;>
    simp [here, behind]

/-- The sum of two ones is two, and not the sum of their bits. -/
theorem not_roundedTo_ones : ¬ RoundedTo 0x7f000000 (· + ·) 0x3f800000 0x3f800000 := by
  have one : FloatFormat.binary32.decode (0x3f800000 : BitVec 32).toNat = .finite 1 := by
    have encoded := FloatFormat.decode_encodeInt FloatFormat.binary32 (n := 1) (by decide)
      (by decide) (by decide)
    have bits : FloatFormat.binary32.encodeInt 1 = (0x3f800000 : BitVec 32).toNat := by
      decide
    rw [bits] at encoded
    exact encoded
  have big : FloatFormat.binary32.decode (0x7f000000 : BitVec 32).toNat =
      .finite (2 ^ 127) := by decide +kernel
  have two : FloatFormat.binary32.round (1 + 1) = .finite 2 := by
    have rounded := FloatFormat.round_intCast FloatFormat.binary32 (n := 2) (by decide)
      (by decide)
    have exact' : Rounding.roundTo (FloatFormat.binary32.fraction + 1) (2 : Rat) = 2 :=
      Rounding.roundTo_natCast (n := 2) (by decide)
    rw [Int.cast_ofNat, exact'] at rounded
    rw [one_add_one_eq_two]
    exact rounded
  unfold RoundedTo
  rw [one, big]
  dsimp only
  rw [two]
  intro same
  exact absurd (FloatNumber.finite.inj same) (by decide)

/-- An update of an integer is not right when its words are others. -/
theorem AtomicStatement.Right.integer (right : statement.Right)
    (storage : statement.space = .storage) (other : statement.function ≠ .subtract) (signed : Bool)
    (old value compare : BitVec statement.ty.bits)
    (isInteger : ∀ new, Updates statement.function statement.ty old value compare new →
      new = integerUpdate statement.function signed old value compare) :
    (atomOp statement.function).eval false (old.extractLsb' 0 32) 0 (value.extractLsb' 0 32) =
      (wordsOf (integerUpdate statement.function signed old value compare)).head? ∧
    (wordsOf (integerUpdate statement.function signed old value compare)).tail =
      (wordsOf old).tail := by
  rcases right.words storage other old value compare with ⟨new, new', evaluates, updates, same⟩
  rw [← isInteger new' updates, same]
  exact ⟨evaluates, rfl⟩

/-- A 64-bit statement leaves the high word as it was. -/
theorem not_right_of_long {ty : AtomicTy} (signed : Bool)
    (long : ty = if signed then .i64 else .u64) (other : function ≠ .subtract)
    (result : Option ExprHandle) :
    ¬ AtomicStatement.Right ⟨function, ty, .storage, result⟩ := by
  intro right
  have high : ∀ old value : BitVec 64,
      (wordsOf (integerUpdate function signed old value old)).tail = (wordsOf old).tail := by
    intro old value
    cases signed with
    | true =>
      subst long
      exact (right.integer rfl other true old value old fun _ updates => updates).2
    | false =>
      subst long
      exact (right.integer rfl other false old value old fun _ updates => updates).2
  have up := high 0 0x100000000
  have down := high 0x100000000 0
  cases function with
  | subtract => exact other rfl
  | exchange compare =>
    cases compare with
    | none => cases signed <;> exact absurd up (by decide)
    | some handle =>
      have exchanged : (wordsOf (0x100000000 : BitVec 64)).tail =
        (wordsOf (0 : BitVec 64)).tail := up
      exact absurd exchanged (by decide)
  | min | and => cases signed <;> exact absurd down (by decide)
  | max | add | exclusiveOr | inclusiveOr => cases signed <;> exact absurd up (by decide)

/-- The update of a 32-bit integer is the op's. -/
theorem eval_of_right {ty : AtomicTy} (signed : Bool) (word : ty = if signed then .i32 else .u32)
    (other : function ≠ .subtract) {result : Option ExprHandle}
    (right : AtomicStatement.Right ⟨function, ty, .storage, result⟩)
    (old value compare : BitVec 32) : (atomOp function).eval false old 0 value =
      some (integerUpdate function signed old value compare) := by
  have whole : ∀ x : BitVec 32, x.extractLsb' 0 32 = x := fun x => BitVec.extractLsb'_eq_self
  have words : ∀ x : BitVec 32, (wordsOf x).head? = some x := fun x => congrArg some (whole x)
  have same : (atomOp function).eval false (old.extractLsb' 0 32) 0 (value.extractLsb' 0 32) =
      (wordsOf (integerUpdate function signed old value compare)).head? := by
    cases signed with
    | true =>
      subst word
      exact (right.integer rfl other true old value compare fun _ updates => updates).1
    | false =>
      subst word
      exact (right.integer rfl other false old value compare fun _ updates => updates).1
  rw [whole, whole, words] at same
  exact same

/-- A comparison of `i32` is not one of `u32`. -/
theorem not_right_of_signed (extreme : function = .min ∨ function = .max)
    (result : Option ExprHandle) : ¬ AtomicStatement.Right ⟨function, .i32, .storage, result⟩ := by
  intro right
  rcases extreme with isMin | isMax
  · subst isMin
    exact absurd (eval_of_right true rfl (by simp) right 0xffffffff 0 0) (by decide)
  · subst isMax
    exact absurd (eval_of_right true rfl (by simp) right 0xffffffff 0 0) (by decide)

/-- A compare and exchange compares with zero. -/
theorem not_right_of_compare {ty : AtomicTy} (signed : Bool)
    (word : ty = if signed then .i32 else .u32) (handle : ExprHandle)
    (result : Option ExprHandle) :
    ¬ AtomicStatement.Right ⟨.exchange (some handle), ty, .storage, result⟩ := by
  intro right
  have same : AtomOp.eval (.cmpExch .separate) false 1 0 2 = some 2 :=
    eval_of_right signed word (by simp) right 1 2 1
  exact absurd same (by decide)

/-- The bits of floats are added. -/
theorem not_right_of_floatSum (result : Option ExprHandle) :
    ¬ AtomicStatement.Right ⟨.add, .f32, .storage, result⟩ := by
  intro right
  rcases right.words rfl (by simp) (0x3f800000 : BitVec 32) (0x3f800000 : BitVec 32)
    (0 : BitVec 32) with ⟨new, new', evaluates, updates, same⟩
  have whole : ∀ x : BitVec 32, wordsOf x = [x] := fun x =>
    congrArg (fun word => [word]) BitVec.extractLsb'_eq_self
  have isNew' : (new' : BitVec 32) = new := (cons.inj ((whole new').symm.trans same)).1
  have low : BitVec.extractLsb' 0 32 (0x3f800000 : BitVec 32) = 0x3f800000 :=
    BitVec.extractLsb'_eq_self
  have sum : (0x3f800000 : BitVec 32) + 0x3f800000 = 0x7f000000 := by decide
  have added : AtomOp.add.eval false 0x3f800000 0 0x3f800000 = some new := by
    rw [← low]
    exact evaluates
  have isNew : (0x3f800000 : BitVec 32) + 0x3f800000 = new := Option.some.inj added
  have rounded : RoundedTo new' (· + ·) 0x3f800000 0x3f800000 := updates
  rw [isNew', ← isNew, sum] at rounded
  exact not_roundedTo_ones rounded

theorem works_of_right (allowed : statement.allowed = true) (right : statement.Right) :
    statement.Works := by
  have storage : statement.space = .storage := by
    cases space : statement.space with
    | storage => rfl
    | workGroup =>
      refine absurd right (not_right_of_none ?_)
      intro m addr place first dst points
      rw [space] at points
      exact exec_workGroup points _ _ _
  have notSubtract : statement.function ≠ .subtract := by
    intro isSubtract
    refine absurd right (not_right_of_none ?_)
    intro m addr place first dst _
    rw [isSubtract]
    exact exec_difference m addr first dst
  rcases statement with ⟨function, ty, space, result⟩
  dsimp only at storage notSubtract
  subst storage
  refine ⟨rfl, ?_⟩
  cases ty with
  | u64 => exact absurd right (not_right_of_long false rfl notSubtract result)
  | i64 => exact absurd right (not_right_of_long true rfl notSubtract result)
  | u32 =>
    cases function with
    | subtract => exact notSubtract rfl
    | exchange compare =>
      cases compare with
      | none => exact .inl rfl
      | some handle => exact not_right_of_compare false rfl handle result right
    | min | max => rfl
    | add | and | exclusiveOr | inclusiveOr => exact .inl rfl
  | i32 =>
    cases function with
    | subtract => exact notSubtract rfl
    | exchange compare =>
      cases compare with
      | none => exact .inr (.inl rfl)
      | some handle => exact not_right_of_compare true rfl handle result right
    | min => exact absurd right (not_right_of_signed (.inl rfl) result)
    | max => exact absurd right (not_right_of_signed (.inr rfl) result)
    | add | and | exclusiveOr | inclusiveOr => exact .inr rfl
  | f32 =>
    cases function with
    | add => exact absurd right (not_right_of_floatSum result)
    | subtract => exact notSubtract rfl
    | exchange compare =>
      cases compare with
      | none => exact .inr (.inr rfl)
      | some handle => cases allowed
    | and | exclusiveOr | inclusiveOr | min | max => cases allowed

/-- The statements that are translated rightly: on storage, sums and bitwise operations of the two
32-bit integers, minima and maxima of `u32`, and plain exchanges of one word. -/
theorem emitAtomic_right_iff (statement : AtomicStatement) (allowed : statement.allowed = true) :
    statement.Right ↔ statement.Works :=
  ⟨works_of_right allowed, right_of_works⟩

theorem emitAtomic_right_maximum : AtomicStatement.Right ⟨.max, .u32, .storage, some 3⟩ :=
  (emitAtomic_right_iff ⟨.max, .u32, .storage, some 3⟩ rfl).mpr ⟨rfl, rfl⟩

/-- The minimum of -1 and 0 is taken to be 0, a compare and exchange of 1 for 2 leaves 1, and a
difference is given an operand with a modifier that its type does not take. -/
theorem emitAtomic_signedMinimum_fails :
    ¬ AtomicStatement.Right ⟨.min, .i32, .storage, some 0⟩ ∧
    ¬ AtomicStatement.Right ⟨.exchange (some 0), .u32, .storage, some 1⟩ ∧
    ¬ AtomicStatement.Right ⟨.subtract, .u32, .storage, some 0⟩ := by
  refine ⟨not_right_of_signed (.inl rfl) _, not_right_of_compare false rfl 0 _, ?_⟩
  exact not_right_of_none fun m addr _ first dst _ => exec_difference m addr first dst

end CoralReef.NagaTranslate
