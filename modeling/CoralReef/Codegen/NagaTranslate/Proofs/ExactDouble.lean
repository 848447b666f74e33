import CoralReef.Codegen.NagaTranslate.ExactDouble
import CoralReef.Codegen.NagaTranslate.Math
import CoralReef.Misc.MagicRounding

/-!
# The code that rounds doubles

What the code of the rounding builtins leaves in its registers, as doubles without bounds.
-/

open List
open Function (update update_of_ne update_self)

namespace CoralReef.NagaTranslate

open Straight Rounding

/-! ## Doubles -/

namespace Double

@[simp] theorem value_ofRat (negativeZero : Bool) (q : Rat) :
    (ofRat negativeZero q).value = q := by
  show (if (if q = 0 then negativeZero else decide (q < 0)) = true then -|q| else |q|) = q
  by_cases zero : q = 0
  · simp [zero]
  · rw [if_neg zero]
    by_cases negative : q < 0
    · rw [if_pos (decide_eq_true negative), abs_of_neg negative, neg_neg]
    · rw [if_neg (by simpa using negative), abs_of_nonneg (not_lt.mp negative)]

theorem value_withSign (negative : Bool) (x : Double) :
    (x.withSign negative).value = if negative then -x.magnitude else x.magnitude := rfl

theorem abs_value (x : Double) : |x.value| = x.magnitude := by
  unfold value
  split
  · rw [abs_neg, abs_of_nonneg x.nonneg]
  · rw [abs_of_nonneg x.nonneg]

theorem value_neg (x : Double) : (x.withSign !x.negative).value = -x.value := by
  unfold value withSign
  cases x.negative <;> simp

theorem value_abs (x : Double) : (x.withSign false).value = |x.value| := by
  rw [abs_value]
  rfl

theorem value_add (x y : Double) : (x.add y).value = roundTo 53 (x.value + y.value) :=
  value_ofRat _ _

/-- The sign of a number that is not zero. -/
theorem value_sign (x : Double) :
    (x.negative = true → x.value ≤ 0) ∧ (x.negative = false → 0 ≤ x.value) := by
  have nonneg := x.nonneg
  unfold value
  constructor
  · intro negative
    rw [if_pos negative]
    linarith
  · intro positive
    rw [if_neg (by rw [positive]; exact Bool.false_ne_true)]
    exact nonneg

end Double

variable {vec : SSARef} {x : Double} {h : Half} {op : SSAValue → ValueOp}

/-! ## Emitting -/

/-- What a translation has emitted; a value counts as allocated while code is emitted. -/
def translator : Emitter FuncTranslator ValueOp SSAValue where
  code := FuncTranslator.currentInstrs
  allocated := fun s x => x.idx ≤ s.ssaAlloc.count ∧ s.deadCode = false

/-- A value that is emitted and holds a half. -/
abbrev HoldsHalf (start : HalfEnv) (s : FuncTranslator) (x : SSAValue) (h : Half) : Prop :=
  Straight.Holds exactMachine translator start s x (some h)

/-- A pair of values that holds a double. -/
def HoldsDouble (start : HalfEnv) (s : FuncTranslator) (vec : SSARef) (x : Double) : Prop :=
  ∃ lo hi y, vec = [lo, hi] ∧ HoldsHalf start s lo (.low y) ∧ HoldsHalf start s hi (.high x) ∧
    y.magnitude = x.magnitude

abbrev EmitsExact {α : Type} (p : EmitM α) (s : FuncTranslator)
    (post : α → FuncTranslator → Prop) : Prop := Straight.Emits exactMachine translator p s post

abbrev ExtendsExact (s t : FuncTranslator) : Prop := Straight.Extends exactMachine translator s t

/-- The halves after what was emitted. -/
abbrev halves (start : HalfEnv) (s : FuncTranslator) : HalfEnv :=
  Straight.env exactMachine translator start s

variable {start : HalfEnv} {s t : FuncTranslator}

theorem HoldsDouble.mono (holds : HoldsDouble start s vec x) (more : ExtendsExact s t) :
    HoldsDouble start t vec x := by
  rcases holds with ⟨lo, hi, y, isVec, isLo, isHi, same⟩
  exact ⟨lo, hi, y, isVec, isLo.mono more, isHi.mono more, same⟩

theorem HoldsDouble.live (holds : HoldsDouble start s vec x) :
    s.deadCode = false := by
  rcases holds with ⟨lo, hi, y, -, isLo, -⟩
  exact isLo.allocated.2

/-- Code that writes values that are allocated for it. -/
def appended (s : FuncTranslator) (count : Nat) (code : List ValueOp) : FuncTranslator :=
  { s with ssaAlloc := ⟨s.ssaAlloc.count + count⟩, currentInstrs := s.currentInstrs ++ code }

theorem appended_extends {count : Nat} {code : List ValueOp} (live : s.deadCode = false)
    (fresh : ∀ op ∈ code, ∀ x ∈ op.dst.iterSsa, s.ssaAlloc.count < x.idx) :
    ExtendsExact s (appended s count code) := by
  refine .of_code _ ?_ rfl ?_
  · rintro x ⟨old, -⟩
    exact ⟨old.trans (Nat.le_add_right _ _), live⟩
  · rintro op member x written ⟨old, -⟩
    exact absurd old (not_le.mpr (fresh op member x written))

theorem appended_halves (count : Nat) (code : List ValueOp) :
    halves start (appended s count code) = exactMachine.run code (halves start s) :=
  Machine.run_append _ _ _ _

/-- An op of one value. -/
theorem exec_ofSsa {op : ValueOp} {dst : SSAValue} (isDst : op.dst = .ofSsa dst) (env : HalfEnv) :
    exactMachine.exec op env = update env dst (exactDouble op env 0) := by
  funext x
  show (if x ∈ op.dst.iterSsa then _ else _) = _
  rw [isDst]
  by_cases same : x = dst
  · subst same
    simp [Dst.ofSsa, Dst.iterSsa]
  · simp [Dst.ofSsa, Dst.iterSsa, same]

/-- The op of `emit_logic_and`. -/
def logicAndOp (sm : Nat) (dst : SSAValue) (a b : Src) : ValueOp :=
  if 70 ≤ sm then
    .lop3 { dst := .ofSsa dst, srcs := ![a, b, srcZero], op := .newLut fun x y _ => x &&& y }
  else .lop2 { dst := .ofSsa dst, srcs := ![a, b], op := .and }

/-- The op of `emit_logic_or`. -/
def logicOrOp (sm : Nat) (dst : SSAValue) (a b : Src) : ValueOp :=
  if 70 ≤ sm then
    .lop3 { dst := .ofSsa dst, srcs := ![a, b, srcZero], op := .newLut fun x y _ => x ||| y }
  else .lop2 { dst := .ofSsa dst, srcs := ![a, b], op := .or }

theorem emitLogicAnd_run (live : s.deadCode = false) (dst : SSAValue) (a b : Src) :
    emitLogicAnd dst a b s =
      .ok ((), { s with currentInstrs := s.currentInstrs ++ [logicAndOp s.sm dst a b] }) := by
  unfold logicAndOp
  by_cases new : 70 ≤ s.sm
  · rw [if_pos new, ← pushInstr_run live]
    show (if 70 ≤ s.sm then _ else _ : EmitM Unit) s = _
    rw [if_pos new]
  · rw [if_neg new, ← pushInstr_run live]
    show (if 70 ≤ s.sm then _ else _ : EmitM Unit) s = _
    rw [if_neg new]

theorem emitLogicOr_run (live : s.deadCode = false) (dst : SSAValue) (a b : Src) :
    emitLogicOr dst a b s =
      .ok ((), { s with currentInstrs := s.currentInstrs ++ [logicOrOp s.sm dst a b] }) := by
  unfold logicOrOp
  by_cases new : 70 ≤ s.sm
  · rw [if_pos new, ← pushInstr_run live]
    show (if 70 ≤ s.sm then _ else _ : EmitM Unit) s = _
    rw [if_pos new]
  · rw [if_neg new, ← pushInstr_run live]
    show (if 70 ≤ s.sm then _ else _ : EmitM Unit) s = _
    rw [if_neg new]

theorem logicAndOp_dst (sm : Nat) (dst : SSAValue) (a b : Src) :
    (logicAndOp sm dst a b).dst = .ofSsa dst := by
  unfold logicAndOp
  split <;> rfl

theorem logicOrOp_dst (sm : Nat) (dst : SSAValue) (a b : Src) :
    (logicOrOp sm dst a b).dst = .ofSsa dst := by
  unfold logicOrOp
  split <;> rfl

theorem logicAndOp_result {sm : Nat} {dst : SSAValue} {a b : Src} {env : HalfEnv} {h h' : Half}
    (first : HalfEnv.half env a = some h) (second : HalfEnv.half env b = some h') :
    exactDouble (logicAndOp sm dst a b) env 0 = h.and h' := by
  unfold logicAndOp
  split <;> simp [exactDouble, first, second]

theorem logicOrOp_result {sm : Nat} {dst : SSAValue} {a b : Src} {env : HalfEnv} {h h' : Half}
    (first : HalfEnv.half env a = some h) (second : HalfEnv.half env b = some h') :
    exactDouble (logicOrOp sm dst a b) env 0 = h.or h' := by
  have other : ¬ (LogicOp3.newLut fun x y _ => x ||| y) = LogicOp3.newLut fun x y _ => x &&& y := by
    decide
  unfold logicOrOp
  split <;> simp [exactDouble, first, second, other]

/-! ## New values -/

/-- A new value is held after its op. -/
theorem holds_appended {count : Nat} {code : List ValueOp} {x : SSAValue}
    (live : s.deadCode = false) (inside : x.idx ≤ s.ssaAlloc.count + count)
    (result : exactMachine.run code (halves start s) x = some h) :
    HoldsHalf start (appended s count code) x h := by
  refine ⟨⟨inside, live⟩, ?_⟩
  show halves start (appended s count code) x = some h
  rw [appended_halves, result]

/-- A new value that one op fills. -/
theorem value_emits (file : RegFile) {p : EmitM SSAValue} (live : s.deadCode = false)
    (ran : p s = .ok (⟨file, s.ssaAlloc.count + 1⟩, appended s 1 [op ⟨file, s.ssaAlloc.count + 1⟩]))
    (isDst : ∀ dst, (op dst).dst = .ofSsa dst)
    (isResult : ∀ dst, exactDouble (op dst) (halves start s) 0 = some h) :
    EmitsExact p s fun dst t => HoldsHalf start t dst h := by
  refine ⟨_, _, ran, appended_extends live ?_, holds_appended live (Nat.le_refl _) ?_⟩
  · intro op' member x written
    rw [mem_singleton.mp member, isDst] at written
    rw [mem_singleton.mp written]
    exact Nat.lt_succ_self _
  · rw [exactMachine.run_cons, exactMachine.run_nil, exec_ofSsa (isDst _), update_self,
      isResult]

theorem emitOp_exact {file : RegFile} (live : s.deadCode = false)
    (isDst : ∀ dst, (op dst).dst = .ofSsa dst)
    (isResult : ∀ dst, exactDouble (op dst) (halves start s) 0 = some h) :
    EmitsExact (emitOp file op) s fun dst t => HoldsHalf start t dst h := by
  refine value_emits file live ?_ isDst isResult
  show (pushInstr (op ⟨file, s.ssaAlloc.count + 1⟩) >>= fun _ => pure _)
    { s with ssaAlloc := ⟨s.ssaAlloc.count + 1⟩ } = _
  rw [run_bind (pushInstr_run (s := { s with ssaAlloc := ⟨s.ssaAlloc.count + 1⟩ }) live _)]
  rfl

/-- A value for a logic op. -/
theorem logic_bind {β : Type} {emit : SSAValue → EmitM Unit} {result : Half}
    {q : SSAValue → EmitM β} {post : β → FuncTranslator → Prop} (live : s.deadCode = false)
    (ran : ∀ dst (t : FuncTranslator), t.deadCode = false → t.sm = s.sm →
      emit dst t = .ok ((), { t with currentInstrs := t.currentInstrs ++ [op dst] }))
    (isDst : ∀ dst, (op dst).dst = .ofSsa dst)
    (isResult : ∀ dst, exactDouble (op dst) (halves start s) 0 = some result)
    (rest : ∀ dst t, ExtendsExact s t → HoldsHalf start t dst result → EmitsExact (q dst) t post) :
    EmitsExact (do
      let dst ← allocSsa .gpr
      emit dst
      q dst) s post := by
  have unit : EmitsExact (do
      let dst ← allocSsa .gpr
      emit dst
      return dst) s fun dst t => HoldsHalf start t dst result := by
    refine value_emits .gpr live ?_ isDst isResult
    show (emit ⟨.gpr, s.ssaAlloc.count + 1⟩ >>= fun _ => pure _)
      { s with ssaAlloc := ⟨s.ssaAlloc.count + 1⟩ } = _
    rw [run_bind (ran ⟨.gpr, s.ssaAlloc.count + 1⟩
      { s with ssaAlloc := ⟨s.ssaAlloc.count + 1⟩ } live rfl)]
    rfl
  have combined := unit.bind rest
  simpa only [bind_assoc, pure_bind] using combined

theorem logicAnd_bind {β : Type} {a b : Src} {h h' result : Half} {q : SSAValue → EmitM β}
    {post : β → FuncTranslator → Prop} (live : s.deadCode = false)
    (first : HalfEnv.half (halves start s) a = some h)
    (second : HalfEnv.half (halves start s) b = some h') (isAnd : h.and h' = some result)
    (rest : ∀ dst t, ExtendsExact s t → HoldsHalf start t dst result → EmitsExact (q dst) t post) :
    EmitsExact (do
      let dst ← allocSsa .gpr
      emitLogicAnd dst a b
      q dst) s post :=
  logic_bind live (fun dst _ live same => same ▸ emitLogicAnd_run live dst a b)
    (fun dst => logicAndOp_dst s.sm dst a b)
    (fun _ => (logicAndOp_result first second).trans isAnd) rest

theorem logicOr_bind {β : Type} {a b : Src} {h h' result : Half} {q : SSAValue → EmitM β}
    {post : β → FuncTranslator → Prop} (live : s.deadCode = false)
    (first : HalfEnv.half (halves start s) a = some h)
    (second : HalfEnv.half (halves start s) b = some h') (isOr : h.or h' = some result)
    (rest : ∀ dst t, ExtendsExact s t → HoldsHalf start t dst result → EmitsExact (q dst) t post) :
    EmitsExact (do
      let dst ← allocSsa .gpr
      emitLogicOr dst a b
      q dst) s post :=
  logic_bind live (fun dst _ live same => same ▸ emitLogicOr_run live dst a b)
    (fun dst => logicOrOp_dst s.sm dst a b)
    (fun _ => (logicOrOp_result first second).trans isOr) rest

/-- A pair of new values that two ops fill. -/
theorem pair_emits (op op' : SSAValue → ValueOp) {p : EmitM SSARef} {h h' : Half}
    (live : s.deadCode = false)
    (ran : p s = .ok ([⟨.gpr, s.ssaAlloc.count + 1⟩, ⟨.gpr, s.ssaAlloc.count + 2⟩],
      appended s 2 [op ⟨.gpr, s.ssaAlloc.count + 1⟩, op' ⟨.gpr, s.ssaAlloc.count + 2⟩]))
    (isDst : ∀ dst, (op dst).dst = .ofSsa dst) (isDst' : ∀ dst, (op' dst).dst = .ofSsa dst)
    (isLow : ∀ dst, exactDouble (op dst) (halves start s) 0 = some h)
    (isHigh : ∀ dst env, (∀ x, translator.allocated s x → env x = halves start s x) →
      exactDouble (op' dst) env 0 = some h') :
    EmitsExact p s fun vec t => ∃ lo hi, vec = [lo, hi] ∧ HoldsHalf start t lo h ∧
      HoldsHalf start t hi h' := by
  have other : (⟨.gpr, s.ssaAlloc.count + 1⟩ : SSAValue) ≠ ⟨.gpr, s.ssaAlloc.count + 2⟩ := by
    simp
  have run : exactMachine.run [op ⟨.gpr, s.ssaAlloc.count + 1⟩, op' ⟨.gpr, s.ssaAlloc.count + 2⟩]
      (halves start s) = update
        (update (halves start s) ⟨.gpr, s.ssaAlloc.count + 1⟩ (some h))
        ⟨.gpr, s.ssaAlloc.count + 2⟩ (some h') := by
    rw [exactMachine.run_cons, exactMachine.run_cons, exactMachine.run_nil, exec_ofSsa (isDst _),
      exec_ofSsa (isDst' _), isLow, isHigh]
    rintro x ⟨old, -⟩
    refine update_of_ne ?_ _ _
    rintro rfl
    exact absurd old (Nat.not_succ_le_self _)
  refine ⟨_, _, ran, appended_extends live ?_, _, _, rfl, holds_appended live ?_ ?_,
    holds_appended live (Nat.le_refl _) ?_⟩
  · intro o member x written
    rcases mem_pair.mp member with rfl | rfl
    · rw [isDst] at written
      rw [mem_singleton.mp written]
      exact Nat.lt_succ_self _
    · rw [isDst'] at written
      rw [mem_singleton.mp written]
      exact Nat.lt_add_of_pos_right two_pos
  · exact Nat.add_le_add_left one_le_two _
  · rw [run, update_of_ne other, update_self]
  · rw [run, update_self]

/-! ## Sums -/

/-- An operand of two registers. -/
theorem HoldsDouble.double (held : HoldsDouble start s vec x) (modifier : SrcMod) :
    HalfEnv.double (halves start s)
      { srcVec vec with modifier } = some (x.modified modifier) := by
  rcases held with ⟨lo, hi, y, rfl, isLo, isHi, same⟩
  have isLo : halves start s lo = some (.low y) := isLo.value
  have isHi : halves start s hi = some (.high x) := isHi.value
  simp [HalfEnv.double, srcVec, isLo, isHi, Half.pair, same]

theorem emitPair_exact {code : FloatCode} {srcs : List Src} (live : s.deadCode = false)
    (isLow : ∀ dst, exactDouble (.float code dst srcs) (halves start s) 0 = some (.low x))
    (isHigh : ∀ dst, exactDouble (.float code dst srcs) (halves start s) 1 = some (.high x)) :
    EmitsExact (emitPair code srcs) s fun vec t => HoldsDouble start t vec x := by
  have first : List.idxOf (⟨.gpr, s.ssaAlloc.count + 1⟩ : SSAValue)
      [⟨.gpr, s.ssaAlloc.count + 1⟩, ⟨.gpr, s.ssaAlloc.count + 2⟩] = 0 := by simp
  have second : List.idxOf (⟨.gpr, s.ssaAlloc.count + 2⟩ : SSAValue)
      [⟨.gpr, s.ssaAlloc.count + 1⟩, ⟨.gpr, s.ssaAlloc.count + 2⟩] = 1 := by simp
  refine ⟨[⟨.gpr, s.ssaAlloc.count + 1⟩, ⟨.gpr, s.ssaAlloc.count + 2⟩],
    appended s 2 [.float code (.ssa [⟨.gpr, s.ssaAlloc.count + 1⟩, ⟨.gpr, s.ssaAlloc.count + 2⟩])
      srcs], ?_, appended_extends live ?_, _, _, x, rfl, holds_appended live ?_ ?_,
    holds_appended live (Nat.le_refl _) ?_, rfl⟩
  · show (pushInstr _ >>= fun _ => pure _) { s with ssaAlloc := ⟨s.ssaAlloc.count + 2⟩ } = _
    rw [run_bind (pushInstr_run (s := { s with ssaAlloc := ⟨s.ssaAlloc.count + 2⟩ }) live _)]
    rfl
  · intro op member v written
    rw [mem_singleton.mp member] at written
    rcases mem_pair.mp written with rfl | rfl
    · exact Nat.lt_succ_self _
    · exact Nat.lt_add_of_pos_right two_pos
  · exact Nat.add_le_add_left one_le_two _
  · exact (if_pos mem_cons_self).trans ((congrArg (exactDouble _ _) first).trans (isLow _))
  · exact (if_pos (mem_cons_of_mem _ mem_cons_self)).trans
      ((congrArg (exactDouble _ _) second).trans (isHigh _))

theorem emitDAdd_exact {a b : Src} {x y : Double} (live : s.deadCode = false)
    (first : HalfEnv.double (halves start s) a = some x)
    (second : HalfEnv.double (halves start s) b = some y) :
    EmitsExact (emitDAdd a b) s fun vec t => HoldsDouble start t vec (x.add y) := by
  refine emitPair_exact live (fun dst => ?_) fun dst => ?_
  · simp [exactDouble, first, second]
  · simp [exactDouble, first, second]

/-! ## The builtins -/

/-- `2 ^ 52` with a sign. -/
def magicDouble (negative : Bool) : Double := Double.ofRat false (if negative then -2 ^ 52 else 2 ^ 52)

theorem ofBits_magic (negative : Bool) :
    Double.ofBits ((0x43300000 ||| (if negative then 0x80000000 else 0) : BitVec 32) ++
      (0 : BitVec 32)) = some (magicDouble negative) := by
  have decoded : FloatFormat.binary64.decode ((0x43300000 ||| (if negative then 0x80000000 else 0) :
      BitVec 32) ++ (0 : BitVec 32)).toNat = .finite (if negative then -2 ^ 52 else 2 ^ 52) := by
    cases negative <;> decide +kernel
  unfold Double.ofBits
  rw [decoded]
  cases negative <;> rfl

theorem ofBits_one : Double.ofBits ((0x3ff00000 : BitVec 32) ++ (0 : BitVec 32)) =
    some (Double.ofRat false 1) := by
  have decoded : FloatFormat.binary64.decode
      ((0x3ff00000 : BitVec 32) ++ (0 : BitVec 32)).toNat = .finite 1 := by
    decide +kernel
  unfold Double.ofBits
  rw [decoded]
  rfl

/-- What appends an op to the code of a translation for an SM. -/
def Appends (sm : Nat) (p : EmitM Unit) (op : ValueOp) : Prop :=
  ∀ t : FuncTranslator, t.deadCode = false → t.sm = sm →
    p t = .ok ((), { t with currentInstrs := t.currentInstrs ++ [op] })

theorem two_run {p p' : EmitM Unit} {op op' : ValueOp} (live : s.deadCode = false)
    (first : Appends s.sm p op) (second : Appends s.sm p' op') :
    (p >>= fun _ => p' >>= fun _ => pure vec) { s with ssaAlloc := ⟨s.ssaAlloc.count + 2⟩ } =
      .ok (vec, appended s 2 [op, op']) := by
  have ran := first { s with ssaAlloc := ⟨s.ssaAlloc.count + 2⟩ } live rfl
  have ran' := second { s with
    ssaAlloc := ⟨s.ssaAlloc.count + 2⟩, currentInstrs := s.currentInstrs ++ [op] } live rfl
  refine (run_bind ran).trans ((run_bind ran').trans ?_)
  simp only [append_assoc]
  rfl

/-- A pair of copies. -/
theorem copies_bind (start : HalfEnv) {β : Type} {a b : Src} {h h' : Half} {q : SSARef → EmitM β}
    {post : β → FuncTranslator → Prop} (live : s.deadCode = false)
    (first : HalfEnv.half (halves start s) a = some h)
    (second : ∀ env, (∀ x, translator.allocated s x → env x = halves start s x) →
      HalfEnv.half env b = some h')
    (rest : ∀ lo hi t, ExtendsExact s t → HoldsHalf start t lo h → HoldsHalf start t hi h' →
      EmitsExact (q [lo, hi]) t post) :
    EmitsExact (do
      let vec ← allocSsaVec .gpr 2
      pushInstr (copyOp (← component vec 0) a)
      pushInstr (copyOp (← component vec 1) b)
      q vec) s post := by
  have unit : EmitsExact (do
      let vec ← allocSsaVec .gpr 2
      pushInstr (copyOp (← component vec 0) a)
      pushInstr (copyOp (← component vec 1) b)
      return vec) s fun vec t => ∃ lo hi, vec = [lo, hi] ∧ HoldsHalf start t lo h ∧
        HoldsHalf start t hi h' := by
    refine pair_emits (fun dst => copyOp dst a) (fun dst => copyOp dst b) live ?_
      (fun _ => rfl) (fun _ => rfl) (fun _ => first) fun _ => second
    exact two_run live (fun _ live _ => pushInstr_run live _) fun _ live _ => pushInstr_run live _
  have later : ∀ vec t, ExtendsExact s t →
      (∃ lo hi, vec = [lo, hi] ∧ HoldsHalf start t lo h ∧ HoldsHalf start t hi h') →
      EmitsExact (q vec) t post := by
    rintro _ t more ⟨lo, hi, rfl, isLo, isHi⟩
    exact rest lo hi t more isLo isHi
  have combined := unit.bind later
  simpa only [bind_assoc, pure_bind] using combined

/-- A half that is not written by new code. -/
theorem half_of_held {env : HalfEnv} {x : SSAValue} (held : HoldsHalf start s x h)
    (same : ∀ x, translator.allocated s x → env x = halves start s x) :
    HalfEnv.half env (src x) = some h := (same x held.allocated).trans held.value

theorem HoldsHalf.mono {x : SSAValue} (held : HoldsHalf start s x h) (more : ExtendsExact s t) :
    HoldsHalf start t x h := Straight.Holds.mono held more

theorem HoldsHalf.half {x : SSAValue} (held : HoldsHalf start s x h) :
    HalfEnv.half (halves start s) (src x) = some h := held.value

theorem emitF64Round_eq (lo hi : SSAValue) : emitF64Round [lo, hi] = (do
    let signBit ← allocSsa .gpr
    emitLogicAnd signBit (src hi) (newImmU32 0x80000000)
    let signedHi ← allocSsa .gpr
    emitLogicOr signedHi (newImmU32 0x43300000) (src signBit)
    let signedMagic ← allocSsaVec .gpr 2
    pushInstr (copyOp (← component signedMagic 0) srcZero)
    pushInstr (copyOp (← component signedMagic 1) (src signedHi))
    let tmp ← emitDAdd (srcVec [lo, hi]) (srcVec signedMagic)
    emitDAdd (srcVec tmp) (fneg (srcVec signedMagic))) := rfl

/-- The magic number has the sign of the operand. -/
theorem magicRound_signed (x : Double) :
    magicRound 52 (magicDouble x.negative).value x.value = signedRound 52 x.value := by
  rw [magicDouble, Double.value_ofRat]
  unfold signedRound
  rcases x.value_sign with ⟨low, high⟩
  cases negative : x.negative with
  | false => rw [if_neg Bool.false_ne_true, if_neg (not_lt.mpr (high negative))]
  | true =>
    rw [if_pos rfl]
    rcases (low negative).lt_or_eq with less | zero
    · rw [if_pos less]
    · have isNeg := magicRound_neg 52 ((2 : Rat) ^ 52) 0
      rw [magicRound_zero (by decide), neg_zero] at isNeg
      rw [zero, if_neg (lt_irrefl _), isNeg, magicRound_zero (by decide)]

/-- The code of `round`. -/
theorem emitF64Round_exact (held : HoldsDouble start s vec x) :
    EmitsExact (emitF64Round vec) s fun dst t => ∃ y, HoldsDouble start t dst y ∧
      y.value = signedRound 52 x.value := by
  have live := held.live
  have held' := held
  rcases held with ⟨lo, hi, low, rfl, isLo, isHi, same⟩
  rw [emitF64Round_eq]
  refine logicAnd_bind live (HoldsHalf.half isHi) rfl rfl fun signBit t₁ e₁ isSign => ?_
  refine logicOr_bind isSign.allocated.2 rfl (HoldsHalf.half isSign) rfl
    fun signedHi t₂ e₂ isSignedHi => ?_
  refine copies_bind start isSignedHi.allocated.2 rfl (fun env same => half_of_held isSignedHi same)
    fun magicLo magicHi t₃ e₃ isMagicLo isMagicHi => ?_
  have e := e₁.trans (e₂.trans e₃)
  have magic {t : FuncTranslator} (more : ExtendsExact t₃ t) (modifier : SrcMod) :
      HalfEnv.double (halves start t) { srcVec [magicLo, magicHi] with modifier } =
        some ((magicDouble x.negative).modified modifier) := by
    have isLo : halves start t magicLo = _ := (isMagicLo.mono more).value
    have isHi : halves start t magicHi = _ := (isMagicHi.mono more).value
    have decoded := ofBits_magic x.negative
    show (Option.bind (halves start t magicLo) fun lo => Option.bind (halves start t magicHi)
      fun hi => Half.pair lo hi).map _ = _
    rw [isLo, isHi]
    exact congrArg (Option.map _) decoded
  refine (emitDAdd_exact isMagicLo.allocated.2 ((held'.mono e).double .none)
    (magic (.refl t₃) .none)).bind ?_
  intro tmp t₄ e₄ isTmp
  refine (emitDAdd_exact isTmp.live (isTmp.double .none) (magic e₄ .fNeg)).mono ?_
  intro dst t₅ _ isDst
  refine ⟨_, isDst, ?_⟩
  rw [← magicRound_signed, Double.value_add]
  show roundTo 53 ((Double.add x (magicDouble x.negative)).value +
    ((magicDouble x.negative).withSign !(magicDouble x.negative).negative).value) = _
  rw [Double.value_add, Double.value_neg, ← sub_eq_add_neg]
  rfl

/-- The op that selects a half. -/
def selOp (pred a b dst : SSAValue) : ValueOp :=
  .sel { dst := .ofSsa dst, srcs := ![src pred, src a, src b] }

theorem selOp_result {pred a b dst : SSAValue} {cond : Bool} {h h' : Half} {env : HalfEnv}
    (isPred : HalfEnv.half env (src pred) = some (.pred cond))
    (first : HalfEnv.half env (src a) = some h) (second : HalfEnv.half env (src b) = some h') :
    exactDouble (selOp pred a b dst) env 0 = some (if cond then h else h') := by
  have isCond : HalfEnv.pred env (src pred) = some cond := by
    unfold HalfEnv.pred
    rw [isPred]
    cases cond <;> rfl
  show (HalfEnv.pred env (src pred)).bind _ = _
  rw [isCond]
  cases cond
  · exact second
  · exact first

/-- The pair of two that a predicate selects. -/
theorem sels_emits {pred : SSAValue} {cond : Bool} {vec vec' : SSARef} {x y : Double}
    (isPred : HoldsHalf start s pred (.pred cond)) (first : HoldsDouble start s vec x)
    (second : HoldsDouble start s vec' y) :
    EmitsExact (do
      let dst ← allocSsaVec .gpr 2
      forComps 2 fun c => do
        let a ← component vec c
        let b ← component vec' c
        pushInstr (.sel
          { dst := .ofSsa (← component dst c), srcs := ![src pred, src a, src b] })
      return dst) s fun dst t => HoldsDouble start t dst (if cond then x else y) := by
  rcases first with ⟨lo, hi, low, rfl, isLo, isHi, same⟩
  rcases second with ⟨lo', hi', low', rfl, isLo', isHi', same'⟩
  have live := isPred.allocated.2
  refine (pair_emits (selOp pred lo lo') (selOp pred hi hi') live ?_ (fun _ => rfl)
    (fun _ => rfl) (fun dst => selOp_result isPred.half isLo.half isLo'.half)
    fun dst env same => selOp_result (half_of_held isPred same) (half_of_held isHi same)
      (half_of_held isHi' same)).mono ?_
  · have two (body : Nat → EmitM Unit) : forComps 2 body = (body 0 >>= fun _ => body 1) := by
      simp [forComps]
    simp only [two, bind_assoc]
    show (pushInstr (selOp pred lo lo' ⟨.gpr, s.ssaAlloc.count + 1⟩) >>= fun _ =>
      pushInstr (selOp pred hi hi' ⟨.gpr, s.ssaAlloc.count + 2⟩) >>= fun _ => pure _)
        { s with ssaAlloc := ⟨s.ssaAlloc.count + 2⟩ } = _
    exact two_run live (fun _ live _ => pushInstr_run live _) fun _ live _ => pushInstr_run live _
  · rintro _ t - ⟨l, h, rfl, isL, isH⟩
    cases cond
    · exact ⟨l, h, low', rfl, isL, isH, same'⟩
    · exact ⟨l, h, low, rfl, isL, isH, same⟩

/-- The code of `floor`. -/
theorem emitF64Floor_exact (held : HoldsDouble start s vec x) :
    EmitsExact (emitF64Floor vec) s fun dst t => ∃ y, HoldsDouble start t dst y ∧
      y.value = magicFloor 52 x.value := by
  refine (emitF64Round_exact held).bind ?_
  rintro rounded t₁ e₁ ⟨r, isRounded, isValue⟩
  refine copies_bind start isRounded.live rfl (fun _ _ => rfl)
    fun oneLo oneHi t₂ e₂ isOneLo isOneHi => ?_
  have one {t : FuncTranslator} (more : ExtendsExact t₂ t) (modifier : SrcMod) :
      HalfEnv.double (halves start t) { srcVec [oneLo, oneHi] with modifier } =
        some ((Double.ofRat false 1).modified modifier) := by
    have isLo : halves start t oneLo = _ := (isOneLo.mono more).value
    have isHi : halves start t oneHi = _ := (isOneHi.mono more).value
    show (Option.bind (halves start t oneLo) fun lo => Option.bind (halves start t oneHi)
      fun hi => Half.pair lo hi).map _ = _
    rw [isLo, isHi]
    exact congrArg (Option.map _) ofBits_one
  have compared (dst : SSAValue) : exactDouble (.dSetP
      { dst := .ofSsa dst, setOp := .and, cmpOp := .ordGt
        srcs := ![srcVec rounded, srcVec vec, srcTrue] }) (halves start t₂) 0 =
      some (.pred (decide (x.value < r.value))) := by
    have isR : HalfEnv.double (halves start t₂) (srcVec rounded) = some r :=
      (isRounded.mono e₂).double .none
    have isX : HalfEnv.double (halves start t₂) (srcVec vec) = some x :=
      (held.mono (e₁.trans e₂)).double .none
    show (HalfEnv.double (halves start t₂) (srcVec rounded)).bind _ = _
    rw [isR]
    show (HalfEnv.double (halves start t₂) (srcVec vec)).bind _ = _
    rw [isX]
    show some (Half.pred (decide (x.value < r.value) && true)) = _
    rw [Bool.and_true]
  refine (emitOp_exact isOneLo.allocated.2 (fun _ => rfl) compared).bind ?_
  intro pred t₃ e₃ isPred
  refine (emitDAdd_exact isPred.allocated.2 ((isRounded.mono (e₂.trans e₃)).double .none)
    (one e₃ .fNeg)).bind ?_
  intro adjusted t₄ e₄ isAdjusted
  refine (sels_emits (isPred.mono e₄) isAdjusted
    (isRounded.mono (e₂.trans (e₃.trans e₄)))).mono ?_
  intro dst t₅ _ isDst
  refine ⟨_, isDst, ?_⟩
  have isDifference : (Double.add r ((Double.ofRat false 1).withSign
      !(Double.ofRat false 1).negative)).value = roundTo 53 (signedRound 52 x.value - 1) := by
    rw [Double.value_add, Double.value_neg, Double.value_ofRat, isValue, ← sub_eq_add_neg]
  unfold magicFloor
  rw [isValue]
  by_cases less : x.value < signedRound 52 x.value
  · rw [if_pos (decide_eq_true less), if_pos less]
    exact isDifference
  · rw [if_neg (by simpa using less), if_neg less]
    exact isValue

/-- The sum of zero and a double. -/
theorem emitDAdd_zero (held : HoldsDouble start s vec x) (modifier : SrcMod) {v : Rat}
    (isValue : (x.modified modifier).value = v) :
    EmitsExact (emitDAdd srcZero { srcVec vec with modifier }) s fun dst t =>
      ∃ y, HoldsDouble start t dst y ∧ y.value = roundTo 53 v := by
  refine (emitDAdd_exact held.live rfl (held.double modifier)).mono ?_
  intro dst t _ isDst
  refine ⟨_, isDst, ?_⟩
  rw [Double.value_add, isValue]
  have zero : ((⟨false, 0, le_rfl⟩ : Double).modified srcZero.modifier).value = 0 := rfl
  rw [zero, zero_add]

/-- The code of `ceil`. -/
theorem emitF64Ceil_exact (held : HoldsDouble start s vec x)
    (rounded : roundTo 53 x.value = x.value) :
    EmitsExact (emitF64Ceil vec) s fun dst t => ∃ y, HoldsDouble start t dst y ∧
      y.value = -magicFloor 52 (-x.value) := by
  refine (emitDAdd_zero held .fNeg x.value_neg).bind ?_
  rintro negX t₁ e₁ ⟨y, isNeg, isValue⟩
  refine (emitF64Floor_exact isNeg).bind ?_
  rintro floorNeg t₂ e₂ ⟨z, isFloor, isFloorValue⟩
  refine (emitDAdd_zero isFloor .fNeg z.value_neg).mono ?_
  rintro dst t₃ - ⟨w, isDst, isResult⟩
  refine ⟨w, isDst, ?_⟩
  rw [isResult, isFloorValue, isValue, roundTo_neg, roundTo_neg, rounded, roundTo_magicFloor]

/-- The code of `fract`. -/
theorem emitF64Fract_exact (held : HoldsDouble start s vec x) :
    EmitsExact (do
      let floored ← emitF64Floor vec
      emitDAdd (srcVec vec) (fneg (srcVec floored))) s fun dst t =>
        ∃ y, HoldsDouble start t dst y ∧ y.value = roundTo 53 (x.value - magicFloor 52 x.value) := by
  refine (emitF64Floor_exact held).bind ?_
  rintro floored t₁ e₁ ⟨y, isFloor, isValue⟩
  refine (emitDAdd_exact isFloor.live ((held.mono e₁).double .none) (isFloor.double .fNeg)).mono ?_
  intro dst t₂ _ isDst
  refine ⟨_, isDst, ?_⟩
  show (Double.add x (y.withSign !y.negative)).value = _
  rw [Double.value_add, Double.value_neg, isValue, ← sub_eq_add_neg]

/-- A copy of a low half, and a high half with a sign. -/
theorem signed_emits {lo cleared signBit : SSAValue} {low x : Double} {negative : Bool}
    (isLo : HoldsHalf start s lo (.low low)) (isCleared : HoldsHalf start s cleared (.high x))
    (isSign : HoldsHalf start s signBit (.word (if negative then 0x80000000 else 0)))
    (positive : x.negative = false) (same : low.magnitude = x.magnitude) :
    EmitsExact (do
      let dst ← allocSsaVec .gpr 2
      pushInstr (copyOp (← component dst 0) (src lo))
      emitLogicOr (← component dst 1) (src cleared) (src signBit)
      return dst) s fun dst t => HoldsDouble start t dst (x.withSign negative) := by
  have live := isLo.allocated.2
  have isOr : (Half.high x).or (.word (if negative then 0x80000000 else 0)) =
      some (.high (x.withSign negative)) := by
    cases negative with
    | true => rfl
    | false =>
      have kept : x.withSign false = x := by
        rw [← positive]
        rfl
      rw [kept]
      rfl
  refine (pair_emits (fun dst => copyOp dst (src lo))
    (fun dst => logicOrOp s.sm dst (src cleared) (src signBit)) live ?_ (fun _ => rfl)
    (fun dst => logicOrOp_dst s.sm dst _ _) (fun _ => isLo.half) fun dst env same =>
      (logicOrOp_result (half_of_held isCleared same) (half_of_held isSign same)).trans isOr).mono ?_
  · exact two_run live (fun _ live _ => pushInstr_run live _)
      fun _ live same => same ▸ emitLogicOr_run live _ _ _
  · rintro _ t - ⟨l, h, rfl, isL, isH⟩
    exact ⟨l, h, low, rfl, isL, isH, same⟩

/-- The code of `trunc`. -/
theorem emitF64Trunc_exact (held : HoldsDouble start s vec x)
    (rounded : roundTo 53 x.value = x.value) :
    EmitsExact (emitF64Trunc vec) s fun dst t => ∃ y, HoldsDouble start t dst y ∧
      y.value = if x.negative then -magicFloor 52 |x.value| else magicFloor 52 |x.value| := by
  refine (emitDAdd_zero held .fAbs x.value_abs).bind ?_
  rintro absX t₁ e₁ ⟨y, isAbs, isValue⟩
  refine (emitF64Floor_exact isAbs).bind ?_
  rintro floored t₂ e₂ ⟨z, isFloor, isFloorValue⟩
  have e₁₂ := e₁.trans e₂
  rcases held with ⟨lo, hi, low, rfl, isLo, isHi, same⟩
  rcases isFloor with ⟨lo', hi', low', rfl, isLo', isHi', same'⟩
  refine logicAnd_bind isLo'.allocated.2 (isHi.mono e₁₂).half rfl rfl
    fun signBit t₃ e₃ isSign => ?_
  refine logicAnd_bind isSign.allocated.2 (isHi'.mono e₃).half rfl rfl
    fun cleared t₄ e₄ isCleared => ?_
  refine (signed_emits (isLo'.mono (e₃.trans e₄)) isCleared (isSign.mono e₄) rfl same').mono ?_
  intro dst t₅ _ isDst
  refine ⟨_, isDst, ?_⟩
  have isAbsValue : y.value = |x.value| := by
    rw [isValue]
    rcases abs_choice x.value with same | same
    · rw [same, rounded]
    · rw [same, roundTo_neg, rounded]
  have isMagnitude : z.magnitude = magicFloor 52 |x.value| := by
    rw [← Double.abs_value, isFloorValue, isAbsValue,
      abs_of_nonneg (magicFloor_nonneg (by decide) (abs_nonneg _))]
  rw [Double.value_withSign]
  show (if x.negative then -z.magnitude else z.magnitude) = _
  rw [isMagnitude]

end CoralReef.NagaTranslate
