import CoralReef.Codegen.Builder.Proofs.Add

/-!
# Comparisons of 64 bits

The high halves decide a comparison unless they are equal, and then the low halves do, unsigned.
-/

namespace CoralReef

/-- The comparison of 64 bits. -/
def IntCmpOp.eval64 (cmpOp : IntCmpOp) (signed : Bool) (x y : BitVec 64) : Bool :=
  let less (x y : BitVec 64) := if signed then x.slt y else x.ult y
  match cmpOp with
  | .«false» => Bool.false
  | .«true» => Bool.true
  | .eq => x == y
  | .ne => x != y
  | .lt => less x y
  | .le => !less y x
  | .gt => less y x
  | .ge => !less x y

/-! ## The halves of a comparison -/

/-- The number that a comparison takes a word for. -/
def comparand (signed : Bool) {n : Nat} (x : BitVec n) : Int := if signed then x.toInt else x.toNat

theorem less_iff (signed : Bool) {n : Nat} (x y : BitVec n) :
    (if signed then x.slt y else x.ult y) = decide (comparand signed x < comparand signed y) := by
  unfold comparand
  cases signed with
  | true => rfl
  | false =>
    simp only [Bool.false_eq_true, if_false, Int.ofNat_lt]
    rfl

theorem comparand_inj {signed : Bool} {n : Nat} {x y : BitVec n}
    (same : comparand signed x = comparand signed y) : x = y := by
  unfold comparand at same
  cases signed with
  | true => exact BitVec.eq_of_toInt_eq same
  | false => exact BitVec.eq_of_toNat_eq (Int.ofNat.inj same)

theorem comparand_halves (signed : Bool) (v : BitVec 64) : comparand signed v =
    comparand signed ((v >>> 32).setWidth 32) * 2 ^ 32 + ((v.setWidth 32).toNat : Int) := by
  have whole := halves_toNat v
  have low := (v.setWidth 32).isLt
  have high := ((v >>> 32).setWidth 32).isLt
  unfold comparand
  cases signed with
  | true =>
    simp only [if_true, BitVec.toInt_eq_toNat_cond]
    split <;> split <;> omega
  | false =>
    simp only [Bool.false_eq_true, if_false]
    omega

section

variable (signed : Bool) (v w : BitVec 64)

theorem eq_iff_halves : v = w ↔
    (v >>> 32).setWidth 32 = (w >>> 32).setWidth 32 ∧ v.setWidth 32 = w.setWidth 32 := by
  constructor
  · rintro rfl
    exact ⟨rfl, rfl⟩
  · rintro ⟨high, low⟩
    apply BitVec.eq_of_toNat_eq
    rw [halves_toNat v, halves_toNat w, high, low]

theorem less_halves : comparand signed v < comparand signed w ↔
    comparand signed ((v >>> 32).setWidth 32) < comparand signed ((w >>> 32).setWidth 32) ∨
      (v >>> 32).setWidth 32 = (w >>> 32).setWidth 32 ∧
        (v.setWidth 32).toNat < (w.setWidth 32).toNat := by
  have vLow := (v.setWidth 32).isLt
  have wLow := (w.setWidth 32).isLt
  have high : (v >>> 32).setWidth 32 = (w >>> 32).setWidth 32 ↔
      comparand signed ((v >>> 32).setWidth 32) = comparand signed ((w >>> 32).setWidth 32) :=
    ⟨congrArg _, comparand_inj⟩
  rw [comparand_halves signed v, comparand_halves signed w, high]
  omega

/-- The extended comparison: equal high halves leave it to the low halves. -/
theorem eval64_order {cmpOp : IntCmpOp}
    (order : cmpOp = .lt ∨ cmpOp = .le ∨ cmpOp = .gt ∨ cmpOp = .ge) :
    cmpOp.eval64 signed v w =
      if (v >>> 32).setWidth 32 = (w >>> 32).setWidth 32 then
        cmpOp.eval false (v.setWidth 32) (w.setWidth 32)
      else cmpOp.eval signed ((v >>> 32).setWidth 32) ((w >>> 32).setWidth 32) := by
  have forth := less_halves signed v w
  have back := less_halves signed w v
  split
  next same =>
    have low : ∀ x y : BitVec 32, comparand false x < comparand false y ↔ x.toNat < y.toNat :=
      fun x y => Int.ofNat_lt
    simp only [same, lt_irrefl, false_or, true_and] at forth back
    rcases order with rfl | rfl | rfl | rfl <;>
      simp only [IntCmpOp.eval64, IntCmpOp.eval, less_iff, forth, back, low]
  next other =>
    simp only [other, Ne.symm other, false_and, or_false] at forth back
    rcases order with rfl | rfl | rfl | rfl <;>
      simp only [IntCmpOp.eval64, IntCmpOp.eval, less_iff, forth, back]

/-- The comparison in three steps: the low halves, that the high halves are equal, and a strict
comparison of the high halves. -/
theorem eval64_order_strict {cmpOp : IntCmpOp}
    (order : cmpOp = .lt ∨ cmpOp = .le ∨ cmpOp = .gt ∨ cmpOp = .ge) :
    cmpOp.eval64 signed v w =
      ((if cmpOp = .lt ∨ cmpOp = .le then IntCmpOp.lt else .gt).eval signed
          ((v >>> 32).setWidth 32) ((w >>> 32).setWidth 32) ||
        ((v >>> 32).setWidth 32 == (w >>> 32).setWidth 32 &&
          cmpOp.eval false (v.setWidth 32) (w.setWidth 32))) := by
  rw [eval64_order signed v w order]
  split
  next same =>
    rcases order with rfl | rfl | rfl | rfl <;>
      simp [IntCmpOp.eval, less_iff, same]
  next other =>
    have apart : comparand signed ((v >>> 32).setWidth 32) ≠
        comparand signed ((w >>> 32).setWidth 32) := fun same => other (comparand_inj same)
    have total : ∀ {a b : Int}, a ≠ b → (!decide (b < a)) = decide (a < b) := by
      intro a b differ
      rw [← decide_not]
      exact decide_eq_decide.mpr ⟨fun h => by omega, fun h => by omega⟩
    rw [beq_eq_false_iff_ne.mpr other, Bool.false_and, Bool.or_false]
    rcases order with rfl | rfl | rfl | rfl
    · rfl
    · simp only [IntCmpOp.eval, less_iff]
      exact total apart
    · rfl
    · simp only [IntCmpOp.eval, less_iff]
      exact total (Ne.symm apart)

theorem eval64_eq : IntCmpOp.eq.eval64 signed v w =
    ((v >>> 32).setWidth 32 == (w >>> 32).setWidth 32 && v.setWidth 32 == w.setWidth 32) := by
  show (v == w) = _
  rw [Bool.eq_iff_iff, beq_iff_eq, eq_iff_halves, Bool.and_eq_true, beq_iff_eq, beq_iff_eq]

theorem eval64_ne : IntCmpOp.ne.eval64 signed v w =
    ((v >>> 32).setWidth 32 != (w >>> 32).setWidth 32 || v.setWidth 32 != w.setWidth 32) := by
  show (!(v == w)) = _
  have same := eval64_eq signed v w
  rw [show (v == w) = IntCmpOp.eq.eval64 signed v w from rfl, same, Bool.not_and]
  rfl

end

/-! ## What the ops write -/

section

variable {op : OpISetP} {sm : Nat} {env : Env} {dst : SSAValue} (x y : BitVec 32) (accum low : Bool)

theorem run_iSetP (isDst : op.dst = .ofSsa dst) (plain : op.ex = false)
    (first : env.getU32Src (op.srcs 0) = some x) (second : env.getU32Src (op.srcs 1) = some y)
    (isAccum : env.getPredSrc (op.srcs 2) = some accum)
    (isLow : env.getPredSrc (op.srcs 3) = some low) (ops : List BuilderOp) :
    BuilderOp.run sm env (.value (.iSetP op) :: ops) = BuilderOp.run sm (Function.update env dst
      (some (.pred (op.setOp.eval (op.cmpOp.eval op.cmpType.isSigned x y) accum)))) ops := by
  have isOp : (ValueOp.iSetP op).dst = .ofSsa dst := isDst
  refine Builder.run_result isOp ?_ ops
  show OpISetP.fold op sm env = _
  unfold OpISetP.fold
  rw [first, second, isAccum, isLow, plain]
  simp

/-- The extended form takes the result of the low halves where the high halves are equal. -/
theorem run_iSetP_ex (isDst : op.dst = .ofSsa dst) (ex : op.ex = true)
    (first : env.getU32Src (op.srcs 0) = some x) (second : env.getU32Src (op.srcs 1) = some y)
    (isAccum : env.getPredSrc (op.srcs 2) = some accum)
    (isLow : env.getPredSrc (op.srcs 3) = some low) (new : 70 ≤ sm)
    (order : op.cmpOp = .lt ∨ op.cmpOp = .le ∨ op.cmpOp = .gt ∨ op.cmpOp = .ge)
    (ops : List BuilderOp) :
    BuilderOp.run sm env (.value (.iSetP op) :: ops) = BuilderOp.run sm (Function.update env dst
      (some (.pred (op.setOp.eval (if x = y then low else op.cmpOp.eval op.cmpType.isSigned x y)
        accum)))) ops := by
  have relational : ¬ (op.cmpOp = .false ∨ op.cmpOp = .true) := by
    rcases order with is | is | is | is <;> rw [is] <;> decide
  have isOp : (ValueOp.iSetP op).dst = .ofSsa dst := isDst
  refine Builder.run_result isOp ?_ ops
  show OpISetP.fold op sm env = _
  unfold OpISetP.fold
  rw [first, second, isAccum, isLow, ex]
  simp only [relational, not_false_eq_true, and_true, true_and, Nat.not_lt.mpr new, if_false]
  show (if x = y then _ else _) = _
  split <;> rfl

end

namespace Builder

variable {b : Builder} {start : Env} {cmpType : IntCmpType} {cmpOp : IntCmpOp} {x y : Src}
  {p q : SSAValue × SSAValue} {v w : BitVec 64}

/-- The comparison of the low halves. -/
def lowCmp (b : Builder) (cmpOp : IntCmpOp) (p q : SSAValue × SSAValue) : BuilderOp :=
  .value (.iSetP { dst := .ofSsa (b.fresh .pred 0), setOp := .and, cmpOp, cmpType := .u32, ex := false
                   srcs := ![.ofSsa p.1, .ofSsa q.1, pTrue, pTrue] })

theorem isetp64_run {rest rest' : List SSAValue} (isX : x.asSsa = some (p.1 :: p.2 :: rest))
    (isY : y.asSsa = some (q.1 :: q.2 :: rest')) (relational : ¬ (cmpOp = .false ∨ cmpOp = .true)) :
    isetp64 cmpType cmpOp x y b = .ok (b.fresh .pred 1,
      if cmpOp = .eq ∨ cmpOp = .ne then b.emit 2 [lowCmp b cmpOp p q,
        .value (.iSetP { dst := .ofSsa (b.fresh .pred 1), setOp := if cmpOp = .eq then .and else .or
                         cmpOp, cmpType := .u32, ex := false
                         srcs := ![.ofSsa p.2, .ofSsa q.2, .ofSsa (b.fresh .pred 0), pTrue] })]
      else if 70 ≤ b.sm then b.emit 2 [lowCmp b cmpOp p q,
        .value (.iSetP { dst := .ofSsa (b.fresh .pred 1), setOp := .and, cmpOp, cmpType, ex := true
                         srcs := ![.ofSsa p.2, .ofSsa q.2, pTrue, .ofSsa (b.fresh .pred 0)] })]
      else b.emit 3 [lowCmp b cmpOp p q,
        .value (.iSetP { dst := .ofSsa (b.fresh .pred 2), setOp := .and, cmpOp := .eq
                         cmpType := .u32, ex := false
                         srcs := ![.ofSsa p.2, .ofSsa q.2, .ofSsa (b.fresh .pred 0), pTrue] }),
        .value (.iSetP { dst := .ofSsa (b.fresh .pred 1), setOp := .or
                         cmpOp := if cmpOp = .lt ∨ cmpOp = .le then .lt else .gt, cmpType
                         ex := false
                         srcs := ![.ofSsa p.2, .ofSsa q.2, .ofSsa (b.fresh .pred 2), pTrue] })]) := by
  unfold isetp64
  rw [pairOf_ran isX, pairOf_ran isY]
  cases cmpOp with
  | «false» => exact absurd (.inl rfl) relational
  | «true» => exact absurd (.inr rfl) relational
  | eq | ne => exact emit_two _ b 2 _ _
  | _ =>
    show (if 70 ≤ b.sm then _ else _ : BuilderM SSAValue) _ = _
    split
    next new => exact emit_two _ b 2 _ _
    next old => exact emit_three _ b 3 _ _ _

/-- What the comparison of the low halves leaves behind. -/
theorem run_lowCmp (first : Reads64 b start p x v) (second : Reads64 b start q y w)
    (ops : List BuilderOp) : BuilderOp.run b.sm (b.env start) (lowCmp b cmpOp p q :: ops) =
      BuilderOp.run b.sm (Function.update (b.env start) (b.fresh .pred 0)
        (some (.pred (cmpOp.eval false (v.setWidth 32) (w.setWidth 32))))) ops := by
  refine (run_iSetP _ _ true true rfl rfl first.low.value second.low.value rfl rfl ops).trans ?_
  rw [show PredSetOp.and.eval _ true = _ from Bool.and_true _]
  rfl

/-- The constant comparisons are refused. -/
theorem isetp64_refuses {rest rest' : List SSAValue} (isX : x.asSsa = some (p.1 :: p.2 :: rest))
    (isY : y.asSsa = some (q.1 :: q.2 :: rest')) (constant : cmpOp = .false ∨ cmpOp = .true) :
    isetp64 cmpType cmpOp x y b =
      .error (.panic "These don't make sense for the builder helper") := by
  unfold isetp64
  rw [pairOf_ran isX, pairOf_ran isY]
  rcases constant with rfl | rfl <;> rfl

/-- `isetp64` compares the two values with the six relational operators. -/
theorem isetp64_emits_relational (first : Reads64 b start p x v) (second : Reads64 b start q y w)
    (relational : ¬ (cmpOp = .false ∨ cmpOp = .true)) :
    Emits (isetp64 cmpType cmpOp x y) b fun dst b' =>
      b'.env start dst = some (.pred (cmpOp.eval64 cmpType.isSigned v w)) := by
  obtain ⟨rest, isX⟩ := first.isSsa
  obtain ⟨rest', isY⟩ := second.isSsa
  have ran : isetp64 cmpType cmpOp x y b = _ := isetp64_run isX isY relational
  have kept := (Kept.refl b start).update .pred 0
    (some (.pred (cmpOp.eval false (v.setWidth 32) (w.setWidth 32))))
  have isLow := getPredSrc_update_self (b.env start) (b.fresh .pred 0)
    (cmpOp.eval false (v.setWidth 32) (w.setWidth 32))
  have isNew : ∀ op : ValueOp, ∀ i, op.dst = .ofSsa (b.fresh .pred i) →
      ∀ r ∈ BuilderOp.writes (.value op), b.ssaAlloc.count < r.idx := by
    intro op i isDst r written
    have member : r ∈ op.dst.iterSsa := written
    rw [isDst] at member
    rw [List.mem_singleton.mp member]
    exact fresh_new b .pred i
  split at ran
  next equality =>
    refine Emits.of_run ran ?_ ?_
    · intro op member
      rcases List.mem_pair.mp member with rfl | rfl
      · exact isNew _ 0 rfl
      · exact isNew _ 1 rfl
    · rw [env_emit, run_lowCmp first second]
      refine (congrFun (run_iSetP _ _ _ true rfl rfl (first.high.kept kept) (second.high.kept kept)
        isLow rfl []) _).trans ((Function.update_self _ _ _).trans ?_)
      rcases equality with rfl | rfl
      · rw [eval64_eq]
        rfl
      · rw [eval64_ne]
        rfl
  next unequal =>
    have order : cmpOp = .lt ∨ cmpOp = .le ∨ cmpOp = .gt ∨ cmpOp = .ge := by
      cases cmpOp <;> simp at relational unequal ⊢
    split at ran
    next new =>
      refine Emits.of_run ran ?_ ?_
      · intro op member
        rcases List.mem_pair.mp member with rfl | rfl
        · exact isNew _ 0 rfl
        · exact isNew _ 1 rfl
      · rw [env_emit, run_lowCmp first second]
        refine (congrFun (run_iSetP_ex _ _ true _ rfl rfl (first.high.kept kept)
          (second.high.kept kept) rfl isLow new order []) _).trans
          ((Function.update_self _ _ _).trans ?_)
        rw [eval64_order _ _ _ order]
        exact congrArg (some <| Value.pred ·) (Bool.and_true _)
    next old =>
      refine Emits.of_run ran ?_ ?_
      · intro op member
        rcases List.mem_cons.mp member with rfl | member
        · exact isNew _ 0 rfl
        rcases List.mem_pair.mp member with rfl | rfl
        · exact isNew _ 2 rfl
        · exact isNew _ 1 rfl
      · rw [env_emit, run_lowCmp first second]
        refine (congrFun (run_iSetP _ _ _ true rfl rfl (first.high.kept kept)
          (second.high.kept kept) isLow rfl _) _).trans ?_
        have later := fun accum => kept.update .pred 2 (some (.pred accum))
        refine (congrFun (run_iSetP _ _ _ true rfl rfl (first.high.kept (later _))
          (second.high.kept (later _)) (getPredSrc_update_self _ _ _) rfl []) _).trans
          ((Function.update_self _ _ _).trans ?_)
        rw [eval64_order_strict _ _ _ order]
        rfl

/-- `isetp64` compares the two values, and refuses the two constant comparisons. -/
theorem isetp64_emits (cmpType : IntCmpType) (cmpOp : IntCmpOp) (first : Reads64 b start p x v)
    (second : Reads64 b start q y w) :
    (¬ (cmpOp = .false ∨ cmpOp = .true) → Emits (isetp64 cmpType cmpOp x y) b fun dst b' =>
      b'.env start dst = some (.pred (cmpOp.eval64 cmpType.isSigned v w))) ∧
    ((cmpOp = .false ∨ cmpOp = .true) → isetp64 cmpType cmpOp x y b =
      .error (.panic "These don't make sense for the builder helper")) := by
  obtain ⟨rest, isX⟩ := first.isSsa
  obtain ⟨rest', isY⟩ := second.isSsa
  exact ⟨isetp64_emits_relational first second, isetp64_refuses isX isY⟩

theorem isetp64_emits_less : Emits (isetp64 .i32 .lt (firstPair .none) (firstPair .none))
    { sm := 50, ssaAlloc := ⟨2⟩ } fun dst b' =>
      b'.env (fun x => some (.word (BitVec.ofNat 32 x.idx))) dst = some (.pred false) := by
  have reads := @firstPair_reads 50 0x200000001 (fun x => some (.word (BitVec.ofNat 32 x.idx)))
    rfl rfl
  exact (isetp64_emits .i32 .lt reads reads).1 (by decide)

/-- No comparison is emitted for a constant operator. -/
theorem isetp64_constant : ¬ Emits (isetp64 .u32 .«true» (firstPair .none) (firstPair .none))
    { sm := 75, ssaAlloc := ⟨2⟩ } fun dst b' => b'.env (fun _ => some (.word 0)) dst =
      some (.pred (IntCmpOp.«true».eval64 false 0 0)) := by
  rintro ⟨dst, b', ran, -⟩
  cases ran

end Builder

end CoralReef
