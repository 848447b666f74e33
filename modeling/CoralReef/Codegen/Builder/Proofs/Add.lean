import CoralReef.Codegen.Builder.Proofs.Shift
import Mathlib.Tactic.Linarith

/-!
# Sums of 64 bits

`iadd64` adds the low halves, then the high halves and the carries. A negated low half is a complement
and one, so a low sum can reach every multiple of `2 ^ 32` up to the number of negated operands.
-/

open List
open Function (update update_of_ne update_self)

namespace CoralReef

/-! ## What the ops write -/

section

variable {env : Env} (sm : Nat)

theorem addend_plain {src : Src} {v : BitVec 32} (reads : env.getU32Src src = some v)
    (plain : src.modifier = .none) : env.addend src = some v.toNat := by
  unfold Env.addend
  rw [reads, plain]
  rfl

theorem addend_iNeg {src : Src} {v : BitVec 32} (reads : env.getU32Src src = some v)
    (negated : src.modifier = .iNeg) : env.addend src = some ((~~~v).toNat + 1) := by
  unfold Env.addend
  rw [reads, negated]
  rfl

/-- The registers after `OpIAdd3`. -/
theorem exec_iAdd3 {x y z : Src} {m n k : Nat} (first : env.addend x = some m)
    (second : env.addend y = some n) (third : env.addend z = some k) (dst carry : SSAValue)
    (carry' : Dst) : BuilderOp.exec sm env (.iAdd3 {
        dsts := ![.ofSsa dst, .ofSsa carry, carry'], srcs := ![x, y, z] }) =
      assign (update (update env dst (sumWord (m + n + k))) carry
        (sumReaches (m + n + k) 1)) (carry'.iterSsa.map (·, sumReaches (m + n + k) 2)) := by
  have folded : ∀ i, OpIAdd3.foldAll { dsts := ![.ofSsa dst, .ofSsa carry, carry']
                                       srcs := ![x, y, z] } env i =
      if i = 0 then sumWord (m + n + k) else sumReaches (m + n + k) i := by
    intro i
    unfold OpIAdd3.foldAll
    show (env.addend x >>= fun x' => env.addend y >>= fun y' => env.addend z >>= _) = _
    rw [first, second, third]
    rfl
  show assign env (((List.finRange 3).map fun i => (_, OpIAdd3.foldAll _ env i)).flatMap _) = _
  simp only [folded]
  show assign env ([(dst, _)] ++ ([(carry, _)] ++ (carry'.iterSsa.map (·, _) ++ []))) = _
  rw [append_nil]
  rfl

theorem writes_iAdd3 (srcs : Fin 3 → Src) (dst carry : SSAValue) (carry' : Dst) :
    BuilderOp.writes (.iAdd3 { dsts := ![.ofSsa dst, .ofSsa carry, carry'], srcs }) =
      dst :: carry :: carry'.iterSsa := by
  show [dst] ++ ([carry] ++ (carry'.iterSsa ++ [])) = _
  rw [append_nil]
  rfl

theorem exec_iAdd3X {x y z p q : Src} {a b c : BitVec 32} {d d' : Bool}
    (first : env.getU32BnotSrc x = some a) (second : env.getU32BnotSrc y = some b)
    (third : env.getU32BnotSrc z = some c) (carried : env.getPredSrc p = some d)
    (carried' : env.getPredSrc q = some d') (dst : SSAValue) :
    BuilderOp.exec sm env (.iAdd3X { dsts := ![.ofSsa dst, .none, .none]
                                     srcs := ![x, y, z, p, q] }) =
      update env dst
        (sumWord (a.toNat + b.toNat + c.toNat + d.toNat + d'.toNat)) := by
  have folded : OpIAdd3X.foldAll { dsts := ![.ofSsa dst, .none, .none]
                                   srcs := ![x, y, z, p, q] } env 0 =
      sumWord (a.toNat + b.toNat + c.toNat + d.toNat + d'.toNat) := by
    unfold OpIAdd3X.foldAll
    show (env.getU32BnotSrc x >>= fun _ => env.getU32BnotSrc y >>= fun _ =>
      env.getU32BnotSrc z >>= fun _ => env.getPredSrc p >>= fun _ => env.getPredSrc q >>= _) = _
    rw [first, second, third, carried, carried']
    rfl
  rw [← folded]
  rfl

theorem exec_iAdd2 {x y : Src} {m n : Nat} (first : env.addend x = some m)
    (second : env.addend y = some n) (dst carry : SSAValue) : BuilderOp.exec sm env (.iAdd2 {
        dsts := ![.ofSsa dst, .ofSsa carry], srcs := ![x, y] }) =
      update (update env dst (sumWord (m + n))) carry (sumReaches (m + n) 1) := by
  have folded : ∀ i, OpIAdd2.foldAll { dsts := ![.ofSsa dst, .ofSsa carry], srcs := ![x, y] } env i =
      if i = 0 then sumWord (m + n) else sumReaches (m + n) 1 := by
    intro i
    unfold OpIAdd2.foldAll
    show (env.addend x >>= fun x' => env.addend y >>= _) = _
    rw [first, second]
    rfl
  show assign env (((List.finRange 2).map fun i => (_, OpIAdd2.foldAll _ env i)).flatMap _) = _
  simp only [folded]
  rfl

theorem exec_iAdd2X {x y p : Src} {a b : BitVec 32} {d : Bool}
    (first : env.getU32BnotSrc x = some a) (second : env.getU32BnotSrc y = some b)
    (carried : env.getCarrySrc p = some d) (dst : SSAValue) :
    BuilderOp.exec sm env (.iAdd2X { dsts := ![.ofSsa dst, .none], srcs := ![x, y, p] }) =
      update env dst (sumWord (a.toNat + b.toNat + d.toNat)) := by
  have folded : OpIAdd2X.foldAll { dsts := ![.ofSsa dst, .none], srcs := ![x, y, p] } env 0 =
      sumWord (a.toNat + b.toNat + d.toNat) := by
    unfold OpIAdd2X.foldAll
    show (env.getU32BnotSrc x >>= fun _ => env.getU32BnotSrc y >>= fun _ =>
      env.getCarrySrc p >>= _) = _
    rw [first, second, carried]
    rfl
  rw [← folded]
  rfl

end

/-! ## Halves -/

/-- The halves of 64 bits, as numbers. -/
theorem halves_toNat (v : BitVec 64) : v.toNat =
    ((v >>> 32).setWidth 32).toNat * 2 ^ 32 + (v.setWidth 32).toNat := by
  have inside := v.isLt
  rw [BitVec.toNat_setWidth, BitVec.toNat_setWidth, BitVec.toNat_ushiftRight,
    Nat.shiftRight_eq_div_pow]
  omega

namespace Builder

theorem pair_ofNat {env : Env} {pair : SSAValue × SSAValue} {low high : Nat}
    (isLow : env pair.1 = sumWord low) (isHigh : env pair.2 = sumWord high) (v : BitVec 64) :
    Pair env pair v ↔ v.toNat = high % 2 ^ 32 * 2 ^ 32 + low % 2 ^ 32 := by
  have whole := halves_toNat v
  have lowInside := (v.setWidth 32).isLt
  have highInside := ((v >>> 32).setWidth 32).isLt
  constructor
  · intro holds
    have sameLow : BitVec.ofNat 32 low = v.setWidth 32 := by
      simpa [sumWord] using isLow.symm.trans holds.low
    have sameHigh : BitVec.ofNat 32 high = (v >>> 32).setWidth 32 := by
      simpa [sumWord] using isHigh.symm.trans holds.high
    rw [whole, ← sameLow, ← sameHigh, BitVec.toNat_ofNat, BitVec.toNat_ofNat]
  · intro same
    constructor
    · rw [isLow]
      refine congrArg (some <| Value.word ·) (BitVec.eq_of_toNat_eq ?_)
      rw [BitVec.toNat_ofNat]
      omega
    · rw [isHigh]
      refine congrArg (some <| Value.word ·) (BitVec.eq_of_toNat_eq ?_)
      rw [BitVec.toNat_ofNat]
      omega

/-! ## The operands -/

/-- An operand of `iadd64`: zero, or a pair of allocated registers, and whether it is negated. -/
inductive Operand64 (b : Builder) (start : Env) (src : Src) : BitVec 64 → Prop where
  | zero (isZero : src.reference = .zero)
      (modifier : src.modifier = .none ∨ src.modifier = .iNeg) : Operand64 b start src 0
  | plain {lo hi : SSAValue} {rest : List SSAValue} {v : BitVec 64}
      (isSsa : src.reference = .ssa (lo :: hi :: rest)) (modifier : src.modifier = .none)
      (low : b.Reads start (.ofSsa lo) (v.setWidth 32))
      (high : b.Reads start (.ofSsa hi) ((v >>> 32).setWidth 32)) : Operand64 b start src v
  | negated {lo hi : SSAValue} {rest : List SSAValue} {v : BitVec 64}
      (isSsa : src.reference = .ssa (lo :: hi :: rest)) (modifier : src.modifier = .iNeg)
      (low : b.Reads start (.ofSsa lo) (v.setWidth 32))
      (high : b.Reads start (.ofSsa hi) ((v >>> 32).setWidth 32)) : Operand64 b start src (-v)

/-- An operand that is negated and whose low half is zero. -/
def negatedZeroLow (env : Env) (src : Src) : Bool :=
  decide (src.modifier = .iNeg) &&
    match src.reference with
    | .ssa (lo :: _) => Value.word? (env lo) == some 0
    | _ => false

/-- What the halves of an operand add to the sums. -/
structure Halves (b : Builder) (start : Env) (src : Src) (v : BitVec 64) (low high : Src) (l : Nat)
    (h : BitVec 32) : Prop where
  split : splitIadd64Src src = .ok (low, high)
  lowKnown : b.Known low
  highKnown : b.Known high
  isLow : (b.env start).addend low = some l
  isHigh : (b.env start).getU32BnotSrc high = some h
  value : (h.toNat * 2 ^ 32 + l) % 2 ^ 64 = v.toNat
  most : l ≤ 2 ^ 32
  full : l = 2 ^ 32 ↔ negatedZeroLow (b.env start) src = true
  zero : src.isZero = true → l = 0 ∧ h = 0

/-- The complement of the high half and the negated low half make up the negation. -/
theorem neg_halves (v : BitVec 64) : ((~~~((v >>> 32).setWidth 32)).toNat * 2 ^ 32 +
    ((~~~(v.setWidth 32)).toNat + 1)) % 2 ^ 64 = (-v).toNat := by
  have whole := halves_toNat v
  have low := (v.setWidth 32).isLt
  have high := ((v >>> 32).setWidth 32).isLt
  rw [BitVec.toNat_not, BitVec.toNat_not, BitVec.toNat_neg, whole]
  omega

theorem Operand64.halves {b : Builder} {start : Env} {src : Src} {v : BitVec 64}
    (operand : Operand64 b start src v) : ∃ low high l h, Halves b start src v low high l h := by
  obtain ⟨reference, modifier, swizzle⟩ := src
  cases operand with
  | zero isZero modifier =>
    simp only at isZero
    subst isZero
    have known : b.Known Builder.zero := fun x member => nomatch member
    refine ⟨_, _, 0, 0, rfl, known, known, rfl, rfl, rfl, Nat.zero_le _, ?_, fun _ => ⟨rfl, rfl⟩⟩
    simp [negatedZeroLow]
  | @plain lo hi rest v isSsa modifier low high =>
    simp only at isSsa modifier
    subst isSsa modifier
    have lowInside := (v.setWidth 32).isLt
    refine ⟨.ofSsa lo, .ofSsa hi, _, (v >>> 32).setWidth 32, rfl, low.known, high.known, addend_plain low.value rfl, ?_,
      ?_, Nat.le_of_lt lowInside, ?_, fun isZero => nomatch isZero⟩
    · exact congrArg (Option.map _) high.value
    · rw [← halves_toNat]
      exact Nat.mod_eq_of_lt v.isLt
    · constructor
      · intro full
        exact absurd full (Nat.ne_of_lt lowInside)
      · intro negated
        exact nomatch negated
  | @negated lo hi rest v isSsa modifier low high =>
    simp only at isSsa modifier
    subst isSsa modifier
    refine ⟨{ Src.ofSsa lo with modifier := .iNeg }, { Src.ofSsa hi with modifier := .bNot }, _,
      ~~~((v >>> 32).setWidth 32), rfl, low.known, high.known, addend_iNeg low.value rfl, ?_, neg_halves v, ?_, ?_,
      fun isZero => nomatch isZero⟩
    · exact congrArg (Option.map _) high.value
    · exact (~~~(v.setWidth 32)).isLt
    · have isWord : Value.word? (b.env start lo) = some (v.setWidth 32) := low.value
      have inside := (v.setWidth 32).isLt
      simp only [negatedZeroLow, isWord, decide_true, Bool.true_and, beq_iff_eq,
        Option.some.injEq, BitVec.toNat_not]
      constructor
      · intro full
        apply BitVec.eq_of_toNat_eq
        show _ = 0
        omega
      · intro isZero
        rw [isZero]
        rfl

/-! ## The sum -/

theorem iadd3_run {b : Builder} {x y z x₀ x₁ y₀ y₁ z₀ z₁ : Src}
    (splitX : splitIadd64Src x = .ok (x₀, x₁)) (splitY : splitIadd64Src y = .ok (y₀, y₁))
    (splitZ : splitIadd64Src z = .ok (z₀, z₁)) (new : 70 ≤ b.sm) :
    iadd64 x y z b = .ok ((b.fresh .gpr 0, b.fresh .gpr 1),
      if !x.isZero && !y.isZero && !z.isZero then b.emit 4 [
        .iAdd3 { dsts := ![.ofSsa (b.fresh .gpr 0), .ofSsa (b.fresh .pred 2), .ofSsa (b.fresh .pred 3)]
                 srcs := ![x₀, y₀, z₀] },
        .iAdd3X { dsts := ![.ofSsa (b.fresh .gpr 1), .none, .none]
                  srcs := ![x₁, y₁, z₁, .ofSsa (b.fresh .pred 2), .ofSsa (b.fresh .pred 3)] }]
      else b.emit 3 [
        .iAdd3 { dsts := ![.ofSsa (b.fresh .gpr 0), .ofSsa (b.fresh .pred 2), .none]
                 srcs := ![x₀, y₀, z₀] },
        .iAdd3X { dsts := ![.ofSsa (b.fresh .gpr 1), .none, .none]
                  srcs := ![x₁, y₁, z₁, .ofSsa (b.fresh .pred 2), pFalse] }]) := by
  unfold iadd64
  rw [splitX, splitY, splitZ]
  show (if 70 ≤ b.sm then _ else _ : BuilderM (SSAValue × SSAValue)) _ = _
  rw [if_pos new]
  split
  · exact emit_two _ b 4 _ _
  · exact emit_two _ b 3 _ _

theorem iadd2_run {b : Builder} {x y z x₀ x₁ y₀ y₁ : Src}
    (splitX : splitIadd64Src x = .ok (x₀, x₁)) (splitY : splitIadd64Src y = .ok (y₀, y₁))
    (old : b.sm < 70) (isZero : z.isZero = true) :
    iadd64 x y z b = .ok ((b.fresh .gpr 0, b.fresh .gpr 1), b.emit 3 [
      .iAdd2 { dsts := ![.ofSsa (b.fresh .gpr 0), .ofSsa (b.fresh .carry 2)], srcs := ![x₀, y₀] },
      .iAdd2X { dsts := ![.ofSsa (b.fresh .gpr 1), .none]
                srcs := ![x₁, y₁, .ofSsa (b.fresh .carry 2)] }]) := by
  unfold iadd64
  rw [splitX, splitY, isZero]
  show (if 70 ≤ b.sm then _ else _ : BuilderM (SSAValue × SSAValue)) _ = _
  rw [if_neg (Nat.not_le.mpr old)]
  exact emit_two _ b 3 _ _

section

variable {b : Builder} {start : Env} {x y z x₀ x₁ y₀ y₁ z₀ z₁ : Src} {v w u : BitVec 64}
  {l m k : Nat} {h g f : BitVec 32}

/-- The two instructions of the later chips. The second carry goes to a register of its own, or
nowhere. -/
theorem iadd3_sums_of {n : Nat} {carry : Dst} {carry' : Src} {carried : Bool}
    (first : Halves b start x v x₀ x₁ l h) (second : Halves b start y w y₀ y₁ m g)
    (third : Halves b start z u z₀ z₁ k f)
    (ran : iadd64 x y z b = .ok ((b.fresh .gpr 0, b.fresh .gpr 1), b.emit n [
      .iAdd3 { dsts := ![.ofSsa (b.fresh .gpr 0), .ofSsa (b.fresh .pred 2), carry]
               srcs := ![x₀, y₀, z₀] },
      .iAdd3X { dsts := ![.ofSsa (b.fresh .gpr 1), .none, .none]
                srcs := ![x₁, y₁, z₁, .ofSsa (b.fresh .pred 2), carry'] }]))
    (isNew : ∀ r ∈ carry.iterSsa, r = b.fresh .pred 3)
    (reads : ∀ env, Env.getPredSrc (assign env (carry.iterSsa.map (·, sumReaches (l + m + k) 2)))
      carry' = some carried) :
    Emits (iadd64 x y z) b fun dst b' => b'.env start dst.1 = sumWord (l + m + k) ∧
      b'.env start dst.2 = sumWord (h.toNat + g.toNat + f.toNat +
        (decide (1 * 2 ^ 32 ≤ l + m + k)).toNat + carried.toNat) := by
  have low := exec_iAdd3 b.sm first.isLow second.isLow third.isLow
    (b.fresh .gpr 0) (b.fresh .pred 2) carry
  have other : ∀ {env : Env} {r : SSAValue}, r ≠ b.fresh .pred 3 →
      assign env (carry.iterSsa.map (·, sumReaches (l + m + k) 2)) r = env r := by
    intro env r differs
    refine BuilderOp.assign_frame fun write member => ?_
    obtain ⟨r', isCarry, rfl⟩ := mem_map.mp member
    rw [isNew r' isCarry]
    exact Ne.symm differs
  refine Emits.of_run ran ?_ ?_
  · intro op member r written
    rcases mem_pair.mp member with rfl | rfl
    · rw [writes_iAdd3] at written
      rcases mem_cons.mp written with rfl | written
      · exact fresh_new b .gpr 0
      rcases mem_cons.mp written with rfl | written
      · exact fresh_new b .pred 2
      · rw [isNew r written]
        exact fresh_new b .pred 3
    · rw [mem_singleton.mp written]
      exact fresh_new b .gpr 1
  · have old : ∀ r : SSAValue, r.idx ≤ b.ssaAlloc.count →
        BuilderOp.exec b.sm (b.env start) (.iAdd3 {
          dsts := ![.ofSsa (b.fresh .gpr 0), .ofSsa (b.fresh .pred 2), carry]
          srcs := ![x₀, y₀, z₀] }) r = b.env start r := by
      intro r allocated
      have differs : ∀ file i, r ≠ b.fresh file i := by
        rintro file i rfl
        exact absurd allocated (Nat.not_le.mpr (fresh_new b file i))
      rw [low, other (differs _ _), update_of_ne (differs _ _),
        update_of_ne (differs _ _)]
    rw [env_emit]
    have high := exec_iAdd3X b.sm ((first.highKnown.getU32BnotSrc old).trans first.isHigh)
      ((second.highKnown.getU32BnotSrc old).trans second.isHigh)
      ((third.highKnown.getU32BnotSrc old).trans third.isHigh)
      (p := .ofSsa (b.fresh .pred 2)) (d := decide (1 * 2 ^ 32 ≤ l + m + k)) ?_
      ((congrArg (Env.getPredSrc · carry') low).trans (reads _)) (b.fresh .gpr 1)
    · rw [BuilderOp.run_two, high]
      constructor
      · rw [update_of_ne (fresh_ne b _ _ Nat.zero_ne_one), low,
          other (fresh_ne b _ _ (by omega)), update_of_ne (fresh_ne b _ _ (by omega))]
        exact update_self _ _ _
      · exact update_self _ _ _
    · rw [low]
      show (Value.pred? (assign _ _ (b.fresh .pred 2))).map _ = _
      rw [other (fresh_ne b _ _ (by omega)), update_self]
      exact congrArg some (Bool.bne_false _)

/-- The sums of the halves on the later chips: the second carry is passed on if no operand is known
to be zero. -/
theorem iadd3_sums (first : Halves b start x v x₀ x₁ l h) (second : Halves b start y w y₀ y₁ m g)
    (third : Halves b start z u z₀ z₁ k f) (new : 70 ≤ b.sm) :
    Emits (iadd64 x y z) b fun dst b' => b'.env start dst.1 = sumWord (l + m + k) ∧
      b'.env start dst.2 = sumWord (h.toNat + g.toNat + f.toNat +
        (decide (1 * 2 ^ 32 ≤ l + m + k)).toNat +
        ((!x.isZero && !y.isZero && !z.isZero) && decide (2 * 2 ^ 32 ≤ l + m + k)).toNat) := by
  have ran := iadd3_run first.split second.split third.split new
  cases is3Src : !x.isZero && !y.isZero && !z.isZero with
  | true =>
    rw [if_pos is3Src] at ran
    refine iadd3_sums_of first second third ran (fun r member => mem_singleton.mp member) ?_
    intro env
    show (Value.pred? (update env _ _ _)).map _ = _
    rw [update_self]
    exact congrArg some (Bool.bne_false _)
  | false =>
    rw [if_neg (is3Src ▸ Bool.false_ne_true)] at ran
    exact iadd3_sums_of first second third ran (fun r member => nomatch member) fun env => rfl

/-- The sums of the halves on the earlier chips. -/
theorem iadd2_sums (first : Halves b start x v x₀ x₁ l h) (second : Halves b start y w y₀ y₁ m g)
    (old : b.sm < 70) (isZero : z.isZero = true) :
    Emits (iadd64 x y z) b fun dst b' => b'.env start dst.1 = sumWord (l + m) ∧
      b'.env start dst.2 = sumWord (h.toNat + g.toNat + (decide (1 * 2 ^ 32 ≤ l + m)).toNat) := by
  have low := exec_iAdd2 b.sm first.isLow second.isLow (b.fresh .gpr 0) (b.fresh .carry 2)
  refine Emits.of_run (iadd2_run first.split second.split old isZero) ?_ ?_
  · intro op member r written
    rcases mem_pair.mp member with rfl | rfl
    · rcases mem_pair.mp written with rfl | rfl
      · exact fresh_new b .gpr 0
      · exact fresh_new b .carry 2
    · rw [mem_singleton.mp written]
      exact fresh_new b .gpr 1
  · have kept : ∀ r : SSAValue, r.idx ≤ b.ssaAlloc.count →
        BuilderOp.exec b.sm (b.env start) (.iAdd2 {
          dsts := ![.ofSsa (b.fresh .gpr 0), .ofSsa (b.fresh .carry 2)]
          srcs := ![x₀, y₀] }) r = b.env start r := by
      intro r allocated
      have differs : ∀ file i, r ≠ b.fresh file i := by
        rintro file i rfl
        exact absurd allocated (Nat.not_le.mpr (fresh_new b file i))
      rw [low, update_of_ne (differs _ _), update_of_ne (differs _ _)]
    rw [env_emit]
    have high := exec_iAdd2X b.sm ((first.highKnown.getU32BnotSrc kept).trans first.isHigh)
      ((second.highKnown.getU32BnotSrc kept).trans second.isHigh)
      (p := .ofSsa (b.fresh .carry 2)) (d := decide (1 * 2 ^ 32 ≤ l + m)) ?_ (b.fresh .gpr 1)
    · rw [BuilderOp.run_two, high]
      constructor
      · rw [update_of_ne (fresh_ne b _ _ Nat.zero_ne_one), low,
          update_of_ne (fresh_ne b _ _ (by omega))]
        exact update_self _ _ _
      · exact update_self _ _ _
    · rw [low]
      have isCarry := update_self (b.fresh .carry 2) (sumReaches (l + m) 1)
        (update (b.env start) (b.fresh .gpr 0) (sumWord (l + m)))
      exact congrArg Value.pred? isCarry

end

/-- The carries that are passed on make up the low sum, unless it reaches one more. -/
theorem carries_exact {s high carries : Nat} {more : Bool} (most : s ≤ (if more then 3 else 2) * 2 ^ 32)
    (isCarries : carries = (decide (1 * 2 ^ 32 ≤ s)).toNat + (more && decide (2 * 2 ^ 32 ≤ s)).toNat) :
    ((high * 2 ^ 32 + s) % 2 ^ 64 = (high + carries) % 2 ^ 32 * 2 ^ 32 + s % 2 ^ 32 ↔
      s < (if more then 3 else 2) * 2 ^ 32) := by
  subst isCarries
  cases more with
  | true =>
    simp only [if_true, Bool.true_and] at most ⊢
    by_cases one : 1 * 2 ^ 32 ≤ s <;> by_cases two : 2 * 2 ^ 32 ≤ s <;>
      simp only [one, two, decide_true, decide_false, Bool.toNat_true, Bool.toNat_false] <;> omega
  | false =>
    simp only [Bool.false_eq_true, if_false, Bool.false_and, Bool.toNat_false] at most ⊢
    by_cases one : 1 * 2 ^ 32 ≤ s <;>
      simp only [one, decide_true, decide_false, Bool.toNat_true, Bool.toNat_false] <;> omega

/-- What `iadd64` computes: the sum, unless the low halves of too many negated operands are zero. -/
theorem iadd64_emits {b : Builder} {start : Env} {x y z : Src} {v w u : BitVec 64}
    (first : Operand64 b start x v) (second : Operand64 b start y w) (third : Operand64 b start z u)
    (older : b.sm < 70 → z.isZero = true) :
    Emits (iadd64 x y z) b fun dst b' => Pair (b'.env start) dst (v + w + u) ↔
      [x, y, z].countP (negatedZeroLow (b.env start)) <
        if !x.isZero && !y.isZero && !z.isZero then 3 else 2 := by
  obtain ⟨x₀, x₁, l, h, first⟩ := first.halves
  obtain ⟨y₀, y₁, m, g, second⟩ := second.halves
  obtain ⟨z₀, z₁, k, f, third⟩ := third.halves
  have counted : ∀ {src v low high l h}, Halves b start src v low high l h →
      (if negatedZeroLow (b.env start) src = true then 1 else 0) = if l = 2 ^ 32 then 1 else 0 := by
    intro src v low high l h halves
    simp only [halves.full]
  have total : (v + w + u).toNat =
      ((h.toNat + g.toNat + f.toNat) * 2 ^ 32 + (l + m + k)) % 2 ^ 64 := by
    rw [BitVec.toNat_add, BitVec.toNat_add, ← first.value, ← second.value, ← third.value]
    omega
  have firstMost := first.most
  have secondMost := second.most
  have thirdMost := third.most
  generalize isMore : (!x.isZero && !y.isZero && !z.isZero) = more
  have oneZero : more = false → l = 0 ∨ m = 0 ∨ k = 0 := by
    intro isFalse
    rw [isFalse, Bool.and_eq_false_iff, Bool.and_eq_false_iff] at isMore
    rcases isMore with (isZero | isZero) | isZero <;> rw [Bool.not_eq_false'] at isZero
    · exact .inl (first.zero isZero).1
    · exact .inr (.inl (second.zero isZero).1)
    · exact .inr (.inr (third.zero isZero).1)
  have most : l + m + k ≤ (if more then 3 else 2) * 2 ^ 32 := by
    cases more with
    | true => simp only [if_true]; omega
    | false =>
      have := oneZero rfl
      simp only [Bool.false_eq_true, if_false]
      omega
  have few : [x, y, z].countP (negatedZeroLow (b.env start)) < (if more then 3 else 2) ↔
      l + m + k < (if more then 3 else 2) * 2 ^ 32 := by
    simp only [countP_cons, countP_nil, counted first, counted second, counted third]
    cases more with
    | true =>
      simp only [if_true]
      split_ifs <;> omega
    | false =>
      have := oneZero rfl
      simp only [Bool.false_eq_true, if_false]
      split_ifs <;> omega
  rcases Nat.lt_or_ge b.sm 70 with old | new
  · have isZero := older old
    obtain ⟨noLow, noHigh⟩ := third.zero isZero
    have isFalse : more = false := by
      rw [← isMore, isZero]
      exact Bool.and_false _
    subst isFalse noLow noHigh
    refine (iadd2_sums first second old isZero).mono ?_
    rintro dst b' - ⟨sameSm, low, high⟩
    refine ⟨sameSm, (pair_ofNat low high _).trans ?_⟩
    rw [total, few]
    exact carries_exact most rfl
  · have sums := iadd3_sums first second third new
    rw [isMore] at sums
    refine sums.mono ?_
    rintro dst b' - ⟨sameSm, low, high⟩
    rw [Nat.add_assoc] at high
    refine ⟨sameSm, (pair_ofNat low high _).trans ?_⟩
    rw [total, few]
    exact carries_exact most rfl

theorem Operand64.ineg {b : Builder} {start : Env} {src : Src} {v : BitVec 64}
    (operand : Operand64 b start src v) : ∃ src', src.ineg = .ok src' ∧ Operand64 b start src' (-v) := by
  obtain ⟨reference, modifier, swizzle⟩ := src
  cases operand with
  | zero isZero modifier =>
    show ∃ src', _ ∧ Operand64 b start src' 0
    rcases modifier with isNone | isNeg
    · simp only at isNone
      subst isNone
      exact ⟨_, rfl, .zero isZero (.inr rfl)⟩
    · simp only at isNeg
      subst isNeg
      exact ⟨_, rfl, .zero isZero (.inl rfl)⟩
  | plain isSsa modifier low high =>
    simp only at modifier
    subst modifier
    exact ⟨_, rfl, .negated isSsa rfl low high⟩
  | negated isSsa modifier low high =>
    simp only at modifier
    subst modifier
    rw [BitVec.neg_neg]
    exact ⟨_, rfl, .plain isSsa rfl low high⟩

/-- The sums of one operand are right. -/
theorem ineg64_emits {b : Builder} {start : Env} {x : Src} {v : BitVec 64}
    (operand : Operand64 b start x v) :
    Emits (ineg64 x) b fun dst b' => Pair (b'.env start) dst (-v) := by
  obtain ⟨x', inegs, negated⟩ := operand.ineg
  have zeros : Operand64 b start zero 0 := .zero rfl (.inl rfl)
  refine Straight.Emits.lift_bind inegs ?_
  refine (iadd64_emits zeros negated zeros fun _ => rfl).mono ?_
  rintro dst b' - ⟨sameSm, exact⟩
  have sum : 0 + -v + 0 = -v := by simp
  rw [sum] at exact
  refine ⟨sameSm, exact.mpr ?_⟩
  have one : [zero, x', zero].countP (negatedZeroLow (b.env start)) ≤ 1 := by
    show [x', zero].countP _ ≤ 1
    rw [countP_cons, show [zero].countP (negatedZeroLow (b.env start)) = 0 from rfl]
    split <;> decide
  exact Nat.lt_succ_of_le one

/-- `iadd64` computes the sum of its operands, negated or not, unless all three, or two where one is
known to be zero, are negated with a zero low half. The negation of one operand is always right. -/
theorem iadd64_exact_iff {b : Builder} {start : Env} {x y z : Src} {v w u : BitVec 64}
    (first : Operand64 b start x v) (second : Operand64 b start y w) (third : Operand64 b start z u)
    (older : b.sm < 70 → z.isZero = true) :
    Emits (iadd64 x y z) b (fun dst b' => Pair (b'.env start) dst (v + w + u) ↔
      [x, y, z].countP (negatedZeroLow (b.env start)) <
        if !x.isZero && !y.isZero && !z.isZero then 3 else 2) ∧
    Emits (ineg64 x) b fun dst b' => Pair (b'.env start) dst (-v) :=
  ⟨iadd64_emits first second third older, ineg64_emits first⟩

section

theorem firstPair_operands {sm : Nat} {v : BitVec 64} {start : Env}
    (low : start ⟨.gpr, 1⟩ = some (.word (v.setWidth 32)))
    (high : start ⟨.gpr, 2⟩ = some (.word ((v >>> 32).setWidth 32))) :
    Operand64 { sm, ssaAlloc := ⟨2⟩ } start (firstPair .none) v ∧
      Operand64 { sm, ssaAlloc := ⟨2⟩ } start (firstPair .iNeg) (-v) :=
  have reads := firstPair_reads low high
  ⟨.plain rfl rfl reads.low reads.high, .negated rfl rfl reads.low reads.high⟩

/-- The sum of a number and its negation. -/
theorem iadd64_exact_iff_cancel :
    Emits (iadd64 (firstPair .none) (firstPair .iNeg) zero) { sm := 75, ssaAlloc := ⟨2⟩ }
      (fun dst b' => Pair (b'.env fun x => some (.word (BitVec.ofNat 32 x.idx))) dst 0 ↔ 0 < 2) ∧
    Emits (ineg64 (firstPair .none)) { sm := 75, ssaAlloc := ⟨2⟩ }
      fun dst b' => Pair (b'.env fun x => some (.word (BitVec.ofNat 32 x.idx))) dst
        (-0x200000001) := by
  have operands := @firstPair_operands 75 0x200000001
    (fun x => some (.word (BitVec.ofNat 32 x.idx))) rfl rfl
  exact iadd64_exact_iff operands.1 operands.2 (.zero rfl (.inl rfl)) fun _ => rfl

/-- Zero negated twice does not add up to zero. -/
theorem iadd64_negated_zeros :
    ¬ Emits (iadd64 (firstPair .iNeg) (firstPair .iNeg) zero) { sm := 75, ssaAlloc := ⟨2⟩ }
      fun dst b' => Pair (b'.env fun _ => some (.word 0)) dst (-0 + -0 + 0) := by
  rintro ⟨dst, b', ran, -, -, sum⟩
  have operand := (@firstPair_operands 75 0 (fun _ => some (.word 0)) rfl rfl).2
  obtain ⟨dst', b'', ran', -, -, exact⟩ :=
    iadd64_emits (z := zero) operand operand (.zero rfl (.inl rfl)) fun _ => rfl
  cases ran.symm.trans ran'
  exact absurd (exact.mp sum) (by decide)

end

end Builder

/-!
## Shifted sums of 64 bits

`lea64` shifts the first operand into the second. A shift by 32 or more leaves the low half of the
second operand as it is.
-/

/-! ### The halves of a shifted sum -/

section

variable (v w : BitVec 64)

theorem low_add : (v + w).setWidth 32 = v.setWidth 32 + w.setWidth 32 :=
  BitVec.setWidth_add v w (by decide)

/-- The high half of a sum takes the carry of the low half. -/
theorem high_add : ((v + w) >>> 32).setWidth 32 =
    (v >>> 32).setWidth 32 + (w >>> 32).setWidth 32 +
      (if 2 ^ 32 ≤ (v.setWidth 32).toNat + (w.setWidth 32).toNat then 1 else 0) := by
  have first := halves_toNat v
  have second := halves_toNat w
  have sum := halves_toNat (v + w)
  have low := congrArg BitVec.toNat (low_add v w)
  have inside := ((v + w) >>> 32 |>.setWidth 32).isLt
  rw [BitVec.toNat_add] at sum low
  apply BitVec.eq_of_toNat_eq
  split <;> simp only [BitVec.toNat_add, BitVec.ofNat_eq_ofNat, BitVec.toNat_ofNat] <;> omega

variable {n : Nat}

theorem low_shift_high (least : 32 ≤ n) : (v <<< n).setWidth 32 = 0 := by
  apply BitVec.eq_of_getLsbD_eq
  intro i inside
  rw [BitVec.getLsbD_setWidth, BitVec.getLsbD_shiftLeft]
  simp [show i < n by omega]

theorem high_shift_high (least : 32 ≤ n) :
    ((v <<< n) >>> 32).setWidth 32 = v.setWidth 32 <<< (n - 32) := by
  apply BitVec.eq_of_getLsbD_eq
  intro i inside
  rw [BitVec.getLsbD_setWidth, BitVec.getLsbD_ushiftRight, BitVec.getLsbD_shiftLeft,
    BitVec.getLsbD_shiftLeft, BitVec.getLsbD_setWidth]
  by_cases less : i < n - 32
  · simp [less, show 32 + i < n by omega]
  · simp [less, inside, show 32 + i < 64 by omega, show ¬ 32 + i < n by omega,
      show i - (n - 32) = 32 + i - n by omega, show 32 + i - n < 32 by omega]

theorem low_shift_low : (v <<< n).setWidth 32 = v.setWidth 32 <<< n := by
  conv_lhs => rw [eq_halves v]
  exact low_shiftLeft _ _

/-- What a shift moves into the high half. -/
theorem high_shift_low (less : n < 32) :
    ((v <<< n) >>> 32).setWidth 32 = (v >>> (32 - n)).setWidth 32 := by
  apply BitVec.eq_of_getLsbD_eq
  intro i inside
  rw [BitVec.getLsbD_setWidth, BitVec.getLsbD_ushiftRight, BitVec.getLsbD_shiftLeft,
    BitVec.getLsbD_setWidth, BitVec.getLsbD_ushiftRight]
  simp [show 32 + i < 64 by omega, show ¬ 32 + i < n by omega,
    show 32 - n + i = 32 + i - n by omega]

end

/-! ## What the ops write -/

section

variable {env : Env} (sm : Nat) {n : Nat} {a b c : Src} {x y z : BitVec 32}

/-- The two results of `OpLea`. -/
theorem exec_lea (first : env.getU32Src a = some x) (second : env.getU32Src b = some y)
    (third : env.getU32Src c = some z) (plain : b.modifier = .none) (inside : n < 32) (dst : SSAValue)
    (carry : Dst) :
    BuilderOp.exec sm env (.lea { dsts := ![.ofSsa dst, carry], srcs := ![a, b, c], dstHigh := false
                                  shift := n, intermediateMod := .none }) =
      assign (update env dst (some (.word (x <<< n + y))))
        (carry.iterSsa.map (·, some (.pred (2 ^ 32 ≤ (x <<< n).toNat + y.toNat)))) := by
  have folded : ∀ i, OpLea.foldAll { dsts := ![.ofSsa dst, carry], srcs := ![a, b, c]
                                     dstHigh := false, shift := n, intermediateMod := .none } env i =
      if i = 0 then some (.word (x <<< n + y))
      else some (.pred (2 ^ 32 ≤ (x <<< n).toNat + y.toNat)) := by
    intro i
    unfold OpLea.foldAll
    show (env.getU32Src a >>= fun _ => env.getU32Src b >>= fun _ => env.getU32Src c >>= _) = _
    rw [first, second, third]
    have shifted : leaShift false n x z = some (x <<< n) := by
      unfold leaShift
      rw [if_neg Bool.false_ne_true, if_pos inside]
    show (leaShift false n x z >>= fun _ => _ >>= fun _ =>
      (Option.map _ b.modifier.isINeg.toOption) >>= _) = _
    rw [shifted, plain]
    show some (if i = 0 then _ else _) = _
    split <;> rfl
  show assign env (((List.finRange 2).map fun i => (_, OpLea.foldAll _ env i)).flatMap _) = _
  simp only [folded]
  show assign env ([(dst, _)] ++ (carry.iterSsa.map (·, _) ++ [])) = _
  rw [append_nil]
  rfl

theorem exec_leaX {p : Src} {carry : Bool} (first : env.getU32Src a = some x)
    (second : env.getU32Src b = some y) (third : env.getU32Src c = some z)
    (carried : env.getPredSrc p = some carry) (plain : b.modifier = .none) (inside : n ≤ 32)
    (dst : SSAValue) :
    BuilderOp.exec sm env (.leaX { dsts := ![.ofSsa dst, .none], srcs := ![a, b, c, p]
                                   dstHigh := true, shift := n, intermediateMod := .none }) =
      update env dst (some (.word (((z ++ x) >>> (32 - n)).setWidth 32 + y +
        (if carry then 1 else 0)))) := by
  have folded : OpLeaX.foldAll { dsts := ![.ofSsa dst, .none], srcs := ![a, b, c, p]
                                 dstHigh := true, shift := n, intermediateMod := .none } env 0 =
      some (.word (((z ++ x) >>> (32 - n)).setWidth 32 + y + (if carry then 1 else 0))) := by
    unfold OpLeaX.foldAll
    show (env.getU32Src a >>= fun _ => env.getU32Src b >>= fun _ => env.getU32Src c >>= fun _ =>
      env.getPredSrc p >>= _) = _
    rw [first, second, third, carried]
    have shifted : leaShift true n x z = some (((z ++ x) >>> (32 - n)).setWidth 32) := by
      unfold leaShift
      rw [if_pos rfl, if_pos inside]
    show (leaShift true n x z >>= fun _ => _ >>= fun _ =>
      (Option.map _ b.modifier.isBNot.toOption) >>= _) = _
    rw [shifted, plain]
    rfl
  rw [← folded]
  rfl

end

namespace Builder

variable {b : Builder} {start : Env} {x y : Src} {p q : SSAValue × SSAValue} {v w : BitVec 64}
  {shift : Nat}

theorem isUnmodified_of_asSsa {src : Src} {vec : List SSAValue} (isSsa : src.asSsa = some vec) :
    src.isUnmodified = true := by
  unfold Src.asSsa at isSsa
  split at isSsa
  next plain => exact plain
  next _ => cases isSsa

theorem lea64_run {rest rest' : List SSAValue} (isX : x.asSsa = some (p.1 :: p.2 :: rest))
    (isY : y.asSsa = some (q.1 :: q.2 :: rest')) (new : 70 ≤ b.sm) :
    lea64 x y shift b = .ok ((b.fresh .gpr 0, b.fresh .gpr 1),
      if 32 ≤ shift % 64 then b.emit 2 [
        .value (.copy { dst := .ofSsa (b.fresh .gpr 0), src := .ofSsa q.1 }),
        .lea { dsts := ![.ofSsa (b.fresh .gpr 1), .none], srcs := ![.ofSsa p.1, .ofSsa q.2, zero]
               dstHigh := false, shift := shift % 64 - 32, intermediateMod := .none }]
      else b.emit 3 [
        .lea { dsts := ![.ofSsa (b.fresh .gpr 0), .ofSsa (b.fresh .pred 2)]
               srcs := ![.ofSsa p.1, .ofSsa q.1, zero], dstHigh := false, shift := shift % 64
               intermediateMod := .none },
        .leaX { dsts := ![.ofSsa (b.fresh .gpr 1), .none]
                srcs := ![.ofSsa p.1, .ofSsa q.2, .ofSsa p.2, .ofSsa (b.fresh .pred 2)]
                dstHigh := true, shift := shift % 64, intermediateMod := .none }]) := by
  have isNew : decide (70 ≤ b.sm) = true := decide_eq_true new
  unfold lea64
  rw [pairOf_ran isX, pairOf_ran isY, isUnmodified_of_asSsa isX, isUnmodified_of_asSsa isY]
  show (assertThat (decide (70 ≤ b.sm)) _ >>= _) >>= _ = _
  rw [isNew]
  show (if 32 ≤ shift % 64 then _ else _ : BuilderM (SSAValue × SSAValue)) _ = _
  split
  · exact emit_two _ b 2 _ _
  · exact emit_two _ b 3 _ _

theorem writes_lea (srcs : Fin 3 → Src) (shift : Nat) (dstHigh : Bool) (modifier : SrcMod)
    (dst : SSAValue) (carry : Dst) : BuilderOp.writes (.lea {
      dsts := ![.ofSsa dst, carry], srcs, dstHigh, shift, intermediateMod := modifier }) =
      dst :: carry.iterSsa := by
  show [dst] ++ (carry.iterSsa ++ []) = _
  rw [append_nil]
  rfl

/-- `lea64` adds the first operand, shifted by the amount modulo 64, to the second. -/
theorem lea64_emits (first : Reads64 b start p x v) (second : Reads64 b start q y w)
    (new : 70 ≤ b.sm) : Emits (lea64 x y shift) b fun dst b' =>
      Pair (b'.env start) dst (w + v <<< (shift % 64)) := by
  obtain ⟨rest, isX⟩ := first.isSsa
  obtain ⟨rest', isY⟩ := second.isSsa
  have ran : lea64 x y shift b = _ := lea64_run isX isY new
  have inside : shift % 64 < 64 := Nat.mod_lt shift (by decide)
  have zeroKept : ∀ env : Env, env.getU32Src zero = some 0 := fun env => rfl
  split at ran
  next least =>
    have kept := (Kept.refl b start).update .gpr 0 (some (.word (w.setWidth 32)))
    have isLow : b.env start q.1 = some (.word (w.setWidth 32)) := Value.eq_word second.low.value
    refine Emits.of_run ran ?_ ?_
    · intro op member r written
      rcases List.mem_pair.mp member with rfl | rfl
      · rw [List.mem_singleton.mp written]
        exact fresh_new b .gpr 0
      · rw [writes_lea] at written
        rw [List.mem_singleton.mp written]
        exact fresh_new b .gpr 1
    · have copied : ValueOp.value noFold b.sm (.copy { dst := .ofSsa (b.fresh .gpr 0)
                                                       src := .ofSsa q.1 })
          (b.env start) (b.fresh .gpr 0) 0 = some (.word (w.setWidth 32)) := by
        show OpCopy.fold _ .gpr (b.env start) = _
        unfold OpCopy.fold
        rw [show (b.env start).srcValue (Src.ofSsa q.1) = _ from isLow]
        rfl
      have high := exec_lea b.sm (n := shift % 64 - 32) (first.low.kept kept)
        (second.high.kept kept) (zeroKept _) rfl (by omega) (b.fresh .gpr 1) .none
      rw [env_emit]
      refine ⟨?_, ?_⟩
      · refine (congrFun (run_result rfl copied _) _).trans ?_
        refine (congrFun high _).trans ?_
        refine (Function.update_of_ne (fresh_ne b _ _ Nat.zero_ne_one) _ _).trans ?_
        refine (Function.update_self _ _ _).trans ?_
        rw [low_add, low_shift_high v least]
        exact congrArg (some <| Value.word ·) (BitVec.add_zero _).symm
      · refine (congrFun (run_result rfl copied _) _).trans ?_
        refine (congrFun high _).trans ((Function.update_self _ _ _).trans ?_)
        rw [high_add, high_shift_high v least, low_shift_high v least]
        have noCarry : ¬ 2 ^ 32 ≤ (w.setWidth 32).toNat + (0 : BitVec 32).toNat :=
          Nat.not_le.mpr (w.setWidth 32).isLt
        rw [if_neg noCarry, BitVec.add_comm]
        exact congrArg (some <| Value.word ·) (BitVec.add_zero _).symm
  next less =>
    have low := exec_lea b.sm first.low.value second.low.value (zeroKept _) rfl
      (Nat.not_le.mp less) (b.fresh .gpr 0) (.ofSsa (b.fresh .pred 2))
    have kept := ((Kept.refl b start).update .gpr 0 (some (.word
      (v.setWidth 32 <<< (shift % 64) + w.setWidth 32)))).update .pred 2 (some (.pred
        (2 ^ 32 ≤ (v.setWidth 32 <<< (shift % 64)).toNat + (w.setWidth 32).toNat)))
    have high := exec_leaX b.sm (first.low.kept kept) (second.high.kept kept)
      (first.high.kept kept) (getPredSrc_update_self _ _ _) rfl (Nat.le_of_not_le less)
      (b.fresh .gpr 1)
    refine Emits.of_run ran ?_ ?_
    · intro op member r written
      rcases List.mem_pair.mp member with rfl | rfl
      · rw [writes_lea] at written
        rcases List.mem_pair.mp written with rfl | rfl
        · exact fresh_new b .gpr 0
        · exact fresh_new b .pred 2
      · rw [List.mem_singleton.mp written]
        exact fresh_new b .gpr 1
    · rw [env_emit, BuilderOp.run_two, low]
      refine ⟨?_, ?_⟩
      · refine (congrFun high _).trans ?_
        refine (Function.update_of_ne (fresh_ne b _ _ Nat.zero_ne_one) _ _).trans ?_
        refine (Function.update_of_ne (fresh_ne b _ _ (by omega)) _ _).trans ?_
        refine (Function.update_self _ _ _).trans ?_
        rw [low_add, low_shift_low, BitVec.add_comm]
      · refine (congrFun high _).trans ((Function.update_self _ _ _).trans ?_)
        rw [high_add, high_shift_low v (Nat.not_le.mp less), low_shift_low, ← eq_halves v,
          BitVec.add_comm ((v >>> (32 - shift % 64)).setWidth 32), Nat.add_comm]
        simp only [decide_eq_true_eq]

/-- A shift by more than half the width. -/
theorem lea64_emits_wide : Emits (lea64 (firstPair .none) (firstPair .none) 33)
    { sm := 70, ssaAlloc := ⟨2⟩ } fun dst b' =>
      Pair (b'.env fun x => some (.word (BitVec.ofNat 32 x.idx))) dst 0x400000001 := by
  have reads := @firstPair_reads 70 0x200000001 (fun x => some (.word (BitVec.ofNat 32 x.idx)))
    rfl rfl
  have sum : 0x200000001#64 + 0x200000001#64 <<< (33 % 64) = 0x400000001 := by decide
  rw [← sum]
  exact lea64_emits reads reads (Nat.le_refl 70)

end Builder

end CoralReef
