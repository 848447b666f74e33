import CoralReef.Codegen.OptPrmt.Proofs.Source

/-!
# Merging the sources of a permute

What `try_opt_prmt4` collects: two sources at most, one of which may hold immediate bytes. Each byte
that has been added stays what it was when more are added.
-/

namespace CoralReef

/-- The constant an operand is, or zero. -/
def SrcRef.constant (r : SrcRef) : BitVec 32 := (Src.immediate { reference := r }).getD 0

theorem byteAt_or (u v : BitVec 32) (i : Fin 4) : byteAt (u ||| v) i = byteAt u i ||| byteAt v i := by
  apply BitVec.eq_of_getLsbD_eq
  intro j inside
  simp [byteAt, inside]

theorem byteAt_immByte (u : BitVec 8) {b : Nat} (i : Fin 4) :
    byteAt (PrmtSrcs.immByte u b) i = if i = b then u else 0 := by
  apply BitVec.eq_of_getLsbD_eq
  intro j inside
  simp only [byteAt, PrmtSrcs.immByte, BitVec.getLsbD_extractLsb', inside, decide_true,
    Bool.true_and, BitVec.getLsbD_shiftLeft, BitVec.getLsbD_setWidth]
  have low : 8 * i.val + j < 32 := by omega
  split
  · next same =>
    have shifted : 8 * i.val + j - b * 8 = j := by omega
    simp [low, shifted, show ¬ 8 * i.val + j < b * 8 by omega, show j < 32 by omega]
  · next other =>
    by_cases below : 8 * i.val + j < b * 8
    · simp [below]
    · have beyond : u.getLsbD (8 * i.val + j - b * 8) = false :=
        BitVec.getLsbD_of_ge _ _ (by omega)
      simp [beyond]

namespace PrmtPass

/-- The operand a byte comes from, if it is no constant. -/
def PrmtByte.On (good : SrcRef → Prop) : PrmtByte → Prop
  | .imm _ => True
  | .src r _ _ => good r

/-- The value of a byte. -/
def PrmtByte.value {E : Type} (interp : AluInterp E) (vals : SSAValue → BitVec 32) :
    PrmtByte → BitVec 8
  | .imm u => u
  | .src r byte msb => (PrmtSelByte.new 0 byte msb).foldU32 (interp.word vals r)

end PrmtPass

namespace PrmtSrcs

open PrmtPass

/-- After `n` bytes: the immediate source holds immediate bytes and nothing above them, the other
sources are `good`. -/
structure Fits (good : SrcRef → Prop) (n : Nat) (p : PrmtSrcs) : Prop where
  numSrcs_le : p.numSrcs ≤ 2
  imm_lt : ∀ i, p.immSrc = some i → i.val < p.numSrcs
  bytes_le : p.numImmBytes ≤ n
  noImm : p.immSrc = none → p.numImmBytes = 0
  isImm : ∀ i, p.immSrc = some i →
    (p.srcs i = .zero ∧ p.numImmBytes ≤ 1) ∨ ∃ u, p.srcs i = .imm32 u
  above : ∀ i, p.immSrc = some i → ∀ c : Fin 4, p.numImmBytes ≤ c → byteAt (p.srcs i).constant c = 0
  isSrc : ∀ i : Fin 2, i.val < p.numSrcs → p.immSrc ≠ some i → good (p.srcs i)
  empty : ∀ i : Fin 2, p.numSrcs ≤ i.val → p.srcs i = .zero

/-- The selector byte takes this byte from the sources. -/
def Gives (p : PrmtSrcs) (selByte : PrmtSelByte) : PrmtByte → Prop
  | .imm u => p.immSrc = some selByte.src ∧ selByte.msb = false ∧
      selByte.byte.val < p.numImmBytes ∧ byteAt (p.srcs selByte.src).constant selByte.byte = u
  | .src r byte msb => selByte.src.val < p.numSrcs ∧ p.immSrc ≠ some selByte.src ∧
      p.srcs selByte.src = r ∧ selByte.byte = byte ∧ selByte.msb = msb

/-- Whatever the sources gave they give still. -/
def Extends (p p' : PrmtSrcs) : Prop := ∀ selByte byte, p.Gives selByte byte → p'.Gives selByte byte

variable {good : SrcRef → Prop} {n : Nat} {p : PrmtSrcs}

theorem Fits.start : Fits good 0 {} where
  numSrcs_le := Nat.zero_le _
  imm_lt := by intro i never; cases never
  bytes_le := Nat.le_refl _
  noImm := fun _ => rfl
  isImm := by intro i never; cases never
  above := by intro i never; cases never
  isSrc := by intro i never; exact absurd never (Nat.not_lt_zero _)
  empty := fun _ _ => rfl

theorem Fits.mono (fits : Fits good n p) {n' : Nat} (le : n ≤ n') : Fits good n' p :=
  { fits with bytes_le := fits.bytes_le.trans le }

/-- A source is found or added. -/
theorem Fits.tryAddSrc (fits : Fits good n p) {r : SrcRef} (isGood : good r)
    (noImm : ∀ i, p.immSrc = some i → p.srcs i ≠ r) {i : Fin 2} {p' : PrmtSrcs}
    (added : p.tryAddSrc r = some (i, p')) :
    Fits good n p' ∧ p.Extends p' ∧ i.val < p'.numSrcs ∧ p'.immSrc ≠ some i ∧ p'.srcs i = r := by
  unfold PrmtSrcs.tryAddSrc at added
  split at added
  · next j found =>
    cases added
    have isFound : i.val < p.numSrcs ∧ p.srcs i = r := by simpa using List.find?_some found
    exact ⟨fits, fun _ _ gives => gives, isFound.1, fun isImm => noImm i isImm isFound.2, isFound.2⟩
  · split at added
    · next room =>
      cases added
      have fresh : ∀ j : Fin 2, j.val < p.numSrcs → j ≠ ⟨p.numSrcs, room⟩ := by
        intro j less same
        rw [same] at less
        exact Nat.lt_irrefl _ less
      have kept : ∀ j : Fin 2, j.val < p.numSrcs →
          Function.update p.srcs ⟨p.numSrcs, room⟩ r j = p.srcs j :=
        fun j less => Function.update_of_ne (fresh j less) _ _
      refine ⟨⟨room, ?_, fits.bytes_le, fits.noImm, ?_, ?_, ?_, ?_⟩, ?_, Nat.lt_succ_self _, ?_,
        Function.update_self _ _ _⟩
      · exact fun j isImm => (fits.imm_lt j isImm).trans (Nat.lt_succ_self _)
      · intro j isImm
        simp only [kept j (fits.imm_lt j isImm)]
        exact fits.isImm j isImm
      · intro j isImm
        simp only [kept j (fits.imm_lt j isImm)]
        exact fits.above j isImm
      · intro j less notImm
        rcases Nat.lt_succ_iff_lt_or_eq.mp less with less | same
        · simp only [kept j less]
          exact fits.isSrc j less notImm
        · have same : j = ⟨p.numSrcs, room⟩ := Fin.ext same
          simp only [same, Function.update_self]
          exact isGood
      · intro j le
        have other : j ≠ ⟨p.numSrcs, room⟩ := by
          intro same
          rw [same] at le
          exact Nat.not_succ_le_self _ le
        simp only [Function.update_of_ne other]
        exact fits.empty j (Nat.le_of_succ_le le)
      · intro selByte byte gives
        cases byte with
        | imm u =>
          rcases gives with ⟨isImm, msb, less, same⟩
          refine ⟨isImm, msb, less, ?_⟩
          rw [← same]
          simp only [kept _ (fits.imm_lt _ isImm)]
        | src r' byte msb =>
          rcases gives with ⟨less, notImm, same⟩
          exact ⟨less.trans (Nat.lt_succ_self _), notImm, (kept _ less).trans same.1, same.2⟩
      · intro isImm
        exact Nat.lt_irrefl _ (fits.imm_lt _ isImm)
    · cases added

/-- There is a source for immediate bytes, or room for one. -/
theorem Fits.withImmSrc (fits : Fits good n p) {i : Fin 2} {p' : PrmtSrcs}
    (added : p.withImmSrc = some (i, p')) :
    Fits good n p' ∧ p.Extends p' ∧ p'.immSrc = some i := by
  unfold PrmtSrcs.withImmSrc at added
  split at added
  · next j isImm =>
    cases added
    exact ⟨fits, fun _ _ gives => gives, isImm⟩
  · next noImm =>
    split at added
    · next room =>
      cases added
      have zero : p.srcs ⟨p.numSrcs, room⟩ = .zero := fits.empty _ (Nat.le_refl _)
      have none : p.numImmBytes = 0 := fits.noImm noImm
      refine ⟨⟨room, ?_, fits.bytes_le, by simp, ?_, ?_, ?_, ?_⟩, ?_, rfl⟩
      · intro j same
        cases same
        exact Nat.lt_succ_self _
      · intro j same
        cases same
        exact .inl ⟨zero, by simp [none]⟩
      · intro j same c _
        cases same
        simp only [zero]
        match c with
        | 0 | 1 | 2 | 3 => rfl
      · intro j less other
        refine fits.isSrc j ?_ (by simp [noImm])
        rcases Nat.lt_succ_iff_lt_or_eq.mp less with less | same
        · exact less
        · exact absurd (congrArg some (Fin.ext same.symm : (⟨p.numSrcs, room⟩ : Fin 2) = j)) other
      · exact fun j le => fits.empty j (Nat.le_of_succ_le le)
      · intro selByte byte gives
        cases byte with
        | imm u =>
          rcases gives with ⟨isImm, _⟩
          rw [noImm] at isImm
          cases isImm
        | src r' byte msb =>
          rcases gives with ⟨less, _, same⟩
          refine ⟨less.trans (Nat.lt_succ_self _), ?_, same⟩
          intro isImm
          have equal : p.numSrcs = selByte.src.val := congrArg Fin.val (Option.some.inj isImm)
          omega
    · cases added

/-- Immediate bytes are put above those already there. -/
theorem Fits.putImm (fits : Fits good n p) {i : Fin 2} (isImm : p.immSrc = some i) {u : BitVec 8}
    {b : Fin 4} (atEnd : b.val = p.numImmBytes) (below : b.val ≤ n) {w : BitVec 32}
    (put : w = (p.srcs i).constant ||| immByte u b) :
    let p' := { p with numImmBytes := b + 1, srcs := Function.update p.srcs i (.imm32 w.toNat) }
    Fits good (n + 1) p' ∧ p.Extends p' ∧ p'.Gives (.new i b false) (.imm u) := by
  have const : (SrcRef.imm32 w.toNat).constant = w := BitVec.ofNat_toNat 32 w
  have bytes : ∀ c, byteAt w c = byteAt (p.srcs i).constant c ||| if c.val = b.val then u else 0 := by
    intro c
    rw [put, byteAt_or, byteAt_immByte]
  intro p'
  have others : ∀ j, p.immSrc ≠ some j → p'.srcs j = p.srcs j := by
    intro j other
    refine Function.update_of_ne ?_ _ _
    intro same
    rw [same] at other
    exact other isImm
  have here : p'.srcs i = .imm32 w.toNat := Function.update_self _ _ _
  refine ⟨⟨fits.numSrcs_le, fits.imm_lt, ?_, ?_, ?_, ?_, ?_, ?_⟩, ?_, ?_⟩
  · exact Nat.succ_le_succ below
  · intro never
    rw [show p'.immSrc = some i from isImm] at never
    cases never
  · intro j isImm'
    rw [show p'.immSrc = some i from isImm] at isImm'
    cases isImm'
    exact .inr ⟨_, here⟩
  · intro j isImm' c above
    rw [show p'.immSrc = some i from isImm] at isImm'
    cases isImm'
    have above : b.val + 1 ≤ c.val := above
    rw [here, const, bytes, fits.above i isImm c (by omega), if_neg (by omega)]
    rfl
  · intro j less other
    rw [others j other]
    exact fits.isSrc j less other
  · intro j le
    rw [others j ?_]
    · exact fits.empty j le
    · intro isImm'
      have less := fits.imm_lt j isImm'
      have le : p.numSrcs ≤ j.val := le
      omega
  · intro selByte byte gives
    cases byte with
    | imm v =>
      rcases gives with ⟨isImm', msb, less, same⟩
      have isSame : selByte.src = i := Option.some.inj (isImm'.symm.trans isImm)
      refine ⟨isImm', msb, ?_, ?_⟩
      · have more : p'.numImmBytes = b.val + 1 := rfl
        omega
      · rw [isSame] at same ⊢
        rw [here, const, bytes, same, if_neg (by omega)]
        exact BitVec.or_zero
    | src r byte msb =>
      rcases gives with ⟨less, other, same⟩
      refine ⟨less, other, ?_⟩
      rw [others _ other]
      exact same
  · refine ⟨by rw [PrmtSelByte.src_new]; exact isImm, PrmtSelByte.msb_new _ _ _, ?_, ?_⟩
    · rw [PrmtSelByte.byte_new]
      exact Nat.lt_succ_self _
    · rw [PrmtSelByte.src_new, PrmtSelByte.byte_new, here, const, bytes, if_pos rfl,
        fits.above i isImm b (by omega)]
      exact BitVec.zero_or

theorem byteAt_zero (c : Fin 4) : byteAt 0 c = 0 := by
  match c with
  | 0 | 1 | 2 | 3 => rfl

/-- A zero byte of a source that is zero. -/
theorem Fits.putZero (fits : Fits good n p) {i : Fin 2} (isImm : p.immSrc = some i)
    (zero : p.srcs i = .zero) (few : p.numImmBytes ≤ 1) :
    let p' := { p with numImmBytes := 1 }
    Fits good (n + 1) p' ∧ p.Extends p' ∧ p'.Gives (.new i 0 false) (.imm 0) := by
  have bytes : ∀ c, byteAt (p.srcs i).constant c = 0 := by
    intro c
    rw [zero]
    exact byteAt_zero c
  intro p'
  refine ⟨⟨fits.numSrcs_le, fits.imm_lt, Nat.succ_le_succ (Nat.zero_le n), ?_, ?_, ?_, fits.isSrc,
    fits.empty⟩, ?_, ?_⟩
  · intro never
    rw [show p'.immSrc = some i from isImm] at never
    cases never
  · intro j isImm'
    rw [show p'.immSrc = some i from isImm] at isImm'
    cases isImm'
    exact .inl ⟨zero, Nat.le_refl 1⟩
  · intro j isImm' c _
    rw [show p'.immSrc = some i from isImm] at isImm'
    cases isImm'
    exact bytes c
  · intro selByte byte gives
    cases byte with
    | imm v =>
      rcases gives with ⟨isImm', msb, less, same⟩
      exact ⟨isImm', msb, less.trans_le few, same⟩
    | src r byte msb => exact gives
  · refine ⟨by rw [PrmtSelByte.src_new]; exact isImm, PrmtSelByte.msb_new _ _ _, ?_, ?_⟩
    · rw [PrmtSelByte.byte_new]
      exact Nat.one_pos
    · rw [PrmtSelByte.src_new]
      exact bytes _

/-- An immediate byte is added, if there is room. -/
theorem Fits.tryAddImmU8 (fits : Fits good n p) (below : n ≤ 3) (u : BitVec 8) :
    ∃ r, p.tryAddImmU8 u = .ok r ∧ ∀ i b p', r = some ((i, b), p') → ∃ inside : b < 4,
      Fits good (n + 1) p' ∧ p.Extends p' ∧ p'.Gives (.new i ⟨b, inside⟩ false) (.imm u) := by
  unfold PrmtSrcs.tryAddImmU8
  cases added : p.withImmSrc with
  | none => exact ⟨none, rfl, fun i b p' never => by cases never⟩
  | some found =>
    rcases found with ⟨i, q⟩
    rcases fits.withImmSrc added with ⟨fits', extends', isImm⟩
    have inside : q.numImmBytes < 4 := by
      have le := fits'.bytes_le
      omega
    rcases fits'.isImm i isImm with ⟨zero, few⟩ | ⟨imm, isConst⟩
    · simp only [zero]
      by_cases isZero : u = 0
      · rw [if_pos isZero, decide_eq_true few, assertThat_true, ok_bind]
        refine ⟨_, rfl, ?_⟩
        intro j b p' same
        cases same
        rcases fits'.putZero isImm zero few with ⟨fits'', extends'', gives⟩
        rw [isZero]
        exact ⟨by decide, fits'', fun s b given => extends'' s b (extends' s b given), gives⟩
      · rw [if_neg isZero]
        refine ⟨_, rfl, ?_⟩
        intro j b p' same
        cases same
        have put : immByte u q.numImmBytes =
            (q.srcs i).constant ||| immByte u (⟨q.numImmBytes, inside⟩ : Fin 4).val := by
          rw [zero]
          exact BitVec.zero_or.symm
        rcases fits'.putImm isImm (b := ⟨q.numImmBytes, inside⟩) rfl fits'.bytes_le put with
          ⟨fits'', extends'', gives⟩
        exact ⟨inside, fits'', fun s b given => extends'' s b (extends' s b given), gives⟩
    · simp only [isConst]
      refine ⟨_, rfl, ?_⟩
      intro j b p' same
      cases same
      have put : BitVec.ofNat 32 imm ||| immByte u q.numImmBytes =
          (q.srcs i).constant ||| immByte u (⟨q.numImmBytes, inside⟩ : Fin 4).val := by
        rw [isConst]
        rfl
      rcases fits'.putImm isImm (b := ⟨q.numImmBytes, inside⟩) rfl fits'.bytes_le put with
        ⟨fits'', extends'', gives⟩
      exact ⟨inside, fits'', fun s b given => extends'' s b (extends' s b given), gives⟩

/-- A byte is added, if there is room for it. -/
theorem Fits.addByte (fits : Fits good n p) (below : n ≤ 3) {byte : PrmtByte} (isGood : byte.On good)
    (notConst : ∀ r, good r → Src.immediate { reference := r } = none) :
    ∃ r, PrmtPass.addByte p byte = .ok r ∧ ∀ selByte p', r = some (selByte, p') →
      Fits good (n + 1) p' ∧ p.Extends p' ∧ p'.Gives selByte byte := by
  cases byte with
  | imm u =>
    rcases fits.tryAddImmU8 below u with ⟨r, returned, added⟩
    rw [PrmtPass.addByte, returned, ok_bind]
    rcases r with _ | ⟨⟨i, b⟩, q⟩
    · exact ⟨none, rfl, fun _ _ never => by cases never⟩
    · rcases added i b q rfl with ⟨inside, fits', extends', gives⟩
      simp only [inside, dif_pos]
      refine ⟨_, rfl, ?_⟩
      intro selByte p' same
      cases same
      exact ⟨fits', extends', gives⟩
  | src r byte msb =>
    rw [PrmtPass.addByte]
    cases added : p.tryAddSrc r with
    | none => exact ⟨none, rfl, fun _ _ never => by cases never⟩
    | some found =>
      rcases found with ⟨i, q⟩
      refine ⟨_, rfl, ?_⟩
      intro selByte p' same
      cases same
      have noImm : ∀ i, p.immSrc = some i → p.srcs i ≠ r := by
        intro j isImm same
        have noConst := notConst r isGood
        rcases fits.isImm j isImm with ⟨zero, _⟩ | ⟨u, imm⟩
        · rw [← same, zero] at noConst
          cases noConst
        · rw [← same, imm] at noConst
          cases noConst
      rcases fits.tryAddSrc isGood noImm added with ⟨fits', extends', less, notImm, isSrc⟩
      refine ⟨fits'.mono (Nat.le_succ n), extends', ?_⟩
      simpa [Gives] using ⟨less, notImm, isSrc⟩

end PrmtSrcs

end CoralReef
