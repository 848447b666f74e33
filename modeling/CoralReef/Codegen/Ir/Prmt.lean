import CoralReef.Codegen.Ir.SrcType
import Mathlib.Data.Fin.VecNotation

/-!
# Byte permutes

`PrmtSelByte`, `PrmtSel`, `PrmtMode` and `OpPrmt` of `ir/op_shuffle.rs`. A selector byte is a
nibble: the value `INVALID` of the source only fills an array whose every element is written. The
bytes of a new selector are given as a list.
-/

namespace CoralReef

/-- One byte of a selector: its source, its byte and whether only the sign is taken. -/
structure PrmtSelByte where
  nib : BitVec 4
  deriving DecidableEq, Repr

/-- Byte `i` of a word. -/
def byteAt (u : BitVec 32) (i : Fin 4) : BitVec 8 := u.extractLsb' (8 * i) 8

/-- `(b as i8) >> 7`: the sign of a byte, in every bit. -/
def signByte (b : BitVec 8) : BitVec 8 := if b.msb then 0xff else 0

@[simp] theorem signByte_signByte (b : BitVec 8) : signByte (signByte b) = signByte b := by
  unfold signByte
  cases b.msb <;> rfl

namespace PrmtSelByte

def new (srcIdx : Fin 2) (byteIdx : Fin 4) (msb : Bool) : PrmtSelByte :=
  ⟨BitVec.ofBool msb ++ BitVec.ofFin srcIdx (w := 1) ++ BitVec.ofFin byteIdx (w := 2)⟩

def src (selByte : PrmtSelByte) : Fin 2 := (selByte.nib.extractLsb' 2 1).toFin

def byte (selByte : PrmtSelByte) : Fin 4 := (selByte.nib.extractLsb' 0 2).toFin

def msb (selByte : PrmtSelByte) : Bool := selByte.nib.getLsbD 3

@[simp] theorem src_new : ∀ srcIdx byteIdx msb, (new srcIdx byteIdx msb).src = srcIdx := by decide

@[simp] theorem byte_new : ∀ srcIdx byteIdx msb, (new srcIdx byteIdx msb).byte = byteIdx := by
  decide

@[simp] theorem msb_new : ∀ srcIdx byteIdx msb, (new srcIdx byteIdx msb).msb = msb := by decide

/-- `PrmtSelByte::fold_u32`. -/
def foldU32 (selByte : PrmtSelByte) (u : BitVec 32) : BitVec 8 :=
  if selByte.msb then signByte (byteAt u selByte.byte) else byteAt u selByte.byte

end PrmtSelByte

/-- A byte of a permuted word, permuted again: a sign stays a sign. -/
theorem PrmtSelByte.foldU32_new (selByte inner : PrmtSelByte) (srcIdx : Fin 2) {u v : BitVec 32}
    (permuted : byteAt v selByte.byte = inner.foldU32 u) :
    (new srcIdx inner.byte (selByte.msb || inner.msb)).foldU32 u = selByte.foldU32 v := by
  simp only [foldU32, byte_new, msb_new] at permuted ⊢
  rw [permuted]
  cases selByte.msb <;> cases inner.msb <;> simp

structure PrmtSel where
  bits : BitVec 16
  deriving DecidableEq, Repr

namespace PrmtSel

def passthroughA : PrmtSel := ⟨0x3210⟩

def passthroughB : PrmtSel := ⟨0x7654⟩

/-- `PrmtSel::new`, of the bytes from the lowest. -/
def new : List PrmtSelByte → PrmtSel
  | [] => ⟨0⟩
  | selByte :: rest => ⟨((new rest).bits <<< 4) ||| selByte.nib.zeroExtend 16⟩

def get (sel : PrmtSel) (byteIdx : Fin 4) : PrmtSelByte := ⟨sel.bits.extractLsb' (4 * byteIdx) 4⟩

theorem get_new_zero (selByte : PrmtSelByte) (rest : List PrmtSelByte) :
    (new (selByte :: rest)).get 0 = selByte := by
  refine congrArg PrmtSelByte.mk (BitVec.eq_of_getLsbD_eq ?_)
  intro j inside
  have first : j < 4 := inside
  simp [new, first, show j < 16 by omega]

theorem get_new_succ (selByte : PrmtSelByte) (rest : List PrmtSelByte) (i : Fin 3) :
    (new (selByte :: rest)).get i.succ = (new rest).get i.castSucc := by
  refine congrArg PrmtSelByte.mk (BitVec.eq_of_getLsbD_eq ?_)
  intro j inside
  have later : selByte.nib.getLsbD (4 * (i + 1) + j) = false := BitVec.getLsbD_of_ge _ _ (by omega)
  have shifted : 4 * ((i : Nat) + 1) + j - 4 = 4 * i + j := by omega
  simp [new, inside, later, shifted, show 4 * ((i : Nat) + 1) + j < 16 by omega,
    show ¬ 4 * ((i : Nat) + 1) + j < 4 by omega, -BitVec.getLsbD_eq_getElem]

/-- A selector has the bytes it was made of. -/
theorem get_new (b₀ b₁ b₂ b₃ : PrmtSelByte) : (new [b₀, b₁, b₂, b₃]).get = ![b₀, b₁, b₂, b₃] := by
  funext i
  match i with
  | 0 => exact get_new_zero b₀ _
  | 1 => exact (get_new_succ b₀ _ 0).trans (get_new_zero b₁ _)
  | 2 => exact ((get_new_succ b₀ _ 1).trans (get_new_succ b₁ _ 0)).trans (get_new_zero b₂ _)
  | 3 => exact (((get_new_succ b₀ _ 2).trans (get_new_succ b₁ _ 1)).trans
      (get_new_succ b₂ _ 0)).trans (get_new_zero b₃ _)

/-- What relates each byte to the bytes given relates it to the bytes of the selector. -/
theorem rel_get_new {rel : Fin 4 → PrmtSelByte → Prop} {bytes : List PrmtSelByte}
    (each : List.Forall₂ rel (List.finRange 4) bytes) (i : Fin 4) : rel i ((new bytes).get i) := by
  have places : List.finRange 4 = [0, 1, 2, 3] := rfl
  rw [places] at each
  rcases each with _ | ⟨h₀, _ | ⟨h₁, _ | ⟨h₂, _ | ⟨h₃, _ | _⟩⟩⟩⟩
  rw [get_new]
  match i with
  | 0 => exact h₀
  | 1 => exact h₁
  | 2 => exact h₂
  | 3 => exact h₃

end PrmtSel

inductive PrmtMode where
  | index | forward4Extract | backward4Extract | replicate8 | edgeClampLeft | edgeClampRight
  | replicate16
  deriving DecidableEq, Repr

structure OpPrmt where
  dst : Dst
  srcs : Fin 3 → Src
  mode : PrmtMode

namespace OpPrmt

def sel (op : OpPrmt) : Src := op.srcs 2

theorem two_le_three : 2 ≤ 3 := by decide

/-- The operand that a selector byte takes its byte from. -/
def source (op : OpPrmt) (i : Fin 2) : Src := op.srcs (i.castLE two_le_three)

/-- `OpPrmt::get_sel`: the top 16 bits of the immediate are ignored. -/
def getSel (op : OpPrmt) : Except Fault (Option PrmtSel) :=
  if op.mode = .index then do
    let sel ← op.sel.asU32 .alu
    return sel.map fun sel => ⟨sel.setWidth 16⟩
  else .ok none

end OpPrmt

/-- The word with these bytes. -/
def wordOfBytes (bytes : Fin 4 → BitVec 8) : BitVec 32 :=
  bytes 3 ++ bytes 2 ++ bytes 1 ++ bytes 0

/-- The fold of `OpPrmt`, of the values of the sources. -/
def PrmtSel.fold (sel : PrmtSel) (vals : Fin 2 → BitVec 32) : BitVec 32 :=
  wordOfBytes fun i => (sel.get i).foldU32 (vals (sel.get i).src)

theorem byteAt_wordOfBytes (bytes : Fin 4 → BitVec 8) (i : Fin 4) :
    byteAt (wordOfBytes bytes) i = bytes i := by
  apply BitVec.eq_of_getLsbD_eq
  intro j inside
  simp only [byteAt, wordOfBytes, BitVec.getLsbD_extractLsb', BitVec.getLsbD_append, inside,
    decide_true, Bool.true_and]
  match i with
  | 0 => simp [inside]
  | 1 => simp [inside]
  | 2 =>
    have shifted : 16 + j - 8 - 8 = j := by omega
    simp [shifted, inside, show ¬ 16 + j < 8 by omega, show ¬ 16 + j - 8 < 8 by omega,
      -BitVec.getLsbD_eq_getElem]
  | 3 =>
    have shifted : 24 + j - 8 - 8 - 8 = j := by omega
    simp [shifted, show ¬ 24 + j < 8 by omega, show ¬ 24 + j - 8 < 8 by omega,
      show ¬ 24 + j - 8 - 8 < 8 by omega, -BitVec.getLsbD_eq_getElem]

end CoralReef
