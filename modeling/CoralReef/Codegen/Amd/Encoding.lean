import CoralReef.Misc.BitFields

/-!
# Instruction words

`amd/encoding.rs` and the part of `amd/reg.rs` it uses. Each word carries what it is for: the first
word of an instruction of some format, a second word, or a literal. The encoders never read that;
it says which words a decoder finds at the start of an instruction, whatever bits they hold.
-/

/-!
## Opcode tables

`amd/isa_generated`: the opcodes that the encoders name.
-/

namespace CoralReef.Amd.Isa

/-! `flat_glbl` and `flat` -/

abbrev globalLoadUbyte : Nat := 8
abbrev globalLoadSbyte : Nat := 9
abbrev globalLoadUshort : Nat := 10
abbrev globalLoadSshort : Nat := 11
abbrev globalLoadDword : Nat := 12
abbrev globalLoadDwordx2 : Nat := 13
abbrev globalLoadDwordx4 : Nat := 14
abbrev globalStoreByte : Nat := 24
abbrev globalStoreShort : Nat := 26
abbrev globalStoreDword : Nat := 28
abbrev globalStoreDwordx2 : Nat := 29
abbrev globalStoreDwordx4 : Nat := 30
abbrev flatAtomicSwap : Nat := 48
abbrev flatAtomicCmpswap : Nat := 49
abbrev flatAtomicAdd : Nat := 50
abbrev flatAtomicSmin : Nat := 53
abbrev flatAtomicUmin : Nat := 54
abbrev flatAtomicSmax : Nat := 55
abbrev flatAtomicUmax : Nat := 56
abbrev flatAtomicAnd : Nat := 57
abbrev flatAtomicOr : Nat := 58
abbrev flatAtomicXor : Nat := 59
abbrev flatAtomicInc : Nat := 60
abbrev flatAtomicDec : Nat := 61

/-! `sop1`, `sop2` and `sopp` -/

abbrev sMovB32 : Nat := 3
abbrev sNotB32 : Nat := 7
abbrev sAndB32 : Nat := 14
abbrev sOrB32 : Nat := 16
abbrev sXorB32 : Nat := 18
abbrev sAndn2B32 : Nat := 20
abbrev sOrn2B32 : Nat := 22
abbrev sNandB32 : Nat := 24
abbrev sNorB32 : Nat := 26
abbrev sNop : Nat := 0
abbrev sEndpgm : Nat := 1
abbrev sBranch : Nat := 2
abbrev sCbranchVccz : Nat := 6
abbrev sCbranchVccnz : Nat := 7
abbrev sBarrier : Nat := 10
abbrev sWaitcnt : Nat := 12

/-! `vop1` -/

abbrev vMovB32 : Nat := 1
abbrev vCvtF64I32 : Nat := 4
abbrev vCvtF32I32 : Nat := 5
abbrev vCvtI32F32 : Nat := 8
abbrev vCvtF32F64 : Nat := 15
abbrev vCvtF64F32 : Nat := 16
abbrev vCvtF64U32 : Nat := 22
abbrev vTruncF32 : Nat := 28
abbrev vCeilF32 : Nat := 29
abbrev vRndneF32 : Nat := 30
abbrev vFloorF32 : Nat := 31
abbrev vExpF32 : Nat := 32
abbrev vLogF32 : Nat := 33
abbrev vRcpF32 : Nat := 34
abbrev vRsqF32 : Nat := 36
abbrev vSqrtF32 : Nat := 39
abbrev vSinF32 : Nat := 41
abbrev vCosF32 : Nat := 42
abbrev vBfrevB32 : Nat := 44
abbrev vFfbhU32 : Nat := 45
abbrev vFfbhI32 : Nat := 47

/-! `vop2` -/

abbrev vCndmaskB32 : Nat := 1
abbrev vAddF32 : Nat := 3
abbrev vMulF32 : Nat := 8
abbrev vMinF32 : Nat := 15
abbrev vMaxF32 : Nat := 16
abbrev vMinI32 : Nat := 17
abbrev vMaxI32 : Nat := 18
abbrev vMinU32 : Nat := 19
abbrev vMaxU32 : Nat := 20
abbrev vLshrrevB32 : Nat := 22
abbrev vAshrrevI32 : Nat := 24
abbrev vLshlrevB32 : Nat := 26
abbrev vAndB32 : Nat := 27
abbrev vOrB32 : Nat := 28
abbrev vXorB32 : Nat := 29
abbrev vAddNcU32 : Nat := 37
abbrev vSubNcU32 : Nat := 38

/-! `vop3` -/

abbrev vCmpLtF64 : Nat := 33
abbrev vCmpEqF64 : Nat := 34
abbrev vCmpLeF64 : Nat := 35
abbrev vCmpGtF64 : Nat := 36
abbrev vCmpGeF64 : Nat := 38
abbrev vCmpOF64 : Nat := 39
abbrev vCmpUF64 : Nat := 40
abbrev vCmpNeqF64 : Nat := 45
abbrev vMadU32U24 : Nat := 323
abbrev vBfeU32 : Nat := 328
abbrev vBfeI32 : Nat := 329
abbrev vBfiB32 : Nat := 330
abbrev vFmaF32 : Nat := 331
abbrev vFmaF64 : Nat := 332
abbrev vAlignbitB32 : Nat := 334
abbrev vAddF64 : Nat := 356
abbrev vMulF64 : Nat := 357
abbrev vMinF64 : Nat := 358
abbrev vMaxF64 : Nat := 359
abbrev vTruncF64 : Nat := 407
abbrev vCeilF64 : Nat := 408
abbrev vRndneF64 : Nat := 409
abbrev vFloorF64 : Nat := 410
abbrev vRcpF64 : Nat := 431
abbrev vRsqF64 : Nat := 433
abbrev vSqrtF64 : Nat := 436
abbrev vBcntU32B32 : Nat := 868

/-! `vopc` -/

abbrev vCmpLtF32 : Nat := 1
abbrev vCmpEqF32 : Nat := 2
abbrev vCmpLeF32 : Nat := 3
abbrev vCmpGtF32 : Nat := 4
abbrev vCmpGeF32 : Nat := 6
abbrev vCmpOF32 : Nat := 7
abbrev vCmpUF32 : Nat := 8
abbrev vCmpNgeF32 : Nat := 9
abbrev vCmpNlgF32 : Nat := 10
abbrev vCmpNgtF32 : Nat := 11
abbrev vCmpNleF32 : Nat := 12
abbrev vCmpNeqF32 : Nat := 13
abbrev vCmpNltF32 : Nat := 14
abbrev vCmpFI32 : Nat := 128
abbrev vCmpLtI32 : Nat := 129
abbrev vCmpEqI32 : Nat := 130
abbrev vCmpLeI32 : Nat := 131
abbrev vCmpGtI32 : Nat := 132
abbrev vCmpNeI32 : Nat := 133
abbrev vCmpGeI32 : Nat := 134
abbrev vCmpTI32 : Nat := 135
abbrev vCmpFU32 : Nat := 192
abbrev vCmpLtU32 : Nat := 193
abbrev vCmpEqU32 : Nat := 194
abbrev vCmpLeU32 : Nat := 195
abbrev vCmpGtU32 : Nat := 196
abbrev vCmpNeU32 : Nat := 197
abbrev vCmpGeU32 : Nat := 198
abbrev vCmpTU32 : Nat := 199

end CoralReef.Amd.Isa

namespace CoralReef.Amd

open BitFields

abbrev Word := BitVec 32

/-- What a word is for. The first words of compares and VOP3 instructions name their operation by
its RDNA2 opcode; compares have the VOP3 opcodes below 256. -/
inductive Role where
  | vop3 (op : Nat)
  | vopc (op : Nat)
  | head
  | second
  | literal
  deriving DecidableEq, Repr

structure Emitted where
  role : Role
  word : Word
  deriving DecidableEq, Repr

/-- `AmdRegFile`. -/
inductive RegFile where
  | vgpr | sgpr
  deriving DecidableEq, Repr

/-- `AmdRegRef`; the number of registers is read by no encoder. -/
structure RegRef where
  file : RegFile
  index : Nat
  deriving DecidableEq, Repr

namespace RegRef

def vgpr (index : Nat) : RegRef := ⟨.vgpr, index⟩

def vgprPair (index : Nat) : RegRef := ⟨.vgpr, index⟩

def sgpr (index : Nat) : RegRef := ⟨.sgpr, index⟩

/-- `hw_encoding`. -/
def hwEncoding (reg : RegRef) : Nat :=
  match reg.file with
  | .vgpr => 256 + reg.index
  | .sgpr => reg.index

end RegRef

/-- The number of a condition as a bit. -/
def bit (b : Bool) : Nat := if b then 1 else 0

/-- `encode_sopp`. -/
def encodeSopp (opcode simm16 : Nat) : List Emitted :=
  let word := setField (0 : Word) 23 9 0b101111111
  let word := setField word 16 7 opcode
  [⟨.head, setField word 0 16 simm16⟩]

/-- `encode_sop1`. -/
def encodeSop1 (opcode : Nat) (dst src0 : RegRef) : List Emitted :=
  let word := setField (0 : Word) 23 9 0b101111101
  let word := setField word 16 7 dst.hwEncoding
  let word := setField word 8 8 opcode
  [⟨.head, setField word 0 8 src0.hwEncoding⟩]

/-- `encode_sop2`. -/
def encodeSop2 (opcode : Nat) (dst src0 src1 : RegRef) : List Emitted :=
  let word := setField (0 : Word) 30 2 0b10
  let word := setField word 23 7 opcode
  let word := setField word 16 7 dst.hwEncoding
  let word := setField word 8 8 src1.hwEncoding
  [⟨.head, setField word 0 8 src0.hwEncoding⟩]

/-- `encode_vop1`. -/
def encodeVop1 (opcode : Nat) (dst : RegRef) (src0 : Nat) : List Emitted :=
  let word := setField (0 : Word) 25 7 0b0111111
  let word := setField word 17 8 dst.index
  let word := setField word 9 8 opcode
  [⟨.head, setField word 0 9 src0⟩]

/-- `encode_vop2`. -/
def encodeVop2 (opcode : Nat) (dst : RegRef) (src0 : Nat) (vsrc1 : RegRef) : List Emitted :=
  let word := setField (0 : Word) 25 6 opcode
  let word := setField word 17 8 dst.index
  let word := setField word 9 8 vsrc1.index
  [⟨.head, setField word 0 9 src0⟩]

/-- `encode_vop3_mod`. `op` is the operation that `opcode` stands for. -/
def encodeVop3Mod (op opcode : Nat) (dst : RegRef) (src0 src1 src2 : Nat) (neg abs : Fin 3 → Bool) :
    List Emitted :=
  let word0 := setField (0 : Word) 26 6 0b110101
  let word0 := setField word0 16 10 opcode
  let word0 := setField word0 8 3 (bit (abs 0) + 2 * bit (abs 1) + 4 * bit (abs 2))
  let word0 := setField word0 0 8 dst.index
  let word1 := setField (0 : Word) 0 9 src0
  let word1 := setField word1 9 9 src1
  let word1 := setField word1 18 9 src2
  let word1 := setField word1 29 3 (bit (neg 0) + 2 * bit (neg 1) + 4 * bit (neg 2))
  [⟨.vop3 op, word0⟩, ⟨.second, word1⟩]

/-- `encode_vop3`, which sets neither the bits for absolute values nor those for negation. -/
def encodeVop3 (op opcode : Nat) (dst : RegRef) (src0 src1 src2 : Nat) : List Emitted :=
  encodeVop3Mod op opcode dst src0 src1 src2 (fun _ => false) fun _ => false

/-- `encode_vopc`. -/
def encodeVopc (opcode src0 vsrc1 : Nat) : List Emitted :=
  let word := setField (0 : Word) 25 7 0b0111110
  let word := setField word 17 8 opcode
  let word := setField word 9 8 vsrc1
  [⟨.vopc opcode, setField word 0 9 src0⟩]

/-- `encode_flat_atomic`, and with fewer fields `encode_flat_load` and `encode_flat_store`: a field
that one of them does not set is 0. -/
def encodeFlat (opcode addrVgpr dataVgpr dstVgpr : Nat) (glc : Bool) (offset : Int) :
    List Emitted :=
  let word0 := setField (0 : Word) 26 6 0b110111
  let word0 := setField word0 18 7 opcode
  let word0 := setField word0 16 1 (bit glc)
  let word0 := setField word0 14 2 2
  let word0 := setField word0 0 12 ((offset % 2 ^ 16).toNat % 2 ^ 12)
  let word1 := setField (0 : Word) 0 8 addrVgpr
  let word1 := setField word1 8 8 dataVgpr
  let word1 := setField word1 16 7 0x7F
  let word1 := setField word1 24 8 dstVgpr
  [⟨.head, word0⟩, ⟨.second, word1⟩]

/-- `encode_flat_load`. -/
def encodeFlatLoad (opcode addrVgpr dstVgpr : Nat) (offset : Int) : List Emitted :=
  encodeFlat opcode addrVgpr 0 dstVgpr false offset

/-- `encode_flat_store`. -/
def encodeFlatStore (opcode addrVgpr dataVgpr : Nat) (offset : Int) : List Emitted :=
  encodeFlat opcode addrVgpr dataVgpr 0 false offset

/-- `encode_flat_atomic`. -/
def encodeFlatAtomic (opcode addrVgpr dataVgpr dstVgpr : Nat) (offset : Int) : List Emitted :=
  encodeFlat opcode addrVgpr dataVgpr dstVgpr true offset

/-- `encode_s_endpgm`. -/
def encodeSEndpgm : List Emitted := encodeSopp 1 0

/-- `encode_s_barrier`. -/
def encodeSBarrier : List Emitted := encodeSopp 10 0

/-- `encode_s_nop`. -/
def encodeSNop (delay : Nat) : List Emitted := encodeSopp 0 delay

/-- `encode_s_waitcnt`. -/
def encodeSWaitcnt (vmCnt expCnt lgkmCnt : Nat) : List Emitted :=
  encodeSopp 12 (vmCnt % 16 + 16 * (expCnt % 8) + 256 * (lgkmCnt % 64))

end CoralReef.Amd

namespace CoralReef.Amd

/-!
## Opcodes of GFX9

`ops/gfx9.rs`: the opcodes of RDNA2 as those of GFX9, and the patch of a list of words.
-/

open BitFields

/-- The table of `vop3_only_opcode_for_gfx9` for the VOP1 opcodes that moved. -/
def vop1PromotedForGfx9 : List (Nat × Nat) :=
  [(416, 347), (417, 348), (418, 349), (419, 350), (420, 351), (421, 352), (423, 353), (426, 354),
    (427, 355), (430, 356), (431, 357), (433, 358), (435, 359), (436, 360), (437, 361), (438, 362),
    (439, 363), (440, 364), (441, 365), (442, 366), (443, 367), (444, 368), (445, 369), (446, 370),
    (447, 371), (448, 372), (449, 373)]

/-- The table of `vop3_only_opcode_for_gfx9` for F64 arithmetic and high products. -/
def vop3ArithmeticForGfx9 : List (Nat × Nat) :=
  [(356, 640), (357, 641), (358, 642), (359, 643), (362, 646), (364, 647)]

/-- `vop3_only_opcode_for_gfx9`. -/
def vop3OnlyOpcodeForGfx9 (op : Nat) : Nat :=
  if 320 ≤ op ∧ op ≤ 351 then op + 128
  else if 384 ≤ op ∧ op ≤ 410 then op - 64
  else ((vop3ArithmeticForGfx9 ++ vop1PromotedForGfx9).lookup op).getD op

/-- `vopc_opcode_for_gfx9`. -/
def vopcOpcodeForGfx9 (op : Nat) : Nat :=
  if op ≤ 63 then op + 64
  else if 128 ≤ op ∧ op ≤ 159 then op + 64
  else if 192 ≤ op ∧ op ≤ 223 then op + 8
  else op

/-- The table of `vop2_opcode_for_gfx`. -/
def vop2ForGfx9 : List (Nat × Nat) :=
  [(1, 0), (3, 1), (4, 2), (5, 3), (8, 5), (9, 6), (11, 8), (15, 10), (16, 11), (17, 12), (18, 13),
    (19, 14), (20, 15), (22, 16), (24, 17), (26, 18), (27, 19), (28, 20), (29, 21), (37, 25),
    (38, 26), (39, 27), (40, 28)]

/-- `vop2_opcode_for_gfx`. -/
def vop2OpcodeForGfx (op gfxMajor : Nat) : Nat :=
  if gfxMajor ≥ 10 then op else (vop2ForGfx9.lookup op).getD op

/-- One word of `patch_vop3_prefix_for_gfx9`. -/
def patchVop3Word (word : Word) : Word :=
  if getField word 26 6 = 0b110101 then
    let op := getField word 16 10
    let op' := if op ≥ 320 then vop3OnlyOpcodeForGfx9 op
      else if op < 256 then vopcOpcodeForGfx9 op else op
    setField (setField word 26 6 0b110100) 16 10 op'
  else word

/-- One word of `patch_vopc_for_gfx9`. -/
def patchVopcWord (word : Word) : Word :=
  if getField word 25 7 = 0b0111110 then
    setField word 17 8 (vopcOpcodeForGfx9 (getField word 17 8))
  else word

/-- `patch_vop3_prefix_for_gfx9` and then `patch_vopc_for_gfx9`. -/
def patchForGfx9 (words : List Word) : List Word :=
  (words.map patchVop3Word).map patchVopcWord

end CoralReef.Amd
