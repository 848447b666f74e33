import CoralReef.Codegen.NagaTranslate.Proofs.Emit
import CoralReef.Codegen.NagaTranslate.Wgsl

/-!
# Operands in registers
-/

open List

namespace CoralReef.Wgsl

open NagaTranslate (VectorSize broadcast)

variable {x y : Operand} {l r : List (Option Value)}

theorem comps_bounds (size : VectorSize) : 2 ≤ size.comps ∧ size.comps ≤ 4 := by
  cases size <;> decide

theorem Ty.comps_pos (ty : Ty) : 0 < ty.comps := by
  unfold Ty.comps
  split
  · have := comps_bounds ‹_›
    omega
  · exact Nat.one_pos

theorem vals_pos (x : Operand) : 0 < x.vals.length := x.length_vals ▸ Ty.comps_pos x.ty

/-- A scalar has one component, a vector more. -/
theorem size_eq_none_iff : x.ty.size = none ↔ x.vals.length = 1 := by
  rw [x.length_vals, Ty.comps]
  cases isSize : x.ty.size with
  | none => simp
  | some size =>
    have := comps_bounds size
    simp
    omega

/-- A component of an operand and the register that the loop reads for it. -/
theorem RepresentsAll.component (represents : RepresentsAll l x) (c : Nat) :
    ∃ v, x.at? c = some v ∧ Represents (broadcast l c) v ∧ x.ty.kind.has v = true ∧
      broadcast l c ∈ l ∧ v ∈ x.vals := by
  have lengths : l.length = x.vals.length := represents.length_eq
  have positive := vals_pos x
  unfold Operand.at? broadcast
  rw [← lengths]
  generalize index : (if c < l.length then c else 0) = i
  have inside : i < l.length := by split at index <;> omega
  have inside' : i < x.vals.length := lengths ▸ inside
  rw [List.getElem?_eq_getElem inside, List.getElem?_eq_getElem inside']
  refine ⟨x.vals[i], rfl, ?_, ?_, getElem_mem _, getElem_mem _⟩
  · exact (forall₂_iff_get.mp represents).2 i inside inside'
  · exact all_eq_true.mp x.has_vals _ (getElem_mem _)

/-- Every component is in a register. -/
theorem RepresentsAll.zip_right (represents : RepresentsAll l x) {a : Scal} (member : a ∈ x.vals) :
    ∃ v, (v, a) ∈ l.zip x.vals := by
  have lengths : l.length = x.vals.length := represents.length_eq
  rcases getElem_of_mem member with ⟨i, inside, rfl⟩
  refine ⟨l[i], mem_iff_getElem.mpr ⟨i, by simp [lengths, inside], ?_⟩⟩
  exact getElem_zip

/-- Every register holds a component. -/
theorem RepresentsAll.zip_left (represents : RepresentsAll l x) {v : Option Value}
    (member : v ∈ l) : ∃ a, (v, a) ∈ l.zip x.vals := by
  have lengths : l.length = x.vals.length := represents.length_eq
  rcases getElem_of_mem member with ⟨i, inside, rfl⟩
  refine ⟨x.vals[i], mem_iff_getElem.mpr ⟨i, by simp [← lengths, inside], ?_⟩⟩
  exact getElem_zip

/-- An integer is held by its bits. -/
theorem represents_int {value : Option Value} {w : BitVec 32} :
    Represents value (.int w) ↔ value = some (.word w) := by
  rcases value with _ | value
  · simp [Represents]
  · cases value <;> simp [Represents]

theorem represents_bool {value : Option Value} {b : Bool} :
    Represents value (.bool b) ↔
      value = some (.pred b) ∨ value = some (.word (if b then 1 else 0)) := by
  rcases value with _ | value
  · simp [Represents]
  · cases value <;> simp [Represents]

theorem Kind.has_int {kind : Kind} (notBool : kind ≠ .bool) {v : Scal}
    (has : kind.has v = true) : ∃ w, v = .int w := by
  cases v with
  | int w => exact ⟨w, rfl⟩
  | bool b => cases kind <;> simp [Kind.has] at has notBool

theorem Kind.has_bool {v : Scal} (has : Kind.has .bool v = true) : ∃ b, v = .bool b := by
  cases v with
  | int w => simp [Kind.has] at has
  | bool b => exact ⟨b, rfl⟩

/-- An operand of integers. -/
theorem RepresentsAll.int (represents : RepresentsAll l x) (notBool : x.ty.kind ≠ .bool) (c : Nat) :
    ∃ w, x.at? c = some (.int w) ∧ broadcast l c = some (.word w) := by
  rcases represents.component c with ⟨v, isAt, isValue, has, -⟩
  rcases Kind.has_int notBool has with ⟨w, rfl⟩
  exact ⟨w, isAt, represents_int.mp isValue⟩

/-- An operand of bools. -/
theorem RepresentsAll.bool (represents : RepresentsAll l x) (isBool : x.ty.kind = .bool) (c : Nat) :
    ∃ b, x.at? c = some (.bool b) ∧ broadcast l c ∈ l ∧
      (broadcast l c = some (.pred b) ∨ broadcast l c = some (.word (if b then 1 else 0))) := by
  rcases represents.component c with ⟨v, isAt, isValue, has, member, -⟩
  rw [isBool] at has
  rcases Kind.has_bool has with ⟨b, rfl⟩
  exact ⟨b, isAt, member, represents_bool.mp isValue⟩

/-- Registers yield a result when there are as many and each holds its component. -/
theorem yields_range {n m : Nat} {value : Nat → Option Value} {scal : Nat → Option Scal} :
    Yields ((List.range n).map value) ((List.range m).map scal) ↔
      n = m ∧ ∀ c < n, ∃ s, scal c = some s ∧ Represents (value c) s := by
  unfold Yields
  rw [forall₂_iff_get]
  simp only [length_map, length_range, get_eq_getElem, getElem_map,
    getElem_range]
  constructor
  · rintro ⟨rfl, each⟩
    exact ⟨rfl, fun c less => each c less less⟩
  · rintro ⟨rfl, each⟩
    exact ⟨rfl, fun c less _ => each c less⟩

end CoralReef.Wgsl

namespace CoralReef.NagaTranslate

/-!
## Words read as doubles

A comparison of doubles on an operand of one register reads its word twice, as the low and as the
high half. The order of such doubles is that of the words by sign and magnitude.
-/

/-- The high half of an infinity or of no number; twice the word is no number then. -/
def beyondNumbers (x : BitVec 32) : Bool := 0x7ff00000 ≤ x.toNat % 2 ^ 31

/-- No sign gets between the order by sign and magnitude and that of the integers. -/
def SignsAgree (kind : Wgsl.Kind) (x y : BitVec 32) : Prop :=
  x = y ∨ (x.msb = false ∧ y.msb = false) ∨
    (kind = .sint ∧ ¬ (x.msb = true ∧ y.msb = true))

/-- A comparison of two words, each read twice as a double, is that of the integers. -/
def DoubledRight (op : BinaryOperator) (kind : Wgsl.Kind) (x y : BitVec 32) : Prop :=
  if beyondNumbers x ∨ beyondNumbers y then Wgsl.binaryInt op kind x y = .bool false
  else op = .equal ∨ op = .notEqual ∨ SignsAgree kind x y

/-- The comparison of doubles that an operator is translated to. -/
def floatCmpOp : BinaryOperator → FloatCmpOp
  | .notEqual => .ordNe
  | .less => .ordLt
  | .lessEqual => .ordLe
  | .greater => .ordGt
  | .greaterEqual => .ordGe
  | _ => .ordEq

def isComparison : BinaryOperator → Bool
  | .equal | .notEqual | .less | .lessEqual | .greater | .greaterEqual => true
  | _ => false

section doubled

variable (x y : BitVec 32)

theorem magnitude_doubled :
    F64.magnitude (x ++ x) = (x.toNat % 2 ^ 31) * 2 ^ 32 + x.toNat := by
  have bound := x.isLt
  unfold F64.magnitude
  rw [BitVec.toNat_append, ← Nat.shiftLeft_add_eq_or_of_lt bound, Nat.shiftLeft_eq]
  omega

theorem isNan_doubled : F64.isNan (x ++ x) = beyondNumbers x := by
  have bound := x.isLt
  unfold F64.isNan beyondNumbers
  rw [magnitude_doubled, decide_eq_decide]
  omega

theorem msb_doubled : (x ++ x : F64).msb = x.msb := by
  rw [BitVec.msb_append]
  simp

/-- The doubles are ordered by sign and magnitude. -/
theorem key_doubled : F64.key (x ++ x) =
    if x.msb then -(((x.toNat % 2 ^ 31) * 2 ^ 32 + x.toNat : Nat) : Int)
    else ((x.toNat % 2 ^ 31) * 2 ^ 32 + x.toNat : Nat) := by
  unfold F64.key
  rw [magnitude_doubled, msb_doubled]

theorem key_eq_iff : F64.key (x ++ x) = F64.key (y ++ y) ↔ x = y := by
  constructor
  · intro same
    have boundX := x.isLt
    have boundY := y.isLt
    rw [key_doubled, key_doubled, BitVec.msb_eq_decide, BitVec.msb_eq_decide] at same
    apply BitVec.eq_of_toNat_eq
    simp only [decide_eq_true_eq] at same
    split at same <;> split at same <;> omega
  · rintro rfl
    rfl

/-- Words of the same sign that is not negative are ordered as they are, negative ones the other
way round. -/
theorem key_lt_iff : F64.key (x ++ x) < F64.key (y ++ y) ↔
    (x.msb = true ∧ y.msb = false) ∨ (x.msb = false ∧ y.msb = false ∧ x.toNat < y.toNat) ∨
      (x.msb = true ∧ y.msb = true ∧ y.toNat < x.toNat) := by
  have boundX := x.isLt
  have boundY := y.isLt
  rw [key_doubled, key_doubled, BitVec.msb_eq_decide, BitVec.msb_eq_decide]
  simp only [decide_eq_true_eq, decide_eq_false_iff_not]
  split <;> split <;> omega

theorem less_sint_iff : Wgsl.less .sint x y = true ↔
    (x.msb = true ∧ y.msb = false) ∨ (x.msb = y.msb ∧ x.toNat < y.toNat) := by
  have boundX := x.isLt
  have boundY := y.isLt
  show x.slt y = true ↔ _
  rw [BitVec.slt_iff_toInt_lt, BitVec.toInt_eq_toNat_cond, BitVec.toInt_eq_toNat_cond,
    BitVec.msb_eq_decide, BitVec.msb_eq_decide]
  simp only [decide_eq_true_eq, decide_eq_false_iff_not, decide_eq_decide]
  split <;> split <;> omega

theorem less_uint_iff {kind : Wgsl.Kind} (unsigned : kind ≠ .sint) :
    Wgsl.less kind x y = true ↔ x.toNat < y.toNat := by
  rw [Wgsl.less, if_neg unsigned, BitVec.ult_iff_lt, BitVec.lt_def]

end doubled

/-- The order of the doubles is that of the integers unless a sign gets in the way. -/
theorem key_lt_iff_less (kind : Wgsl.Kind) (x y : BitVec 32) :
    (F64.key (x ++ x) < F64.key (y ++ y) ↔ Wgsl.less kind x y = true) ↔ SignsAgree kind x y := by
  have boundX := x.isLt
  have boundY := y.isLt
  have same : x = y ↔ x.toNat = y.toNat := ⟨congrArg _, BitVec.eq_of_toNat_eq⟩
  unfold SignsAgree
  rw [key_lt_iff, same]
  by_cases signed : kind = .sint
  · subst signed
    rw [less_sint_iff]
    cases isX : x.msb <;> cases isY : y.msb <;> simp
    omega
  · rw [less_uint_iff x y signed, BitVec.msb_eq_decide, BitVec.msb_eq_decide]
    simp only [signed, false_and, or_false, decide_eq_true_eq, decide_eq_false_iff_not]
    omega

theorem signsAgree_comm {kind : Wgsl.Kind} {x y : BitVec 32} :
    SignsAgree kind x y ↔ SignsAgree kind y x := by
  unfold SignsAgree
  rw [eq_comm (a := x), and_comm (a := x.msb = false), and_comm (a := x.msb = true)]

/-- When a comparison of doubled words is the comparison of the integers. -/
theorem doubled_iff {op : BinaryOperator} (isComparison : isComparison op = true)
    (kind : Wgsl.Kind) (x y : BitVec 32) :
    Wgsl.binaryInt op kind x y = .bool ((floatCmpOp op).eval (x ++ x) (y ++ y)) ↔
      DoubledRight op kind x y := by
  unfold DoubledRight FloatCmpOp.eval
  rw [isNan_doubled, isNan_doubled]
  by_cases bad : beyondNumbers x = true ∨ beyondNumbers y = true
  · rw [if_pos bad]
    have unordered : (!beyondNumbers x && !beyondNumbers y) = false := by
      rcases bad with bad | bad <;> simp [bad]
    rw [unordered]
    cases op <;> cases isComparison <;> simp [floatCmpOp]
  · rw [if_neg bad]
    have ordered : (!beyondNumbers x && !beyondNumbers y) = true := by simpa using bad
    rw [ordered]
    have forward := key_lt_iff_less kind x y
    have backward := key_lt_iff_less kind y x
    rw [signsAgree_comm] at backward
    have same := key_eq_iff x y
    generalize F64.key (x ++ x) = kx at *
    generalize F64.key (y ++ y) = ky at *
    cases op <;> (try exact absurd isComparison Bool.false_ne_true) <;>
      simp only [floatCmpOp, Wgsl.binaryInt, Wgsl.Scal.bool.injEq, Bool.true_and, reduceCtorEq,
        false_or, true_or, or_true, iff_true]
    case equal => rw [Bool.eq_iff_iff, beq_iff_eq, decide_eq_true_eq, same]
    case notEqual =>
      rw [Bool.eq_iff_iff, bne_iff_ne, Bool.or_eq_true, decide_eq_true_eq, decide_eq_true_eq,
        ne_eq, ← same]
      omega
    case less =>
      rw [← forward, Bool.eq_iff_iff, decide_eq_true_eq]
      exact iff_comm
    case lessEqual =>
      have least : (decide (kx < ky) || decide (kx = ky)) = !decide (ky < kx) := by
        rw [Bool.eq_iff_iff]
        simp
        omega
      rw [least, Bool.not_inj_iff, ← backward, Bool.eq_iff_iff, decide_eq_true_eq]
      exact iff_comm
    case greater =>
      rw [← backward, Bool.eq_iff_iff, decide_eq_true_eq]
      exact iff_comm
    case greaterEqual =>
      have least : (decide (ky < kx) || decide (kx = ky)) = !decide (kx < ky) := by
        rw [Bool.eq_iff_iff]
        simp
        omega
      rw [least, Bool.not_inj_iff, ← forward, Bool.eq_iff_iff, decide_eq_true_eq]
      exact iff_comm

end CoralReef.NagaTranslate
