import CoralReef.Codegen.NagaTranslate.Proofs.Math
import CoralReef.Codegen.NagaTranslate.Proofs.Operators

/-!
# The builtin functions of WGSL and their code

For which functions and integers the code of `translate_math` yields the value of WGSL.
-/

open List

namespace CoralReef

/-! ## Words in registers -/

namespace Wgsl

/-- Two components that the translator takes for the words of a double. -/
def Operand.pair? (x : Operand) (e : Nat) : Option (BitVec 32 × BitVec 32) := do
  return (← x.int? (e * 2), ← x.int? (e * 2 + 1))

end Wgsl

namespace NagaTranslate

open Wgsl

variable {x : Operand} {ws : List (BitVec 32)}

/-- Registers that hold words. -/
def words (ws : List (BitVec 32)) : List (Option Value) := ws.map fun w => some (.word w)

theorem words_map {α : Type} (g : α → BitVec 32) (cs : List α) :
    words (cs.map g) = cs.map fun c => some (.word (g c)) := map_map

@[simp] theorem length_words (ws : List (BitVec 32)) : (words ws).length = ws.length :=
  length_map _

theorem exists_words {l : List (Option Value)} (represents : RepresentsAll l x)
    (notBool : x.ty.kind ≠ .bool) : ∃ ws, l = words ws ∧ x.vals = ws.map Scal.int := by
  have has := x.has_vals
  unfold RepresentsAll at represents
  generalize x.vals = vals at represents has
  induction represents with
  | nil => exact ⟨[], rfl, rfl⟩
  | cons first _ ih =>
    rw [all_cons, Bool.and_eq_true] at has
    rcases Kind.has_int notBool has.1 with ⟨w, rfl⟩
    rcases ih has.2 with ⟨ws, rfl, rfl⟩
    exact ⟨w :: ws, by rw [represents_int.mp first]; rfl, rfl⟩

theorem int?_eq (isVals : x.vals = ws.map Scal.int) (c : Nat) : x.int? c = ws[c]? := by
  unfold Operand.int?
  rw [isVals, List.getElem?_map]
  cases ws[c]? <;> rfl

/-- Words are the results when there are as many and each is one. -/
theorem words_yield {n m : Nat} {g h : Nat → BitVec 32} :
    Yields (words ((List.range n).map g)) ((List.range m).map fun c => some (.int (h c))) ↔
      n = m ∧ ∀ c < n, g c = h c := by
  rw [words_map, yields_range]
  simp [represents_int]

/-! ## Pairs of words -/

/-- The words of a double at a position; a single word is the lower one. -/
def pairOf (ws : List (BitVec 32)) (e : Nat) : BitVec 32 × BitVec 32 :=
  (ws.getD (e * 2) 0, ws.getD (e * 2 + 1) 0)

/-- The component of a pair. -/
def half (c : Nat) (p : BitVec 32 × BitVec 32) : BitVec 32 := if c % 2 = 0 then p.1 else p.2

/-- The pair that a comparison of doubles picks. -/
def picked (cmpOp : FloatCmpOp) (p q : BitVec 32 × BitVec 32) : BitVec 32 × BitVec 32 :=
  if cmpOp.eval (p.2 ++ p.1) (q.2 ++ q.1) then p else q

theorem half_pairOf (ws : List (BitVec 32)) (c : Nat) :
    half c (pairOf ws (c / 2)) = ws.getD c 0 := by
  unfold half pairOf
  split
  · rw [show c / 2 * 2 = c by omega]
  · rw [show c / 2 * 2 + 1 = c by omega]

theorem half_picked (cmpOp : FloatCmpOp) (c : Nat) (p q : BitVec 32 × BitVec 32) :
    half c (picked cmpOp p q) =
      if cmpOp.eval (p.2 ++ p.1) (q.2 ++ q.1) then half c p else half c q := by
  unfold picked
  split <;> rfl

/-- The pairs that are picked from two vectors. -/
def minMaxWords (cmpOp : FloatCmpOp) (ws vs : List (BitVec 32)) : List (BitVec 32) :=
  (List.range (min (max ws.length 2) (max vs.length 2) / 2 * 2)).map fun c =>
    half c (picked cmpOp (pairOf ws (c / 2)) (pairOf vs (c / 2)))

theorem ensured_words (nonempty : ws ≠ []) {c : Nat} (inside : c < max ws.length 2) :
    (ensured (words ws))[c]? = some (some (.word (ws.getD c 0))) := by
  unfold ensured words
  rw [length_map]
  split
  · have less : c < ws.length := by omega
    simp [less]
  · have positive := length_pos_iff.mpr nonempty
    rcases length_eq_one_iff.mp (show ws.length = 1 by omega) with ⟨w, rfl⟩
    have less : c < 2 := by simpa using inside
    match c, less with
    | 0, _ => rfl
    | 1, _ => rfl

theorem minMaxValues_words {cmpOp : FloatCmpOp} {ws vs : List (BitVec 32)} (nonempty : ws ≠ [])
    (nonempty' : vs ≠ []) :
    minMaxValues cmpOp (words ws) (words vs) = words (minMaxWords cmpOp ws vs) := by
  simp only [minMaxValues, minMaxWords, length_ensured, length_words, words_map]
  refine map_congr_left fun c member => ?_
  have less := mem_range.mp member
  have isTaken : takes cmpOp (ensured (words ws)) (ensured (words vs)) (c / 2) =
      some (cmpOp.eval ((pairOf ws (c / 2)).2 ++ (pairOf ws (c / 2)).1)
        ((pairOf vs (c / 2)).2 ++ (pairOf vs (c / 2)).1)) := by
    unfold takes doubleAt
    rw [ensured_words nonempty (by omega), ensured_words nonempty (by omega),
      ensured_words nonempty' (by omega), ensured_words nonempty' (by omega)]
    rfl
  rw [takenAt, isTaken, Option.bind_some, half_picked, half_pairOf, half_pairOf]
  split
  · rw [ensured_words nonempty (by omega)]
    rfl
  · rw [ensured_words nonempty' (by omega)]
    rfl

theorem pairOf_minMaxWords {cmpOp : FloatCmpOp} {ws vs : List (BitVec 32)} {e : Nat}
    (inside : e * 2 + 1 < min (max ws.length 2) (max vs.length 2) / 2 * 2) :
    pairOf (minMaxWords cmpOp ws vs) e = picked cmpOp (pairOf ws e) (pairOf vs e) := by
  have first : e * 2 < min (max ws.length 2) (max vs.length 2) / 2 * 2 := by omega
  have even : e * 2 / 2 = e ∧ (e * 2 + 1) / 2 = e := by omega
  unfold pairOf minMaxWords
  simp [getD_eq_getElem?_getD, inside, first, half, even.2, pairOf]

theorem absValues_words (nonempty : ws ≠ []) :
    absValues (words ws) = words ((List.range (max ws.length 2 / 2 * 2)).map fun c =>
      half c ((pairOf ws (c / 2)).1, (pairOf ws (c / 2)).2 &&& 0x7FFFFFFF)) := by
  simp only [absValues, length_ensured, length_words, words_map]
  refine map_congr_left fun c member => ?_
  have less := mem_range.mp member
  rw [ensured_words nonempty (by omega), ← half_pairOf]
  unfold half
  split <;> rfl

/-- Pairs are the results when the components can be paired and each pair is right. -/
theorem pairs_yield {n : Nat} (positive : 0 < n) {g : Nat → BitVec 32 × BitVec 32}
    {h : Nat → BitVec 32} :
    Yields (words ((List.range (max n 2 / 2 * 2)).map fun c => half c (g (c / 2))))
        ((List.range n).map fun c => some (.int (h c))) ↔
      n % 2 = 0 ∧ ∀ e, e * 2 + 1 < n → g e = (h (e * 2), h (e * 2 + 1)) := by
  rw [words_yield]
  constructor
  · rintro ⟨same, each⟩
    refine ⟨by omega, fun e inside => ?_⟩
    have first := each (e * 2) (by omega)
    have second := each (e * 2 + 1) (by omega)
    have even : e * 2 / 2 = e ∧ (e * 2 + 1) / 2 = e ∧ (e * 2 + 1) % 2 ≠ 0 := by omega
    simp only [half, even.1, even.2.1, if_neg even.2.2, Nat.mul_mod_left, if_true] at first second
    exact Prod.ext first second
  · rintro ⟨even, each⟩
    refine ⟨by omega, fun c less => ?_⟩
    rw [each (c / 2) (by omega), half]
    split
    · rw [show c / 2 * 2 = c by omega]
    · rw [show c / 2 * 2 + 1 = c by omega]

theorem pair?_eq_some (isVals : x.vals = ws.map Scal.int) {e : Nat} {p : BitVec 32 × BitVec 32} :
    x.pair? e = some p ↔ e * 2 + 1 < ws.length ∧ pairOf ws e = p := by
  unfold Operand.pair? pairOf
  rw [int?_eq isVals, int?_eq isVals]
  by_cases inside : e * 2 + 1 < ws.length
  · have first : e * 2 < ws.length := by omega
    simp [inside, first]
  · simp [inside]

/-! ## When the code is right -/

/-- The functions that the code is right for, by what the translator takes the argument for. Where
it takes integers for doubles, pairs of components have to come out right. -/
def MathRight (isF64 isSigned : Bool) (fun' : MathFunction) (x : Operand) (y z : Option Operand) :
    Prop :=
  let kind := x.ty.kind
  match fun' with
  | .countOneBits | .reverseBits | .countLeadingZeros => True
  | .firstLeadingBit => isSigned = decide (kind = .sint) ∨ ∀ w, .int w ∈ x.vals → w.msb = false
  | .firstTrailingBit => .int 0 ∉ x.vals
  | .sign | .dot => False
  | .abs => isF64 = true ∧ x.vals.length % 2 = 0 ∧ ∀ e p, x.pair? e = some p →
      (p.1, p.2 &&& 0x7FFFFFFF) = (absInt kind p.1, absInt kind p.2)
  | .min => isF64 = true ∧ x.vals.length % 2 = 0 ∧ ∀ e p q, x.pair? e = some p →
      y.bind (·.pair? e) = some q →
        picked .ordLt p q = (minInt kind p.1 q.1, minInt kind p.2 q.2)
  | .max => isF64 = true ∧ x.vals.length % 2 = 0 ∧ ∀ e p q, x.pair? e = some p →
      y.bind (·.pair? e) = some q →
        picked .ordGt p q = (maxInt kind p.1 q.1, maxInt kind p.2 q.2)
  | .clamp => isF64 = true ∧ x.vals.length % 2 = 0 ∧ ∀ e p q r, x.pair? e = some p →
      y.bind (·.pair? e) = some q → z.bind (·.pair? e) = some r →
        picked .ordGt (picked .ordLt p r) q =
          (minInt kind (maxInt kind p.1 q.1) r.1, minInt kind (maxInt kind p.2 q.2) r.2)

/-- The results of a function that is applied to each component. -/
theorem math_eq {fun' : MathFunction} (notDot : fun' ≠ .dot) {y z : Option Operand}
    (isVals : x.vals = ws.map Scal.int) {h : Nat → BitVec 32}
    (each : ∀ c < ws.length, mathInt fun' x.ty.kind (ws.getD c 0) (y.bind (·.int? c))
      (z.bind (·.int? c)) = some (h c)) :
    math fun' x y z = (List.range ws.length).map fun c => some (.int (h c)) := by
  have isMath : math fun' x y z = (List.range x.vals.length).map fun c => do
      let a ← x.int? c
      return .int (← mathInt fun' x.ty.kind a (y.bind (·.int? c)) (z.bind (·.int? c))) := by
    cases fun' <;> first | rfl | exact absurd rfl notDot
  rw [isMath, isVals, length_map]
  refine map_congr_left fun c member => ?_
  have less := mem_range.mp member
  have here := each c less
  rw [getD_eq_getElem?_getD, List.getElem?_eq_getElem less, Option.getD_some] at here
  rw [int?_eq isVals, List.getElem?_eq_getElem less]
  simp [here]

/-- One op for each component. -/
theorem each_yield (isVals : x.vals = ws.map Scal.int) {fun' : MathFunction} (notDot : fun' ≠ .dot)
    {g h : BitVec 32 → BitVec 32} (isMath : ∀ w, mathInt fun' x.ty.kind w none none = some (h w)) :
    Yields ((words ws).map (onWord g)) (math fun' x none none) ↔
      ∀ w, .int w ∈ x.vals → g w = h w := by
  have values : (words ws).map (onWord g) =
      words ((List.range ws.length).map fun c => g (ws.getD c 0)) := by
    apply ext_getElem
    · simp
    · intro c inside _
      have less : c < ws.length := by simpa using inside
      simp [words, onWord, less]
  rw [math_eq notDot isVals fun c _ => isMath _, values, words_yield, isVals]
  constructor
  · rintro ⟨-, each⟩ w member
    rcases getElem_of_mem (mem_map_of_injective (fun _ _ => Scal.int.inj) |>.mp member)
      with ⟨c, inside, rfl⟩
    simpa [inside] using each c inside
  · intro each
    refine ⟨rfl, fun c inside => ?_⟩
    simpa [inside] using each ws[c] (mem_map_of_mem (getElem_mem inside))

/-- The subtraction wraps around to all ones when no bit is set. -/
theorem leading_eq (bits : BitVec 32) :
    (if bits = 0 then -1 else 31 - bits.clz) = 31 - bits.clz := by
  split
  · have none : bits.clz = 32#32 := BitVec.clz_eq_iff_eq_zero.mpr ‹_›
    rw [none]
    rfl
  · rfl

theorem clz_eq_zero_iff_msb {w : BitVec 32} : w.clz = 0 ↔ w.msb = true := by
  rw [BitVec.toNat_eq, BitVec.msb_eq_decide, decide_eq_true_iff]
  exact BitVec.clz_eq_zero_iff (by decide)

/-- The leading bit that `Flo` finds depends on whether it takes the highest bit for a sign. -/
theorem floValue_eq_iff {signed : Bool} {kind : Kind} {w : BitVec 32} :
    floValue signed false w = firstLeadingBit kind w ↔
      signed = decide (kind = .sint) ∨ w.msb = false := by
  have differ {x y : BitVec 32} (same : 31 - x.clz = 31 - y.clz) : x.msb = y.msb := by
    have equal : x.clz = y.clz := by bv_omega
    rw [Bool.eq_iff_iff, ← clz_eq_zero_iff_msb, ← clz_eq_zero_iff_msb, equal]
  have inverted (sign : w.msb = true) : (~~~w).msb ≠ w.msb := by
    rw [BitVec.msb_not, sign]
    decide
  unfold firstLeadingBit
  dsimp only
  rw [leading_eq]
  unfold floValue
  by_cases sign : w.msb = true
  · by_cases isSint : kind = .sint
    · cases signed with
      | true => simp [sign, isSint]
      | false => simpa [sign, isSint] using fun same => inverted sign (differ same).symm
    · cases signed with
      | true => simpa [sign, isSint] using fun same => inverted sign (differ same)
      | false => simp [isSint]
  · simp [sign]

/-- The count for zero is not the index of a bit. -/
theorem reverse_clz_eq_iff {w : BitVec 32} : w.reverse.clz = firstTrailingBit w ↔ w ≠ 0 := by
  unfold firstTrailingBit
  by_cases zero : w = 0
  · subst zero
    have none : (0 : BitVec 32).reverse.clz = 32#32 :=
      BitVec.clz_eq_iff_eq_zero.mpr (BitVec.reverse_eq_zero_iff.mpr rfl)
    rw [none]
    decide
  · rw [if_neg zero]
    exact iff_of_true rfl zero

section pairs

variable {x y z : Operand} {ws vs us : List (BitVec 32)}

theorem abs_right (isVals : x.vals = ws.map Scal.int) (nonempty : ws ≠ []) :
    Yields (absValues (words ws)) (math .abs x none none) ↔
      x.vals.length % 2 = 0 ∧ ∀ e p, x.pair? e = some p →
        (p.1, p.2 &&& 0x7FFFFFFF) = (absInt x.ty.kind p.1, absInt x.ty.kind p.2) := by
  have notDot : MathFunction.abs ≠ .dot := fun never => nomatch never
  rw [absValues_words nonempty, math_eq notDot isVals fun c _ => rfl,
    pairs_yield (g := fun e => ((pairOf ws e).1, (pairOf ws e).2 &&& 0x7FFFFFFF))
      (length_pos_iff.mpr nonempty), isVals, length_map]
  refine and_congr_right fun _ => forall_congr' fun e => ?_
  simp only [pair?_eq_some isVals]
  constructor
  · rintro each p ⟨inside, rfl⟩
    exact each inside
  · intro each inside
    exact each _ ⟨inside, rfl⟩

/-- A function of two arguments whose results are picked in pairs. -/
theorem minMax_right {cmpOp : FloatCmpOp} {fun' : MathFunction} (notDot : fun' ≠ .dot)
    {f : BitVec 32 → BitVec 32 → BitVec 32}
    (isMath : ∀ a b, mathInt fun' x.ty.kind a (some b) none = some (f a b))
    (isVals : x.vals = ws.map Scal.int) (isVals' : y.vals = vs.map Scal.int)
    (lengths : vs.length = ws.length) (nonempty : ws ≠ []) :
    Yields (words (minMaxWords cmpOp ws vs)) (math fun' x (some y) none) ↔
      x.vals.length % 2 = 0 ∧ ∀ e p q, x.pair? e = some p → (some y).bind (·.pair? e) = some q →
        picked cmpOp p q = (f p.1 q.1, f p.2 q.2) := by
  rw [math_eq (h := fun c => f (ws.getD c 0) (vs.getD c 0)) notDot isVals, minMaxWords, lengths,
    Nat.min_self, pairs_yield (g := fun e => picked cmpOp (pairOf ws e) (pairOf vs e))
      (length_pos_iff.mpr nonempty), isVals, length_map]
  · refine and_congr_right fun _ => forall_congr' fun e => ?_
    simp only [Option.bind_some, pair?_eq_some isVals, pair?_eq_some isVals', lengths]
    constructor
    · rintro each p q ⟨inside, rfl⟩ ⟨-, rfl⟩
      exact each inside
    · intro each inside
      exact each _ _ ⟨inside, rfl⟩ ⟨inside, rfl⟩
  · intro c less
    have less' : c < vs.length := lengths ▸ less
    simp [int?_eq isVals', less', isMath]

theorem clamp_right (isVals : x.vals = ws.map Scal.int) (isVals' : y.vals = vs.map Scal.int)
    (isVals'' : z.vals = us.map Scal.int) (lengths : vs.length = ws.length)
    (lengths' : us.length = ws.length) (nonempty : ws ≠ []) :
    Yields (words (minMaxWords .ordGt (minMaxWords .ordLt ws us) vs))
        (math .clamp x (some y) (some z)) ↔
      x.vals.length % 2 = 0 ∧ ∀ e p q r, x.pair? e = some p →
        (some y).bind (·.pair? e) = some q → (some z).bind (·.pair? e) = some r →
          picked .ordGt (picked .ordLt p r) q =
            (minInt x.ty.kind (maxInt x.ty.kind p.1 q.1) r.1,
              minInt x.ty.kind (maxInt x.ty.kind p.2 q.2) r.2) := by
  have positive := length_pos_iff.mpr nonempty
  have isMath : math .clamp x (some y) (some z) = (List.range ws.length).map fun c =>
      some (.int
        (minInt x.ty.kind (maxInt x.ty.kind (ws.getD c 0) (vs.getD c 0)) (us.getD c 0))) := by
    have notDot : MathFunction.clamp ≠ .dot := fun never => nomatch never
    refine math_eq notDot isVals fun c less => ?_
    have less' : c < vs.length ∧ c < us.length := by omega
    simp [int?_eq isVals', int?_eq isVals'', less'.1, less'.2, mathInt]
  have isPicked : minMaxWords .ordGt (minMaxWords .ordLt ws us) vs =
      (List.range (max ws.length 2 / 2 * 2)).map fun c => half c
        (picked .ordGt (picked .ordLt (pairOf ws (c / 2)) (pairOf us (c / 2)))
          (pairOf vs (c / 2))) := by
    have inner : (minMaxWords .ordLt ws us).length = max ws.length 2 / 2 * 2 := by
      simp [minMaxWords, lengths']
    rw [minMaxWords, inner, lengths,
      show min (max (max ws.length 2 / 2 * 2) 2) (max ws.length 2) / 2 * 2 =
        max ws.length 2 / 2 * 2 by omega]
    refine map_congr_left fun c member => ?_
    have less := mem_range.mp member
    rw [pairOf_minMaxWords (by omega)]
  rw [isMath, isPicked, pairs_yield positive
    (g := fun e => picked .ordGt (picked .ordLt (pairOf ws e) (pairOf us e)) (pairOf vs e)),
    isVals, length_map]
  refine and_congr_right fun _ => forall_congr' fun e => ?_
  simp only [Option.bind_some, pair?_eq_some isVals, pair?_eq_some isVals', pair?_eq_some isVals'',
    lengths, lengths']
  constructor
  · rintro each p q r ⟨inside, rfl⟩ ⟨-, rfl⟩ ⟨-, rfl⟩
    exact each inside
  · intro each inside
    exact each _ _ _ ⟨inside, rfl⟩ ⟨inside, rfl⟩ ⟨inside, rfl⟩

end pairs

/-! ## Builtin functions in a program -/

/-- The code of a builtin function returns registers that hold the result of WGSL. -/
def MathMeets (s : FuncTranslator) (start : Env) (fun' : MathFunction) (a : SSARef)
    (b c : Option SSARef) (arg : Expression) (x : Operand) (y z : Option Operand) : Prop :=
  ∃ dst s', translateMath fun' a b c arg s = .ok (dst, s') ∧
    Yields (dst.map (s'.env noFold start)) (math fun' x y z)

/-- The registers of an argument that may be missing. -/
def HoldsArg (s : FuncTranslator) (start : Env) (b : Option SSARef) (y : Option Operand) : Prop :=
  match b, y with
  | some vec, some y => Holds noFold s start vec y
  | none, none => True
  | _, _ => False

/-- Two arguments of one type. -/
theorem HoldsArg.words {s : FuncTranslator} {start : Env} {b : Option SSARef} {y : Option Operand}
    (holds : HoldsArg s start b y) {ty : Ty} (same : y.map (·.ty) = some ty)
    (notBool : ty.kind ≠ .bool) : ∃ vec y' ws, b = some vec ∧ y = some y' ∧ Ready s vec ∧
      vec.map (s.env noFold start) = NagaTranslate.words ws ∧ y'.vals = ws.map Scal.int ∧
        ws.length = ty.comps := by
  cases y with
  | none => cases same
  | some y' =>
    cases b with
    | none => exact holds.elim
    | some vec =>
      have isTy : y'.ty = ty := Option.some.inj same
      rcases exists_words holds.represents (isTy ▸ notBool) with ⟨ws, isWords, isVals⟩
      refine ⟨vec, y', ws, rfl, rfl, holds.ready, isWords, isVals, ?_⟩
      rw [← isTy, ← y'.length_vals, isVals, length_map]

/-- The code of a builtin function yields the result of WGSL exactly for the arguments of
`MathRight`. -/
theorem translateMath_correct_iff (s : FuncTranslator) (start : Env) (fun' : MathFunction)
    (a : SSARef) (b c : Option SSARef) (arg : Expression) (x : Operand) (y z : Option Operand)
    (live : s.deadCode = false) (first : Holds noFold s start a x) (second : HoldsArg s start b y)
    (third : HoldsArg s start c z)
    (allows : allowedMath fun' x.ty (y.map (·.ty)) (z.map (·.ty)) = true) :
    MathMeets s start fun' a b c arg x y z ↔
      MathRight (s.ctx.isF64Expr arg) (s.ctx.isSignedIntExpr arg) fun' x y z := by
  have ready := first.ready
  have notBool : x.ty.kind ≠ .bool := by
    cases fun' <;> simp_all [allowedMath]
  rcases exists_words first.represents notBool with ⟨ws, isWords, isVals⟩
  have nonempty : ws ≠ [] := by
    have := vals_pos x
    rw [isVals, List.length_map] at this
    exact List.length_pos_iff.mp this
  have meets {p : EmitM SSARef} {values : Env → List (Option Value)}
      (emits : EmitsValues noFold p s values)
      (same : translateMath fun' a b c arg = p) :
      MathMeets s start fun' a b c arg x y z ↔ Yields (values start) (math fun' x y z) := by
    unfold MathMeets
    rw [same]
    exact emitsValues_meets emits start
  have unary (isNone : y.map (·.ty) = none ∧ z.map (·.ty) = none) : y = none ∧ z = none := by
    simpa using isNone
  have unaryKind (allows : x.ty.kind ≠ .bool ∧ y.map (·.ty) = none ∧ z.map (·.ty) = none) :=
    unary allows.2
  have ne_nil {vs : List (BitVec 32)} (lengths : vs.length = ws.length) : vs ≠ [] := by
    rw [← List.length_pos_iff, lengths]
    exact List.length_pos_iff.mpr nonempty
  have byF64 {values : List (Option Value)} {cond : Prop}
      (right : Yields values (math fun' x y z) ↔ cond) :
      Yields (if s.ctx.isF64Expr arg then values else [none]) (math fun' x y z) ↔
        s.ctx.isF64Expr arg = true ∧ cond := by
    cases s.ctx.isF64Expr arg with
    | true => simpa using right
    | false => simpa using not_yields_none
  cases fun' with
  | countOneBits =>
    rcases unaryKind (by simpa [allowedMath] using allows) with ⟨rfl, rfl⟩
    rw [meets (countOneBits_emits live ready) rfl, isWords,
      each_yield isVals (by decide) fun _ => rfl]
    exact iff_of_true (fun _ _ => rfl) trivial
  | reverseBits =>
    rcases unaryKind (by simpa [allowedMath] using allows) with ⟨rfl, rfl⟩
    rw [meets (reverseBits_emits live ready) rfl, isWords,
      each_yield isVals (by decide) fun _ => rfl]
    exact iff_of_true (fun _ _ => rfl) trivial
  | countLeadingZeros =>
    rcases unaryKind (by simpa [allowedMath] using allows) with ⟨rfl, rfl⟩
    rw [meets (flo_emits live ready.nonempty ready.small ready.allocated false true) rfl, isWords,
      each_yield isVals (by decide) fun _ => rfl]
    exact iff_of_true (fun _ _ => by simp [floValue]) trivial
  | firstLeadingBit =>
    rcases unaryKind (by simpa [allowedMath] using allows) with ⟨rfl, rfl⟩
    rw [meets (.get_bind (flo_emits live ready.nonempty ready.small ready.allocated
      (s.ctx.isSignedIntExpr arg) false)) rfl, isWords, each_yield isVals (by decide) fun _ => rfl]
    simp only [floValue_eq_iff, MathRight, forall_or_left]
  | firstTrailingBit =>
    rcases unaryKind (by simpa [allowedMath] using allows) with ⟨rfl, rfl⟩
    rw [meets (firstTrailingBit_emits live ready) rfl, isWords,
      each_yield isVals (by decide) fun _ => rfl]
    simp only [reverse_clz_eq_iff, MathRight]
    exact ⟨fun each member => each 0 member rfl, fun absent w member zero => absent (zero ▸ member)⟩
  | sign =>
    rw [meets (translateSign_emits live ready) rfl]
    exact iff_of_false not_yields_none fun never => never
  | dot =>
    have same : y.map (·.ty) = some x.ty ∧ _ := (by simpa [allowedMath] using allows :
      x.ty.kind ≠ .bool ∧ x.ty.size ≠ none ∧ y.map (·.ty) = some x.ty ∧ z = none).2.2
    rcases second.words same.1 notBool with ⟨vec, y', vs, rfl, rfl, ready', -⟩
    rw [meets (translateDot_emits live ready ready') rfl]
    exact iff_of_false not_yields_none fun never => never
  | abs =>
    rcases unaryKind (by simpa [allowedMath] using allows) with ⟨rfl, rfl⟩
    rw [meets (translateAbs_emits live ready arg) rfl, isWords]
    exact byF64 (abs_right isVals nonempty)
  | min =>
    rcases (by simpa [allowedMath] using allows :
      x.ty.kind ≠ .bool ∧ y.map (·.ty) = some x.ty ∧ z = none) with ⟨-, same, rfl⟩
    rcases second.words same notBool
      with ⟨vec, y', vs, rfl, rfl, ready', isWords', isVals', lengths⟩
    have lengths : vs.length = ws.length := by
      rw [lengths, ← x.length_vals, isVals, List.length_map]
    rw [meets (translateMin_emits live ready ready' arg) rfl, isWords, isWords',
      minMaxValues_words nonempty (ne_nil lengths)]
    exact byF64 (minMax_right (by decide) (fun _ _ => rfl) isVals isVals' lengths nonempty)
  | max =>
    rcases (by simpa [allowedMath] using allows :
      x.ty.kind ≠ .bool ∧ y.map (·.ty) = some x.ty ∧ z = none) with ⟨-, same, rfl⟩
    rcases second.words same notBool
      with ⟨vec, y', vs, rfl, rfl, ready', isWords', isVals', lengths⟩
    have lengths : vs.length = ws.length := by
      rw [lengths, ← x.length_vals, isVals, List.length_map]
    rw [meets (translateMax_emits live ready ready' arg) rfl, isWords, isWords',
      minMaxValues_words nonempty (ne_nil lengths)]
    exact byF64 (minMax_right (by decide) (fun _ _ => rfl) isVals isVals' lengths nonempty)
  | clamp =>
    rcases (by simpa [allowedMath] using allows :
      x.ty.kind ≠ .bool ∧ y.map (·.ty) = some x.ty ∧ z.map (·.ty) = some x.ty)
      with ⟨-, same, same'⟩
    rcases second.words same notBool
      with ⟨vec, y', vs, rfl, rfl, ready', isWords', isVals', lengths⟩
    rcases third.words same' notBool
      with ⟨vec', z', us, rfl, rfl, ready'', isWords'', isVals'', lengths'⟩
    have lengths : vs.length = ws.length := by
      rw [lengths, ← x.length_vals, isVals, List.length_map]
    have lengths' : us.length = ws.length := by
      rw [lengths', ← x.length_vals, isVals, List.length_map]
    rw [meets (translateClamp_emits live ready ready' ready'' arg) rfl, isWords, isWords',
      isWords'',
      minMaxValues_words nonempty (ne_nil lengths'), minMaxValues_words ?_ (ne_nil lengths)]
    · exact byF64 (clamp_right isVals isVals' isVals'' lengths lengths' nonempty)
    · have positive := List.length_pos_iff.mpr nonempty
      refine List.length_pos_iff.mp ?_
      rw [minMaxWords, List.length_map, List.length_range]
      omega

theorem translateMath_correct_sign :
    MathMeets (wordPair 70) (wordPairEnv (-1) 0) .firstLeadingBit [⟨.gpr, 1⟩] none none .other
      (i32 (-1)) none none := by
  have first := (wordPair_holds 70 (-1) 0).1
  refine (translateMath_correct_iff (wordPair 70) _ .firstLeadingBit _ none none .other _ none none
    rfl first trivial trivial rfl).mpr (.inl ?_)
  decide

/-- The lowest bit of zero is taken to be 32, and the larger of two integers has no value. -/
theorem translateMath_zero_fails :
    ¬ MathMeets (wordPair 70) (wordPairEnv 0 0) .firstTrailingBit [⟨.gpr, 1⟩] none none .other
        (i32 0) none none ∧
      ¬ MathMeets (wordPair 70) (wordPairEnv (-1) (-2)) .max [⟨.gpr, 1⟩] (some [⟨.gpr, 2⟩]) none
        .other (i32 (-1)) (some (i32 (-2))) none := by
  constructor
  · rintro ⟨dst, s', ran, yields⟩
    cases ran
    have expected : math .firstTrailingBit (i32 0) none none = [some (.int (-1))] := by
      decide
    rw [expected] at yields
    cases yields with
    | cons first _ =>
      rcases first with ⟨_, ⟨⟩, holds⟩
      exact absurd (represents_int.mp holds) (by decide +kernel)
  · rintro ⟨dst, s', ran, yields⟩
    cases ran
    cases yields with
    | cons first _ =>
      rcases first with ⟨_, -, never⟩
      exact never

end NagaTranslate

end CoralReef
