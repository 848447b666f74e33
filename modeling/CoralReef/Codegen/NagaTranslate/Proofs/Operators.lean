import CoralReef.Codegen.NagaTranslate.Proofs.Unary
import CoralReef.Codegen.NagaTranslate.Proofs.Wgsl

/-!
# The operators of WGSL and their code

For which operators and operands the code of `translate_binary` and `translate_unary` yields the
value of WGSL.
-/

namespace CoralReef.NagaTranslate

open List Wgsl

/-! ## When the code is right -/

/-- Every component is held by a general register. -/
def InWords (values : List (Option Value)) : Prop := ∀ v ∈ values, ∃ w, v = some (.word w)

/-- Every component is held by a predicate register. -/
def InPreds (values : List (Option Value)) : Prop := ∀ v ∈ values, ∃ b, v = some (.pred b)

/-- The word that stands for a scalar in a general register. -/
def wordOf : Scal → BitVec 32
  | .int x => x
  | .bool b => if b then 1 else 0

/-- A comparison of words is unsigned, of words that are taken for doubles by sign and magnitude,
and of words that are taken for floats no comparison of words. -/
def ComparisonRight (isFloat isF64 : Bool) (op : BinaryOperator) (kind : Kind) (x y : Scal) :
    Prop :=
  if isF64 then DoubledRight op kind (wordOf x) (wordOf y)
  else isFloat = false ∧
    (op = .equal ∨ op = .notEqual ∨ kind ≠ .sint ∨ (wordOf x).msb = (wordOf y).msb)

/-- The operands that the code of a binary operator is right for, by what the translator takes the
left operand for. -/
def BinaryRight (isFloat isF64 : Bool) (op : BinaryOperator) (x y : Operand)
    (l r : List (Option Value)) : Prop :=
  match op with
  | .add | .subtract => isFloat = false
  | .multiply => isFloat = false ∧ (x.ty.size = none → y.ty.size = none)
  | .divide | .modulo => False
  | .and | .inclusiveOr => x.ty.kind = .bool → InWords l ∧ InWords r
  | .exclusiveOr | .shiftLeft => True
  | .shiftRight => x.ty.kind = .sint → ∀ (c : Nat) (a b : BitVec 32),
      x.vals[c]? = some (.int a) → y.vals[c]? = some (.int b) → a.msb = false ∨ b.toNat % 32 = 0
  | .logicalAnd | .logicalOr => x.ty.size = none ∧ InPreds l ∧ InPreds r
  | _ => x.ty.size = none ∧ InWords l ∧ InWords r ∧
      ∀ a b, x.vals = [a] → y.vals = [b] → ComparisonRight isFloat isF64 op x.ty.kind a b

/-- The operands that the code of a unary operator is right for. -/
def UnaryRight (isFloat : Bool) (sm : Nat) (op : UnaryOperator) (x : Operand) : Prop :=
  match op with
  | .negate => isFloat = false
  | .logicalNot => True
  | .bitwiseNot => 70 ≤ sm ∨ ∀ v ∈ x.vals, v = .int (BitVec.allOnes 32)

/-- What is taken for a double is taken for a float. -/
theorem isFloatExpr_of_isF64Expr {ctx : Context} : ∀ {expr : Expression},
    ctx.isF64Expr expr = true → ctx.isFloatExpr expr = true := by
  have resolves (expr : Expression)
      (isF64 : ctx.resolvesTo (fun scalar => scalar.kind = .float ∧ scalar.width = 8) expr = true) :
      ctx.resolvesTo (fun scalar => scalar.kind = .float) expr = true := by
    unfold Context.resolvesTo at isF64 ⊢
    split at isF64
    · cases isF64
    · split at isF64
      · simpa using (by simpa using isF64 : _ ∧ _).1
      · simpa using (by simpa using isF64 : _ ∧ _).1
      · cases isF64
  intro expr
  induction expr with
  | literal lit =>
    intro isF64
    have : lit = .f64 := by simpa [Context.isF64Expr] using isF64
    simp [Context.isFloatExpr, this]
  | binary left ih => exact ih
  | unary inner ih => exact ih
  | math arg ih => exact ih
  | _ => exact resolves _

/-! ## Binary operators -/

section binary

variable {x y : Operand} {l r : List (Option Value)}
variable {op : BinaryOperator} {scals : List (Option Scal)} {h : BitVec 32 → BitVec 32 → BitVec 32}
  {v : Option Value}

/-- The scalar result at a component. -/
def scalarAt (op : BinaryOperator) (x y : Operand) (c : Nat) : Option Scal := do
  binaryScalar op x.ty.kind (← x.at? c) (← y.at? c)

theorem each_yields (represents : RepresentsAll l x)
    {g : Option Value → Option Value → Option Value} :
    Yields (eachValue g l r) (binary op x y) ↔
      y.vals.length ≤ x.vals.length ∧ ∀ c < x.vals.length, ∃ s, scalarAt op x y c = some s ∧
        Represents (toGpr (g (broadcast l c) (broadcast r c))) s := by
  have lengths : l.length = x.vals.length := represents.length_eq
  have positive := vals_pos x
  unfold eachValue binary
  rw [yields_range, lengths, show max x.vals.length 1 = x.vals.length by omega]
  constructor
  · rintro ⟨same, each⟩
    exact ⟨by omega, each⟩
  · rintro ⟨less, each⟩
    exact ⟨by omega, each⟩

/-- A register without a value holds nothing. -/
theorem not_yields_none {vs : List (Option Value)} :
    ¬ Yields (none :: vs) scals := by
  intro yields
  cases yields with
  | cons first _ =>
    rcases first with ⟨s, -, never⟩
    exact never

theorem not_yields_replicate {n : Nat} (positive : 0 < n) :
    ¬ Yields (List.replicate n none) scals := by
  rcases Nat.exists_eq_add_of_lt positive with ⟨m, rfl⟩
  rw [Nat.zero_add, replicate_succ]
  exact not_yields_none

theorem not_yields_pairs (nonempty : 0 < l.length) :
    ¬ Yields (pairsValue l r) scals :=
  not_yields_replicate (by omega)

/-- Two operands of integers. -/
theorem ints_yield (first : RepresentsAll l x) (second : RepresentsAll r y)
    (notBool : x.ty.kind ≠ .bool) (notBool' : y.ty.kind ≠ .bool) :
    Yields (eachValue (onWords fun a b => .word (h a b)) l r) (binary op x y) ↔
      y.vals.length ≤ x.vals.length ∧ ∀ c < x.vals.length, ∀ a b, x.at? c = some (.int a) →
        y.at? c = some (.int b) →
          Represents (some (.word (h a b))) (binaryInt op x.ty.kind a b) := by
  rw [each_yields first]
  refine and_congr_right fun _ => forall₂_congr fun c _ => ?_
  rcases first.int notBool c with ⟨a, atX, isL⟩
  rcases second.int notBool' c with ⟨b, atY, isR⟩
  have scalar : scalarAt op x y c = some (binaryInt op x.ty.kind a b) := by
    simp [scalarAt, atX, atY, binaryScalar]
  have value : toGpr (onWords (fun a b => .word (h a b)) (broadcast l c) (broadcast r c)) =
      some (.word (h a b)) := by
    simp [isL, isR, onWords, toGpr]
  rw [scalar, value, atX, atY]
  simp

/-- An operator on integers whose code is right for all of them. -/
theorem ints_yield_of_eq (first : RepresentsAll l x) (second : RepresentsAll r y)
    (notBool : x.ty.kind ≠ .bool) (notBool' : y.ty.kind ≠ .bool)
    (right : ∀ a b, binaryInt op x.ty.kind a b = .int (h a b)) :
    Yields (eachValue (onWords fun a b => .word (h a b)) l r) (binary op x y) ↔
      y.vals.length ≤ x.vals.length := by
  rw [ints_yield first second notBool notBool']
  refine and_iff_left fun c _ a b _ _ => ?_
  rw [right]
  rfl

/-- The code of an arithmetic operator is right unless it is made for floats. -/
theorem arithmetic_right (first : RepresentsAll l x) (second : RepresentsAll r y)
    (notBool : x.ty.kind ≠ .bool) (notBool' : y.ty.kind ≠ .bool)
    (right : ∀ a b, binaryInt op x.ty.kind a b = .int (h a b)) {isFloat isF64 : Bool}
    (floats : isF64 = true → isFloat = true) :
    Yields (arithmeticValues isFloat isF64 (fun a b => .word (h a b)) l r) (binary op x y) ↔
      isFloat = false ∧ y.vals.length ≤ x.vals.length := by
  have positive : 0 < l.length := first.length_eq ▸ vals_pos x
  unfold arithmeticValues
  cases isF64 with
  | true =>
    rw [floats rfl]
    simpa using not_yields_pairs positive
  | false =>
    cases isFloat with
    | true => simpa using not_yields_replicate (by omega)
    | false => simpa using ints_yield_of_eq first second notBool notBool' right

theorem allowed_lengths (same : x.ty = y.ty) : y.vals.length = x.vals.length := by
  rw [x.length_vals, y.length_vals, same]

/-- A register that a loop reads. -/
theorem mem_broadcast (member : v ∈ l) : ∃ c < l.length, broadcast l c = v := by
  rcases getElem_of_mem member with ⟨c, inside, rfl⟩
  exact ⟨c, inside, by simp [broadcast, inside]⟩

/-- A bitwise operator on bools is right when they are all in general registers. -/
theorem bools_yield (first : RepresentsAll l x) (second : RepresentsAll r y) (same : x.ty = y.ty)
    (isBool : x.ty.kind = .bool)
    (right : ∀ a b : Bool, h (if a then 1 else 0) (if b then 1 else 0) =
      if binaryBool op a b then 1 else 0) :
    Yields (eachValue (onWords fun a b => .word (h a b)) l r) (binary op x y) ↔
      InWords l ∧ InWords r := by
  have lengths := allowed_lengths same
  have lengthL : l.length = x.vals.length := first.length_eq
  have lengthR : r.length = y.vals.length := second.length_eq
  rw [each_yields first]
  constructor
  · rintro ⟨-, each⟩
    have words (c : Nat) (less : c < x.vals.length) :
        (∃ w, broadcast l c = some (.word w)) ∧ ∃ w, broadcast r c = some (.word w) := by
      rcases each c less with ⟨s, -, holds⟩
      rcases first.bool isBool c with ⟨a, -, -, isL⟩
      rcases second.bool (same ▸ isBool) c with ⟨b, -, -, isR⟩
      rcases isL with isL | isL <;> rcases isR with isR | isR <;>
        simp [isL, isR, onWords, toGpr, Represents] at holds ⊢
    constructor
    · intro v member
      rcases mem_broadcast member with ⟨c, less, rfl⟩
      exact (words c (lengthL ▸ less)).1
    · intro v member
      rcases mem_broadcast member with ⟨c, less, rfl⟩
      exact (words c (lengths ▸ lengthR ▸ less)).2
  · rintro ⟨wordsL, wordsR⟩
    refine ⟨lengths.le, fun c _ => ?_⟩
    rcases first.bool isBool c with ⟨a, atX, memberL, isL⟩
    rcases second.bool (same ▸ isBool) c with ⟨b, atY, memberR, isR⟩
    rcases wordsL _ memberL with ⟨w, isW⟩
    rcases wordsR _ memberR with ⟨w', isW'⟩
    have isL : broadcast l c = some (.word (if a then 1 else 0)) := by
      rcases isL with isL | isL
      · rw [isW] at isL
        cases isL
      · exact isL
    have isR : broadcast r c = some (.word (if b then 1 else 0)) := by
      rcases isR with isR | isR
      · rw [isW'] at isR
        cases isR
      · exact isR
    refine ⟨.bool (binaryBool op a b), ?_, ?_⟩
    · simp [scalarAt, atX, atY, binaryScalar]
    · rw [isL, isR]
      exact right a b

/-- A logical shift is an arithmetic one where no sign is shifted. -/
theorem shiftRight_eq_iff {a : BitVec 32} {n : Nat} :
    a >>> n = a.sshiftRight n ↔ a.msb = false ∨ n = 0 := by
  constructor
  · intro same
    by_contra signs
    push Not at signs
    have sign : a.msb = true := by simpa using signs.1
    have top := congrArg BitVec.msb same
    rw [BitVec.msb_ushiftRight, BitVec.msb_sshiftRight, sign] at top
    simp [signs.2] at top
  · rintro (positive | rfl)
    · exact (BitVec.sshiftRight_eq_of_msb_false positive).symm
    · simp

theorem shiftRight_right (first : RepresentsAll l x) (second : RepresentsAll r y)
    (notBool : x.ty.kind ≠ .bool) (notBool' : y.ty.kind ≠ .bool)
    (lengths : y.vals.length = x.vals.length) :
    Yields (eachValue (onWords fun a b => .word (a >>> (b.toNat % 32))) l r)
        (binary .shiftRight x y) ↔
      (x.ty.kind = .sint → ∀ (c : Nat) (a b : BitVec 32), x.vals[c]? = some (.int a) →
        y.vals[c]? = some (.int b) → a.msb = false ∨ b.toNat % 32 = 0) := by
  rw [ints_yield first second notBool notBool']
  have at_eq (c : Nat) (less : c < x.vals.length) :
      x.at? c = x.vals[c]? ∧ y.at? c = y.vals[c]? := by
    simp [Operand.at?, less, lengths]
  have holds (a b : BitVec 32) (signed : x.ty.kind = .sint) :
      Represents (some (.word (a >>> (b.toNat % 32)))) (binaryInt .shiftRight x.ty.kind a b) ↔
        a.msb = false ∨ b.toNat % 32 = 0 := by
    rw [← shiftRight_eq_iff, signed]
    rfl
  constructor
  · rintro ⟨-, each⟩ signed c a b isA isB
    rcases List.getElem?_eq_some_iff.mp isA with ⟨less, -⟩
    rw [← holds a b signed]
    exact each c less a b ((at_eq c less).1.trans isA) ((at_eq c less).2.trans isB)
  · intro right
    refine ⟨lengths.le, fun c less a b isA isB => ?_⟩
    by_cases signed : x.ty.kind = .sint
    · rw [holds a b signed]
      exact right signed c a b ((at_eq c less).1.symm.trans isA) ((at_eq c less).2.symm.trans isB)
    · show Represents _ (.int (if x.ty.kind = .sint then _ else _))
      rw [if_neg signed]
      rfl

/-- One register yields the result of scalars. -/
theorem single_yields {value : Option Value} (lengths : y.vals.length = x.vals.length) :
    Yields [value] (binary op x y) ↔
      x.vals.length = 1 ∧ ∃ s, scalarAt op x y 0 = some s ∧ Represents value s := by
  have positive := vals_pos x
  have asRange : [value] = (List.range 1).map fun _ => value := rfl
  rw [asRange, binary, yields_range]
  constructor
  · rintro ⟨one, each⟩
    exact ⟨by omega, each 0 Nat.one_pos⟩
  · rintro ⟨one, here⟩
    refine ⟨by omega, fun c less => ?_⟩
    rw [Nat.lt_one_iff.mp less]
    exact here

/-- The comparison of integers that an operator is translated to. -/
def intCmpOp : BinaryOperator → IntCmpOp
  | .notEqual => .ne
  | .less => .lt
  | .lessEqual => .le
  | .greater => .gt
  | .greaterEqual => .ge
  | _ => .eq

theorem less_eq_ult (kind : Kind) (a b : BitVec 32) :
    Wgsl.less kind a b = a.ult b ↔ kind ≠ .sint ∨ a.msb = b.msb := by
  unfold Wgsl.less
  by_cases signed : kind = .sint
  · rw [if_pos signed, BitVec.slt_eq_ult]
    cases a.msb <;> cases b.msb <;> cases a.ult b <;> simp [signed]
  · rw [if_neg signed]
    simp [signed]

/-- When the unsigned comparison is that of the integers. -/
theorem unsigned_iff (compares : isComparison op = true) {kind : Kind} {a b : BitVec 32} :
    binaryInt op kind a b = .bool ((intCmpOp op).eval false a b) ↔
      op = .equal ∨ op = .notEqual ∨ kind ≠ .sint ∨ a.msb = b.msb := by
  have swap := less_eq_ult kind b a
  rw [eq_comm (a := b.msb)] at swap
  cases op <;> (try exact absurd compares Bool.false_ne_true) <;>
    simp [binaryInt, intCmpOp, IntCmpOp.eval, less_eq_ult, swap]

/-- A comparison of bools is that of the words that stand for them. -/
theorem binaryScalar_wordOf (compares : isComparison op = true) {kind : Kind} {a b : Scal}
    (hasA : kind.has a = true) (hasB : kind.has b = true)
    (ordered : kind = .bool → op = .equal ∨ op = .notEqual) :
    binaryScalar op kind a b = some (binaryInt op kind (wordOf a) (wordOf b)) := by
  cases a with
  | int a =>
    cases b with
    | int b => rfl
    | bool b => cases kind <;> simp [Kind.has] at hasA hasB
  | bool a =>
    cases b with
    | int b => cases kind <;> simp [Kind.has] at hasA hasB
    | bool b =>
      have isBool : kind = .bool := by cases kind <;> simp [Kind.has] at hasA ⊢
      rcases ordered isBool with rfl | rfl
      · cases a <;> cases b <;> rfl
      · cases a <;> cases b <;> rfl

theorem represents_wordOf {a : Scal} (represents : Represents v a) :
    v = some (.word (wordOf a)) ∨ ∃ b, v = some (.pred b) := by
  cases a with
  | int w => exact .inl (represents_int.mp represents)
  | bool b =>
    rcases represents_bool.mp represents with isPred | isWord
    · exact .inr ⟨b, isPred⟩
    · exact .inl isWord

theorem represents_pred {p : Bool} {a : Scal} : Represents (some (.pred p)) a ↔ a = .bool p := by
  cases a with
  | int w => simp [Represents]
  | bool b => simp [Represents, eq_comm]

theorem inWords_singleton : InWords [v] ↔ ∃ w, v = some (.word w) := by
  simp [InWords]

theorem inPreds_singleton : InPreds [v] ↔ ∃ b, v = some (.pred b) := by
  simp [InPreds]

/-- The registers and the scalars of a scalar operand. -/
theorem scalar_cases (represents : RepresentsAll l x) (one : x.vals.length = 1) :
    ∃ v a, l = [v] ∧ x.vals = [a] ∧ Represents v a ∧ x.ty.kind.has a = true := by
  rcases length_eq_one_iff.mp one with ⟨a, isVals⟩
  have has := x.has_vals
  unfold RepresentsAll at represents
  rw [isVals] at represents has
  cases represents with
  | cons first rest =>
    cases rest
    exact ⟨_, a, rfl, isVals, first, by simpa using has⟩

/-- The code of a comparison compares the words of scalars. -/
theorem comparison_right (compares : isComparison op = true) (first : RepresentsAll l x)
    (second : RepresentsAll r y) (same : x.ty = y.ty)
    (ordered : x.ty.kind = .bool → op = .equal ∨ op = .notEqual) (isFloat isF64 : Bool) :
    Yields (comparisonValues isFloat isF64 (floatCmpOp op) (intCmpOp op) l r) (binary op x y) ↔
      x.ty.size = none ∧ InWords l ∧ InWords r ∧
        ∀ a b, x.vals = [a] → y.vals = [b] →
          ComparisonRight isFloat isF64 op x.ty.kind a b := by
  have lengths := allowed_lengths same
  have single : ∃ value, comparisonValues isFloat isF64 (floatCmpOp op) (intCmpOp op) l r =
      [value] := by
    unfold comparisonValues
    cases isF64 <;> cases isFloat <;> exact ⟨_, rfl⟩
  rcases single with ⟨value, isValue⟩
  rw [isValue, single_yields lengths, size_eq_none_iff]
  refine and_congr_right fun one => ?_
  rcases scalar_cases first one with ⟨v, a, rfl, isX, holdsA, hasA⟩
  rcases scalar_cases second (lengths.trans one) with ⟨w, b, rfl, isY, holdsB, hasB⟩
  rw [← same] at hasB
  have scalar : scalarAt op x y 0 =
      some (binaryInt op x.ty.kind (wordOf a) (wordOf b)) := by
    rw [← binaryScalar_wordOf compares hasA hasB ordered]
    simp [scalarAt, Operand.at?, isX, isY]
  rw [scalar, inWords_singleton, inWords_singleton]
  simp only [Option.some.injEq, exists_eq_left', isX, isY, List.cons.injEq, and_true]
  have undefined {p : Bool} {value : Option Value}
      (isPred : v = some (.pred p) ∨ w = some (.pred p))
      (isValue : comparisonValues isFloat isF64 (floatCmpOp op) (intCmpOp op) [v] [w] = [value]) :
      value = none := by
    rcases isPred with rfl | rfl
    · cases isF64 <;> cases isFloat <;>
        simpa [comparisonValues, pairF64, onWords] using isValue.symm
    · cases isF64 <;> cases isFloat <;>
        simpa [comparisonValues, pairF64, onWords] using isValue.symm
  rcases represents_wordOf holdsA with isWord | ⟨p, isPred⟩
  · rcases represents_wordOf holdsB with isWord' | ⟨p, isPred⟩
    · subst isWord isWord'
      unfold ComparisonRight
      cases isF64 with
      | true =>
        have isPred : value =
            some (.pred ((floatCmpOp op).eval (wordOf a ++ wordOf a) (wordOf b ++ wordOf b))) := by
          simpa [comparisonValues, pairF64] using isValue.symm
        rw [isPred, represents_pred, doubled_iff compares]
        simp
      | false =>
        cases isFloat with
        | true =>
          have isNone : value = none := by simpa [comparisonValues] using isValue.symm
          simp [isNone, Represents]
        | false =>
          have isPred : value =
              some (.pred ((intCmpOp op).eval false (wordOf a) (wordOf b))) := by
            simpa [comparisonValues, onWords] using isValue.symm
          rw [isPred, represents_pred, unsigned_iff compares]
          simp
    · rw [undefined (.inr isPred) isValue]
      simp [isPred, Represents]
  · rw [undefined (.inl isPred) isValue]
    simp [isPred, Represents]

/-- The code of a logical operator is on the predicates of scalars. -/
theorem logical_right {h : Bool → Bool → Bool} (right : ∀ a b, binaryBool op a b = h a b)
    (first : RepresentsAll l x) (second : RepresentsAll r y) (same : x.ty = y.ty)
    (isBool : x.ty.kind = .bool) :
    Yields [onPreds h (l[0]?).join (r[0]?).join] (binary op x y) ↔
      x.ty.size = none ∧ InPreds l ∧ InPreds r := by
  have lengths := allowed_lengths same
  rw [single_yields lengths, size_eq_none_iff]
  refine and_congr_right fun one => ?_
  rcases scalar_cases first one with ⟨v, a, rfl, isX, holdsA, hasA⟩
  rcases scalar_cases second (lengths.trans one) with ⟨w, b, rfl, isY, holdsB, hasB⟩
  rw [isBool] at hasA
  rw [← same, isBool] at hasB
  rcases Kind.has_bool hasA with ⟨p, rfl⟩
  rcases Kind.has_bool hasB with ⟨q, rfl⟩
  have scalar : scalarAt op x y 0 = some (.bool (h p q)) := by
    simp [scalarAt, Operand.at?, isX, isY, binaryScalar, right]
  rw [scalar, inPreds_singleton, inPreds_singleton]
  rcases represents_bool.mp holdsA with rfl | rfl <;>
    rcases represents_bool.mp holdsB with rfl | rfl <;> simp [onPreds, Represents]

/-- For which operands the values of a binary operator are those of WGSL. -/
theorem binary_right_iff (first : RepresentsAll l x) (second : RepresentsAll r y)
    (allows : allowed op x.ty y.ty = true) {isFloat isF64 : Bool}
    (floats : isF64 = true → isFloat = true) :
    Yields (binaryValues op isFloat isF64 l r) (binary op x y) ↔
      BinaryRight isFloat isF64 op x y l r := by
  have positive : 0 < l.length := first.length_eq ▸ vals_pos x
  have arithmetic {op : BinaryOperator} {h : BitVec 32 → BitVec 32 → BitVec 32}
      (right : ∀ a b, binaryInt op x.ty.kind a b = .int (h a b))
      (same : x.ty = y.ty ∧ x.ty.kind ≠ .bool) :
      Yields (arithmeticValues isFloat isF64 (fun a b => .word (h a b)) l r) (binary op x y) ↔
        isFloat = false := by
    rw [arithmetic_right first second same.2 (same.1 ▸ same.2) right floats,
      and_iff_left (allowed_lengths same.1).le]
  have division {op : BinaryOperator} :
      ¬ Yields (if isF64 then pairsValue l r else List.replicate (max l.length 1) none)
        (binary op x y) := by
    split
    · exact not_yields_pairs positive
    · exact not_yields_replicate (by omega)
  have bitwise {op : BinaryOperator} {h : BitVec 32 → BitVec 32 → BitVec 32}
      (right : ∀ a b, binaryInt op x.ty.kind a b = .int (h a b))
      (right' : ∀ a b : Bool, h (if a then 1 else 0) (if b then 1 else 0) =
        if binaryBool op a b then 1 else 0) (same : x.ty = y.ty) :
      Yields (eachValue (onWords fun a b => .word (h a b)) l r) (binary op x y) ↔
        (x.ty.kind = .bool → InWords l ∧ InWords r) := by
    by_cases isBool : x.ty.kind = .bool
    · rw [bools_yield first second same isBool right']
      simp [isBool]
    · rw [ints_yield_of_eq first second isBool (same ▸ isBool) right]
      simp [isBool, (allowed_lengths same).le]
  have words {op : BinaryOperator} {h : BitVec 32 → BitVec 32 → BitVec 32}
      (right : ∀ a b, binaryInt op x.ty.kind a b = .int (h a b))
      (notBool : x.ty.kind ≠ .bool) (notBool' : y.ty.kind ≠ .bool)
      (lengths : y.vals.length = x.vals.length) :
      Yields (eachValue (onWords fun a b => .word (h a b)) l r) (binary op x y) ↔ True := by
    rw [ints_yield_of_eq first second notBool notBool' right]
    simp [lengths]
  have compare {op : BinaryOperator} (compares : isComparison op = true)
      (same : x.ty = y.ty) (ordered : x.ty.kind = .bool → op = .equal ∨ op = .notEqual) :=
    comparison_right compares first second same ordered isFloat isF64
  have order (op : BinaryOperator) (compares : isComparison op = true)
      (same : x.ty = y.ty ∧ x.ty.kind ≠ .bool) :=
    compare compares same.1 fun isBool => absurd isBool same.2
  have shifts (same : x.ty.kind ≠ .bool ∧ y.ty.kind = .uint ∧ x.ty.size = y.ty.size) :
      y.ty.kind ≠ .bool ∧ y.vals.length = x.vals.length := by
    refine ⟨by simp [same.2.1], ?_⟩
    rw [x.length_vals, y.length_vals, Ty.comps, Ty.comps, same.2.2]
  cases op with
  | add | subtract => exact arithmetic (fun _ _ => rfl) (by simpa [allowed] using allows)
  | multiply =>
    rcases (by simpa [allowed] using allows :
      x.ty.kind = y.ty.kind ∧ x.ty.kind ≠ .bool ∧
        (x.ty.size = y.ty.size ∨ x.ty.size = none ∨ y.ty.size = none)) with ⟨same, notBool, sizes⟩
    refine (arithmetic_right first second notBool (same ▸ notBool) (fun _ _ => rfl) floats).trans
      (and_congr_right fun _ => ?_)
    have positive' := vals_pos x
    rw [size_eq_none_iff, size_eq_none_iff]
    rcases sizes with sizes | sizes | sizes
    · have : y.vals.length = x.vals.length := by
        rw [x.length_vals, y.length_vals, Ty.comps, Ty.comps, sizes]
      omega
    · have := size_eq_none_iff.mp sizes
      have := vals_pos y
      omega
    · have := size_eq_none_iff.mp sizes
      omega
  | divide => exact iff_false_intro division
  | modulo => exact iff_false_intro division
  | and
  | inclusiveOr => exact bitwise (fun _ _ => rfl) (by decide) (by simpa [allowed] using allows)
  | exclusiveOr =>
    have same : x.ty = y.ty ∧ x.ty.kind ≠ .bool := by simpa [allowed] using allows
    exact words (fun _ _ => rfl) same.2 (same.1 ▸ same.2) (allowed_lengths same.1)
  | shiftLeft =>
    have same : x.ty.kind ≠ .bool ∧ y.ty.kind = .uint ∧ x.ty.size = y.ty.size := by
      simpa [allowed] using allows
    exact words (fun _ _ => rfl) same.1 (shifts same).1 (shifts same).2
  | shiftRight =>
    have same : x.ty.kind ≠ .bool ∧ y.ty.kind = .uint ∧ x.ty.size = y.ty.size := by
      simpa [allowed] using allows
    exact shiftRight_right first second same.1 (shifts same).1 (shifts same).2
  | equal => exact compare rfl (by simpa [allowed] using allows) fun _ => .inl rfl
  | notEqual => exact compare rfl (by simpa [allowed] using allows) fun _ => .inr rfl
  | less => exact order .less rfl (by simpa [allowed] using allows)
  | lessEqual => exact order .lessEqual rfl (by simpa [allowed] using allows)
  | greater => exact order .greater rfl (by simpa [allowed] using allows)
  | greaterEqual => exact order .greaterEqual rfl (by simpa [allowed] using allows)
  | logicalAnd | logicalOr =>
    have same : x.ty = y.ty ∧ x.ty.kind = .bool := by simpa [allowed] using allows
    exact logical_right (fun _ _ => rfl) first second same.1 same.2

end binary

/-! ## Unary operators -/

section unary

variable {x : Operand} {l : List (Option Value)}

theorem unary_yields (represents : RepresentsAll l x) {op : UnaryOperator}
    {value : Option Value → Option Value} :
    Yields (l.map value) (unary op x) ↔ ∀ v a, (v, a) ∈ l.zip x.vals →
      ∃ s, unaryScalar op a = some s ∧ Represents (value v) s := by
  unfold Yields unary
  rw [forall₂_map_left_iff, forall₂_map_right_iff, forall₂_iff_zip]
  exact and_iff_right represents.length_eq

/-- For which operands the values of a unary operator are those of WGSL. -/
theorem unary_right_iff (represents : RepresentsAll l x) {op : UnaryOperator}
    (allows : allowedUnary op x.ty = true) {isFloat : Bool} {sm : Nat} :
    Yields (l.map (unaryValue op sm isFloat)) (unary op x) ↔ UnaryRight isFloat sm op x := by
  have holds (v : Option Value) (a : Scal) (member : (v, a) ∈ l.zip x.vals) :
      Represents v a ∧ x.ty.kind.has a = true := by
    refine ⟨(forall₂_iff_zip.mp represents).2 member, ?_⟩
    exact all_eq_true.mp x.has_vals a (of_mem_zip member).2
  have int (notBool : x.ty.kind ≠ .bool) (v : Option Value) (a : Scal)
      (member : (v, a) ∈ l.zip x.vals) : ∃ w, v = some (.word w) ∧ a = .int w := by
    rcases holds v a member with ⟨holds, has⟩
    rcases Kind.has_int notBool has with ⟨w, rfl⟩
    exact ⟨w, represents_int.mp holds, rfl⟩
  rw [unary_yields represents]
  cases op with
  | negate =>
    have isSint : x.ty.kind = .sint := by simpa [allowedUnary] using allows
    have notBool : x.ty.kind ≠ .bool := by simp [isSint]
    cases isFloat with
    | true =>
      refine iff_of_false ?_ (fun never => nomatch never)
      intro each
      rcases represents.zip_right (getElem_mem (vals_pos x)) with ⟨v, member⟩
      rcases each v _ member with ⟨_, -, never⟩
      exact never
    | false =>
      refine iff_of_true ?_ rfl
      intro v a member
      rcases int notBool v a member with ⟨w, rfl, rfl⟩
      exact ⟨.int (-w), rfl, rfl⟩
  | logicalNot =>
    have isBool : x.ty.kind = .bool := by simpa [allowedUnary] using allows
    refine iff_of_true ?_ trivial
    intro v a member
    rcases holds v a member with ⟨holds, has⟩
    rw [isBool] at has
    rcases Kind.has_bool has with ⟨b, rfl⟩
    refine ⟨.bool !b, rfl, ?_⟩
    rcases represents_bool.mp holds with rfl | rfl
    · cases b <;> rfl
    · cases b <;> rfl
  | bitwiseNot =>
    have notBool : x.ty.kind ≠ .bool := by simpa [allowedUnary] using allows
    show _ ↔ 70 ≤ sm ∨ _
    by_cases new : 70 ≤ sm
    · refine iff_of_true ?_ (.inl new)
      intro v a member
      rcases int notBool v a member with ⟨w, rfl, rfl⟩
      refine ⟨.int (~~~w), rfl, ?_⟩
      show (if 70 ≤ sm then ~~~w else 0) = ~~~w
      rw [if_pos new]
    · rw [or_iff_right new]
      constructor
      · intro each a member
        rcases represents.zip_right member with ⟨v, pair⟩
        rcases int notBool v a pair with ⟨w, rfl, rfl⟩
        rcases each _ _ pair with ⟨s, isS, holds⟩
        cases isS
        have zero : (if 70 ≤ sm then ~~~w else 0) = ~~~w := holds
        rw [if_neg new] at zero
        have isOnes : ~~~(0 : BitVec 32) = w := by rw [zero, BitVec.not_not]
        rw [← isOnes]
        rfl
      · intro ones v a member
        have isOnes := ones a (of_mem_zip member).2
        rcases int notBool v a member with ⟨w, rfl, rfl⟩
        cases isOnes
        refine ⟨.int 0, by simp [unaryScalar], ?_⟩
        show (if 70 ≤ sm then _ else 0) = 0#32
        rw [if_neg new]
        rfl

/-- The values of a unary operator do not depend on the SM, but for the bitwise not. -/
theorem unaryValues_same_iff (represents : RepresentsAll l x) {op : UnaryOperator}
    (allows : allowedUnary op x.ty = true) {isFloat : Bool} {sm sm' : Nat} (new : 70 ≤ sm)
    (old : sm' < 70) :
    l.map (unaryValue op sm isFloat) = l.map (unaryValue op sm' isFloat) ↔
      (op = .bitwiseNot → ∀ v ∈ x.vals, v = .int (BitVec.allOnes 32)) := by
  cases op with
  | negate => simp [unaryValue]
  | logicalNot => simp [unaryValue]
  | bitwiseNot =>
    have notBool : x.ty.kind ≠ .bool := by simpa [allowedUnary] using allows
    have older : ¬ 70 ≤ sm' := by omega
    have word (v : Option Value) (a : Scal) (member : (v, a) ∈ l.zip x.vals) :
        unaryValue .bitwiseNot sm isFloat v = unaryValue .bitwiseNot sm' isFloat v ↔
          a = .int (BitVec.allOnes 32) := by
      rcases Kind.has_int notBool
        (all_eq_true.mp x.has_vals a (of_mem_zip member).2) with ⟨w, rfl⟩
      have isWord := represents_int.mp ((forall₂_iff_zip.mp represents).2 member)
      have isOnes : ~~~w = 0#32 ↔ w = BitVec.allOnes 32 := by
        rw [← BitVec.not_inj (x := w), BitVec.not_allOnes]
      simpa [isWord, unaryValue, onWord, new, older] using isOnes
    simp only [forall_const, map_inj_left]
    constructor
    · intro same a member
      rcases represents.zip_right member with ⟨v, pair⟩
      exact (word v a pair).mp (same v (of_mem_zip pair).1)
    · intro ones v member
      rcases represents.zip_left member with ⟨a, pair⟩
      exact (word v a pair).mpr (ones a (of_mem_zip pair).2)

end unary

/-! ## Operators in a program -/

/-- The code of a binary operator returns registers that hold the result of WGSL. -/
def BinaryMeets (unit : FloatUnit) (s : FuncTranslator) (start : Env) (op : BinaryOperator)
    (l r : SSARef) (left : Expression) (x y : Operand) : Prop :=
  ∃ dst s', translateBinary op l r left s = .ok (dst, s') ∧
    Yields (dst.map (s'.env unit start)) (binary op x y)

/-- The code of a unary operator returns registers that hold the result of WGSL. -/
def UnaryMeets (s : FuncTranslator) (start : Env) (op : UnaryOperator) (val : SSARef)
    (inner : Expression) (x : Operand) : Prop :=
  ∃ dst s', translateUnary op val inner s = .ok (dst, s') ∧
    Yields (dst.map (s'.env noFold start)) (unary op x)

/-- Registers whose code has been emitted and that hold a value. -/
structure Holds (unit : FloatUnit) (s : FuncTranslator) (start : Env) (vec : SSARef)
    (x : Operand) : Prop where
  allocated : ∀ v ∈ vec, v.idx ≤ s.count
  represents : RepresentsAll (vec.map (s.env unit start)) x

theorem Holds.ready {unit : FloatUnit} {s : FuncTranslator} {start : Env} {vec : SSARef}
    {x : Operand} (holds : Holds unit s start vec x) : Ready s vec := by
  have lengths : vec.length = x.vals.length := by
    simpa using holds.represents.length_eq
  have positive := vals_pos x
  have small : x.vals.length ≤ 4 := by
    rw [x.length_vals, Ty.comps]
    split
    · exact (comps_bounds _).2
    · omega
  exact ⟨length_pos_iff.mp (by omega), by omega, holds.allocated⟩

/-- Two translations return registers that hold the same values. -/
def SameValues (s t : FuncTranslator) (start start' : Env) (p q : EmitM SSARef) : Prop :=
  ∃ dst s' dst' t', p s = .ok (dst, s') ∧ q t = .ok (dst', t') ∧
    dst.map (s'.env noFold start) = dst'.map (t'.env noFold start')

theorem emitsValues_iff {unit : FloatUnit} {p : EmitM SSARef} {s : FuncTranslator}
    {values : Env → List (Option Value)} (emits : EmitsValues unit p s values) (start : Env)
    (P : List (Option Value) → Prop) :
    (∃ dst s', p s = .ok (dst, s') ∧ P (dst.map (s'.env unit start))) ↔ P (values start) := by
  rcases emits with ⟨dst, s', ran, -, -, isValues⟩
  constructor
  · rintro ⟨dst', s'', ran', holds⟩
    rw [ran] at ran'
    cases ran'
    rwa [isValues] at holds
  · intro holds
    exact ⟨dst, s', ran, by rwa [isValues]⟩

theorem emitsValues_meets {unit : FloatUnit} {p : EmitM SSARef} {s : FuncTranslator}
    {values : Env → List (Option Value)}
    (emits : EmitsValues unit p s values) (start : Env) {expected : List (Option Scal)} :
    (∃ dst s', p s = .ok (dst, s') ∧ Yields (dst.map (s'.env unit start)) expected) ↔
      Yields (values start) expected :=
  emitsValues_iff emits start fun regs => Yields regs expected

theorem emitsValues_same {p q : EmitM SSARef} {s t : FuncTranslator}
    {values values' : Env → List (Option Value)} (first : EmitsValues noFold p s values)
    (second : EmitsValues noFold q t values') (start start' : Env) :
    SameValues s t start start' p q ↔ values start = values' start' := by
  rcases first with ⟨dst, s', ran, -, -, isValues⟩
  rcases second with ⟨dst', t', ran', -, -, isValues'⟩
  constructor
  · rintro ⟨_, _, _, _, ran₁, ran₂, same⟩
    rw [ran] at ran₁
    rw [ran'] at ran₂
    cases ran₁
    cases ran₂
    rwa [isValues, isValues'] at same
  · intro same
    exact ⟨dst, s', dst', t', ran, ran', by rwa [isValues, isValues']⟩

/-- The code of an operator yields the result of WGSL exactly for the operands of `BinaryRight` and
`UnaryRight`, and the two families of SMs agree but for the bitwise not. -/
theorem translateOperators_correct_iff (s : FuncTranslator) (start : Env) :
    (∀ (op : BinaryOperator) (l r : SSARef) (left : Expression) (x y : Operand),
      s.deadCode = false → Holds noFold s start l x → Holds noFold s start r y →
      allowed op x.ty y.ty = true →
      (BinaryMeets noFold s start op l r left x y ↔
        BinaryRight (s.ctx.isFloatExpr left) (s.ctx.isF64Expr left) op x y
          (l.map (s.env noFold start)) (r.map (s.env noFold start)))) ∧
    (∀ (op : UnaryOperator) (val : SSARef) (inner : Expression) (x : Operand),
      s.deadCode = false → Holds noFold s start val x → allowedUnary op x.ty = true →
      (UnaryMeets s start op val inner x ↔
        UnaryRight (s.ctx.isFloatExpr inner) s.sm op x)) ∧
    (∀ (t : FuncTranslator) (start' : Env) (op : BinaryOperator) (l r : SSARef)
      (left : Expression) (x y : Operand), s.deadCode = false → t.deadCode = false →
      s.ctx = t.ctx → Holds noFold s start l x → Holds noFold s start r y → Ready t l → Ready t r →
      l.map (t.env noFold start') = l.map (s.env noFold start) →
      r.map (t.env noFold start') = r.map (s.env noFold start) →
      SameValues s t start start' (translateBinary op l r left) (translateBinary op l r left)) ∧
    (∀ (t : FuncTranslator) (start' : Env) (op : UnaryOperator) (val : SSARef)
      (inner : Expression) (x : Operand), s.deadCode = false → t.deadCode = false →
      s.ctx = t.ctx → 70 ≤ s.sm → t.sm < 70 → Holds noFold s start val x → Ready t val →
      allowedUnary op x.ty = true →
      val.map (t.env noFold start') = val.map (s.env noFold start) →
      (SameValues s t start start' (translateUnary op val inner) (translateUnary op val inner) ↔
        (op = .bitwiseNot → ∀ v ∈ x.vals, v = .int (BitVec.allOnes 32)))) := by
  refine ⟨?_, ?_, ?_, ?_⟩
  · intro op l r left x y live first second allows
    refine (emitsValues_meets (translateBinary_emits live first.ready second.ready op left)
      start).trans ?_
    exact binary_right_iff first.represents second.represents allows isFloatExpr_of_isF64Expr
  · intro op val inner x live first allows
    refine (emitsValues_meets (translateUnary_emits live first.ready op inner) start).trans ?_
    exact unary_right_iff first.represents allows
  · intro t start' op l r left x y live live' same first second readyL readyR sameL sameR
    rw [emitsValues_same (translateBinary_emits live first.ready second.ready op left)
      (translateBinary_emits live' readyL readyR op left), sameL, sameR, same]
  · intro t start' op val inner x live live' same new old first ready allows sameVal
    rw [emitsValues_same (translateUnary_emits live first.ready op inner)
      (translateUnary_emits live' ready op inner), sameVal, same]
    exact unaryValues_same_iff first.represents allows new old

/-- Two words in general registers. -/
def wordPair (sm : Nat) : FuncTranslator where
  ctx := { types := [.scalar ⟨.sint, 4⟩] }
  sm
  ssaAlloc := ⟨2⟩

def wordPairEnv (a b : BitVec 32) : Env := fun x =>
  if x.idx = 1 then some (.word a) else if x.idx = 2 then some (.word b) else none

/-- A scalar integer. -/
def i32 (w : BitVec 32) : Operand := ⟨⟨.sint, none⟩, [.int w], rfl, rfl⟩

theorem wordPair_holds (sm : Nat) (a b : BitVec 32) :
    Holds noFold (wordPair sm) (wordPairEnv a b) [⟨.gpr, 1⟩] (i32 a) ∧
      Holds noFold (wordPair sm) (wordPairEnv a b) [⟨.gpr, 2⟩] (i32 b) := by
  refine ⟨⟨by simp [wordPair, FuncTranslator.count], .cons rfl .nil⟩, ?_⟩
  exact ⟨by simp [wordPair, FuncTranslator.count], .cons rfl .nil⟩

theorem translateOperators_correct_words :
    BinaryMeets noFold (wordPair 70) (wordPairEnv 5 7) .add [⟨.gpr, 1⟩] [⟨.gpr, 2⟩] .other
        (i32 5) (i32 7) ∧
      UnaryMeets (wordPair 70) (wordPairEnv 5 7) .bitwiseNot [⟨.gpr, 1⟩] .other (i32 5) ∧
      SameValues (wordPair 70) (wordPair 50) (wordPairEnv 5 7) (wordPairEnv 5 7)
        (translateBinary .less [⟨.gpr, 1⟩] [⟨.gpr, 2⟩] .other)
        (translateBinary .less [⟨.gpr, 1⟩] [⟨.gpr, 2⟩] .other) ∧
      SameValues (wordPair 70) (wordPair 50) (wordPairEnv 5 7) (wordPairEnv 5 7)
        (translateUnary .negate [⟨.gpr, 1⟩] .other)
        (translateUnary .negate [⟨.gpr, 1⟩] .other) := by
  rcases wordPair_holds 70 5 7 with ⟨first, second⟩
  rcases wordPair_holds 50 5 7 with ⟨first', second'⟩
  rcases translateOperators_correct_iff (wordPair 70) (wordPairEnv 5 7) with ⟨binaries, unaries, same, sameUnary⟩
  refine ⟨?_, ?_, ?_, ?_⟩
  · exact (binaries .add _ _ _ _ _ rfl first second rfl).mpr rfl
  · exact (unaries .bitwiseNot _ _ _ rfl first rfl).mpr (.inl (le_refl 70))
  · exact same _ _ .less _ _ _ _ _ rfl rfl rfl first second first'.ready second'.ready rfl rfl
  · have old : (wordPair 50).sm < 70 := by decide
    exact (sameUnary (wordPair 50) _ .negate _ _ _ rfl rfl rfl (le_refl 70) old
      first first'.ready rfl rfl).mpr fun never => nomatch never

/-- The comparison is of unsigned words, and the bitwise not of SMs before 70 is zero. -/
theorem translateOperators_signed_fails :
    ¬ BinaryMeets noFold (wordPair 70) (wordPairEnv (-1) 0) .less [⟨.gpr, 1⟩] [⟨.gpr, 2⟩] .other
        (i32 (-1)) (i32 0) ∧
      ¬ UnaryMeets (wordPair 50) (wordPairEnv 5 0) .bitwiseNot [⟨.gpr, 1⟩] .other (i32 5) := by
  constructor
  · rintro ⟨dst, s', ran, yields⟩
    cases ran
    have expected : binary .less (i32 (-1)) (i32 0) = [some (.bool true)] := by decide
    rw [expected] at yields
    cases yields with
    | cons first _ =>
      rcases first with ⟨_, ⟨⟩, holds⟩
      have never : false = true := holds
      cases never
  · rintro ⟨dst, s', ran, yields⟩
    cases ran
    have expected : unary .bitwiseNot (i32 5) = [some (.int (~~~5))] := rfl
    rw [expected] at yields
    cases yields with
    | cons first _ =>
      rcases first with ⟨_, ⟨⟩, holds⟩
      have zero : (0 : BitVec 32) = ~~~5 := holds
      exact absurd zero (by decide)

end CoralReef.NagaTranslate
