import CoralReef.Codegen.NagaTranslate.Math

/-!
# What the operators mean

The operators of WGSL on `i32`, `u32` and `bool`, scalars and vectors, and the operands that naga's
validator lets them have. Integers wrap around, and a shift takes its amount modulo the width.
-/

namespace CoralReef.Wgsl

open NagaTranslate (BinaryOperator UnaryOperator VectorSize)

/-- A scalar: an integer by its bits, or a bool. -/
inductive Scal where
  | int (x : BitVec 32)
  | bool (b : Bool)
  deriving DecidableEq, Repr

inductive Kind where
  | sint | uint | bool
  deriving DecidableEq, Repr

/-- The scalars of a kind. -/
def Kind.has : Kind → Scal → Bool
  | .bool, .bool _ => true
  | .sint, .int _ | .uint, .int _ => true
  | _, _ => false

/-- A scalar type, or a vector of it. -/
structure Ty where
  kind : Kind
  size : Option VectorSize := none
  deriving DecidableEq, Repr

def Ty.comps (ty : Ty) : Nat :=
  match ty.size with
  | some size => size.comps
  | none => 1

/-- A value of a type. -/
structure Operand where
  ty : Ty
  vals : List Scal
  length_vals : vals.length = ty.comps
  has_vals : vals.all ty.kind.has = true

namespace Operand

/-- A component; a scalar stands for each component of a vector. -/
def at? (x : Operand) (c : Nat) : Option Scal := x.vals[if c < x.vals.length then c else 0]?

/-- All components satisfy `p`. -/
def All (x : Operand) (p : Scal → Prop) : Prop := ∀ v ∈ x.vals, p v

end Operand

/-- The operands that the validator allows. -/
def allowed (op : BinaryOperator) (l r : Ty) : Bool :=
  match op with
  | .add | .subtract | .divide | .modulo => l = r ∧ l.kind ≠ .bool
  | .multiply =>
    l.kind = r.kind ∧ l.kind ≠ .bool ∧ (l.size = r.size ∨ l.size = none ∨ r.size = none)
  | .equal | .notEqual => l = r
  | .less | .lessEqual | .greater | .greaterEqual => l = r ∧ l.kind ≠ .bool
  | .and | .inclusiveOr => l = r
  | .exclusiveOr => l = r ∧ l.kind ≠ .bool
  | .logicalAnd | .logicalOr => l = r ∧ l.kind = .bool
  | .shiftLeft | .shiftRight => l.kind ≠ .bool ∧ r.kind = .uint ∧ l.size = r.size

def allowedUnary (op : UnaryOperator) (ty : Ty) : Bool :=
  match op with
  | .negate => ty.kind = .sint
  | .logicalNot => ty.kind = .bool
  | .bitwiseNot => ty.kind ≠ .bool

/-- The order of the integers of a kind. -/
def less (kind : Kind) (x y : BitVec 32) : Bool := if kind = .sint then x.slt y else x.ult y

/-- An operator on integers. -/
def binaryInt (op : BinaryOperator) (kind : Kind) (x y : BitVec 32) : Scal :=
  match op with
  | .add => .int (x + y)
  | .subtract => .int (x - y)
  | .multiply => .int (x * y)
  | .divide => .int (if y = 0 then x else if kind = .sint then x.sdiv y else x / y)
  | .modulo => .int (if y = 0 then 0 else if kind = .sint then x.srem y else x % y)
  | .equal => .bool (x == y)
  | .notEqual => .bool (x != y)
  | .less => .bool (less kind x y)
  | .lessEqual => .bool (!less kind y x)
  | .greater => .bool (less kind y x)
  | .greaterEqual => .bool (!less kind x y)
  | .and | .logicalAnd => .int (x &&& y)
  | .inclusiveOr | .logicalOr => .int (x ||| y)
  | .exclusiveOr => .int (x ^^^ y)
  | .shiftLeft => .int (x <<< (y.toNat % 32))
  | .shiftRight =>
    .int (if kind = .sint then x.sshiftRight (y.toNat % 32) else x >>> (y.toNat % 32))

/-- An operator on bools. -/
def binaryBool (op : BinaryOperator) (a b : Bool) : Bool :=
  match op with
  | .equal => a == b
  | .and | .logicalAnd => a && b
  | .inclusiveOr | .logicalOr => a || b
  | _ => a ^^ b

/-- An operator on two scalars of a kind. -/
def binaryScalar (op : BinaryOperator) (kind : Kind) : Scal → Scal → Option Scal
  | .int x, .int y => some (binaryInt op kind x y)
  | .bool a, .bool b => some (.bool (binaryBool op a b))
  | _, _ => none

/-- The components of the result. -/
def binary (op : BinaryOperator) (x y : Operand) : List (Option Scal) :=
  (List.range (max x.vals.length y.vals.length)).map fun c => do
    binaryScalar op x.ty.kind (← x.at? c) (← y.at? c)

def unaryScalar (op : UnaryOperator) : Scal → Option Scal
  | .int x =>
    match op with
    | .negate => some (.int (-x))
    | .bitwiseNot => some (.int (~~~x))
    | .logicalNot => none
  | .bool b => if op = .logicalNot then some (.bool !b) else none

def unary (op : UnaryOperator) (x : Operand) : List (Option Scal) := x.vals.map (unaryScalar op)

/-- What registers may hold for a scalar: a bool is a predicate, or a word that is 0 or 1. -/
def Represents : Option Value → Scal → Prop
  | some (.word w), .int x => w = x
  | some (.word w), .bool b => w = if b then 1 else 0
  | some (.pred p), .bool b => p = b
  | _, _ => False

/-- Registers that hold the components of a value. -/
def RepresentsAll (values : List (Option Value)) (x : Operand) : Prop :=
  List.Forall₂ Represents values x.vals

/-- Registers that hold the components of a result. -/
def Yields (values : List (Option Value)) (expected : List (Option Scal)) : Prop :=
  List.Forall₂ (fun value scal => ∃ s, scal = some s ∧ Represents value s) values expected

/-!
## What the builtin functions mean

The builtin functions of WGSL on `i32` and `u32`.
-/

open NagaTranslate (MathFunction)

/-- A component that is an integer. -/
def Operand.int? (x : Operand) (c : Nat) : Option (BitVec 32) :=
  match x.vals[c]? with
  | some (.int w) => some w
  | _ => none

/-- The arguments that the validator allows. -/
def allowedMath (fun' : MathFunction) (x : Ty) (y z : Option Ty) : Bool :=
  match fun' with
  | .sign => x.kind = .sint ∧ y = none ∧ z = none
  | .min | .max => x.kind ≠ .bool ∧ y = some x ∧ z = none
  | .clamp => x.kind ≠ .bool ∧ y = some x ∧ z = some x
  | .dot => x.kind ≠ .bool ∧ x.size ≠ none ∧ y = some x ∧ z = none
  | _ => x.kind ≠ .bool ∧ y = none ∧ z = none

/-- The magnitude; that of the most negative integer is itself. -/
def absInt (kind : Kind) (x : BitVec 32) : BitVec 32 := if kind = .sint ∧ x.msb then -x else x

def minInt (kind : Kind) (x y : BitVec 32) : BitVec 32 := if less kind y x then y else x

def maxInt (kind : Kind) (x y : BitVec 32) : BitVec 32 := if less kind x y then y else x

def signInt (x : BitVec 32) : BitVec 32 := if x = 0 then 0 else if x.msb then -1 else 1

/-- The highest bit that is set, for an `i32` the highest that differs from the sign. -/
def firstLeadingBit (kind : Kind) (x : BitVec 32) : BitVec 32 :=
  let bits := if kind = .sint ∧ x.msb then ~~~x else x
  if bits = 0 then -1 else 31 - bits.clz

/-- The lowest bit that is set. -/
def firstTrailingBit (x : BitVec 32) : BitVec 32 := if x = 0 then -1 else x.ctz

/-- A component of a function that is applied to each. -/
def mathInt (fun' : MathFunction) (kind : Kind) (x : BitVec 32) (y z : Option (BitVec 32)) :
    Option (BitVec 32) :=
  match fun' with
  | .abs => some (absInt kind x)
  | .sign => some (signInt x)
  | .min => y.map (minInt kind x)
  | .max => y.map (maxInt kind x)
  | .clamp => do return minInt kind (maxInt kind x (← y)) (← z)
  | .dot => none
  | .countOneBits => some x.cpop
  | .reverseBits => some x.reverse
  | .countLeadingZeros => some x.clz
  | .firstLeadingBit => some (firstLeadingBit kind x)
  | .firstTrailingBit => some (firstTrailingBit x)

/-- The sum of the products of the components. -/
def dotInt (x y : Operand) : Option (BitVec 32) :=
  (List.range x.vals.length).foldlM
    (fun sum c => do return sum + (← x.int? c) * (← y.int? c)) 0

/-- The components of the result. -/
def math (fun' : MathFunction) (x : Operand) (y z : Option Operand) : List (Option Scal) :=
  match fun' with
  | .dot => [do return .int (← dotInt x (← y))]
  | _ => (List.range x.vals.length).map fun c => do
    let a ← x.int? c
    return .int (← mathInt fun' x.ty.kind a (y.bind (·.int? c)) (z.bind (·.int? c)))

end CoralReef.Wgsl
