import CoralReef.Misc.Fault

/-!
# Types of naga expressions

What the translator asks about the type of an expression (`naga_translate/expr.rs`). Of an
expression only what the questions look at is kept. A handle is an index into its arena.
-/

namespace CoralReef.NagaTranslate

/-- `naga::ScalarKind`. -/
inductive ScalarKind where
  | sint | uint | float | bool | abstractInt | abstractFloat
  deriving DecidableEq, Repr

/-- `naga::Scalar`: a kind and its width in bytes. -/
structure Scalar where
  kind : ScalarKind
  width : Nat
  deriving DecidableEq, Repr

/-- `naga::VectorSize`. -/
inductive VectorSize where
  | bi | tri | quad
  deriving DecidableEq, Repr

/-- `size as u8`. -/
def VectorSize.comps : VectorSize → Nat
  | .bi => 2
  | .tri => 3
  | .quad => 4

abbrev TypeHandle := Nat

/-- `naga::StructMember`. -/
structure StructMember where
  ty : TypeHandle
  offset : Nat
  deriving DecidableEq, Repr

/-- `naga::TypeInner`. The size of an array is `none` when it is known at run time only. -/
inductive TypeInner where
  | scalar (scalar : Scalar)
  | vector (size : VectorSize) (scalar : Scalar)
  | matrix (columns rows : VectorSize) (scalar : Scalar)
  | atomic (scalar : Scalar)
  | pointer (base : TypeHandle)
  | valuePointer
  | array (base : TypeHandle) (size : Option Nat) (stride : Nat)
  | struct (members : List StructMember) (span : Nat)
  | other
  deriving DecidableEq, Repr

/-- `naga::Literal`, without its value. -/
inductive Literal where
  | f32 | f64 | u32 | i32 | u64 | i64 | bool | other
  deriving DecidableEq, Repr

/-- `lit_scalar`. -/
def litScalar : Literal → Scalar
  | .f32 => ⟨.float, 4⟩
  | .f64 => ⟨.float, 8⟩
  | .u32 => ⟨.uint, 4⟩
  | .i32 => ⟨.sint, 4⟩
  | .u64 => ⟨.uint, 8⟩
  | .i64 => ⟨.sint, 8⟩
  | .bool => ⟨.bool, 1⟩
  | .other => ⟨.uint, 4⟩

/-- `naga::Expression`. -/
inductive Expression where
  | literal (lit : Literal)
  | constant (c : Nat)
  | zeroValue (ty : TypeHandle)
  | compose (ty : TypeHandle)
  | access (base : Expression)
  | accessIndex (base : Expression) (index : Nat)
  | splat (value : Expression)
  | swizzle (vector : Expression)
  | functionArgument (idx : Nat)
  | globalVariable (gv : Nat)
  | localVariable (lv : Nat)
  | load (pointer : Expression)
  | binary (left : Expression)
  | unary (expr : Expression)
  | select (accept : Expression)
  | relational (argument : Expression)
  | math (arg : Expression)
  | as (kind : ScalarKind) (convert : Option Nat)
  | callResult (function : Nat)
  | other
  deriving Repr

/-- What a function being translated sees of its module: the types of the arenas' items. -/
structure Context where
  types : List TypeInner
  globalVariables : List TypeHandle := []
  localVariables : List TypeHandle := []
  arguments : List TypeHandle := []
  constants : List TypeHandle := []
  functions : List (Option TypeHandle) := []

namespace Context

variable (ctx : Context)

/-- Look an item up in an arena. -/
def arena {α : Type} (items : List α) (handle : Nat) : Except Fault α :=
  expect items[handle]? "handle out of range"

/-- `any_type_handle`. -/
def anyTypeHandle : Except Fault TypeHandle :=
  if ctx.types.isEmpty then .error (.compileError "module has no types") else .ok 0

/-- `scalar_type_handle`. -/
def scalarTypeHandle (scalar : Scalar) : Except Fault TypeHandle :=
  match ctx.types.findIdx? (· = .scalar scalar) with
  | some handle => .ok handle
  | none => ctx.anyTypeHandle

/-- The type of what an access into a value of type `baseTy`, or into what it points to, yields. -/
def accessTypeHandle (baseTy : TypeHandle) (index : Option Nat) : Except Fault TypeHandle := do
  let baseInner ← arena ctx.types baseTy
  let realTy := match baseInner with
    | .pointer pointee => pointee
    | _ => baseTy
  match ← arena ctx.types realTy with
  | .struct members _ =>
    match index.bind fun index => members[index]? with
    | some member => return member.ty
    | none => return realTy
  | .array base _ _ => return base
  | .vector _ scalar => ctx.scalarTypeHandle scalar
  | _ => return realTy

/-- `resolve_expr_type_handle`. -/
def resolveExprTypeHandle : Expression → Except Fault TypeHandle
  | .globalVariable gv => arena ctx.globalVariables gv
  | .localVariable lv => arena ctx.localVariables lv
  | .functionArgument idx => arena ctx.arguments idx
  | .literal lit => ctx.scalarTypeHandle (litScalar lit)
  | .binary left => resolveExprTypeHandle left
  | .unary inner => resolveExprTypeHandle inner
  | .constant c => arena ctx.constants c
  | .zeroValue ty | .compose ty => .ok ty
  | .access base => do ctx.accessTypeHandle (← resolveExprTypeHandle base) none
  | .accessIndex base index => do ctx.accessTypeHandle (← resolveExprTypeHandle base) (some index)
  | .load pointer => do
    let ptrTy ← resolveExprTypeHandle pointer
    match ← arena ctx.types ptrTy with
    | .pointer base => return base
    | _ => return ptrTy
  | .as kind convert => ctx.scalarTypeHandle ⟨kind, convert.getD 4⟩
  | .math arg => resolveExprTypeHandle arg
  | .select accept => resolveExprTypeHandle accept
  | .splat value => resolveExprTypeHandle value
  | .swizzle vector => resolveExprTypeHandle vector
  | .relational argument => resolveExprTypeHandle argument
  | .callResult function => do
    match ← arena ctx.functions function with
    | some ty => return ty
    | none => .error (.compileError "CallResult for void function")
  | .other => ctx.anyTypeHandle

/-- Whether the type an expression resolves to is a scalar or vector of a kind of scalars. -/
def resolvesTo (isKind : Scalar → Bool) (expr : Expression) : Bool :=
  match ctx.resolveExprTypeHandle expr with
  | .error _ => false
  | .ok ty =>
    match ctx.types[ty]? with
    | some (.scalar scalar) | some (.vector _ scalar) => isKind scalar
    | _ => false

/-- `is_float_expr`. -/
def isFloatExpr : Expression → Bool
  | .literal lit => lit = .f32 ∨ lit = .f64
  | .binary left => isFloatExpr left
  | .unary inner => isFloatExpr inner
  | .math arg => isFloatExpr arg
  | expr => ctx.resolvesTo (·.kind = .float) expr

/-- `is_signed_int_expr`. -/
def isSignedIntExpr (expr : Expression) : Bool := ctx.resolvesTo (·.kind = .sint) expr

/-- `is_f64_expr`. -/
def isF64Expr : Expression → Bool
  | .literal lit => lit = .f64
  | .binary left => isF64Expr left
  | .unary inner => isF64Expr inner
  | .math arg => isF64Expr arg
  | expr => ctx.resolvesTo (fun scalar => scalar.kind = .float ∧ scalar.width = 8) expr

end Context

end CoralReef.NagaTranslate
