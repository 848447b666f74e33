import CoralReef.Codegen.Builder.Proofs.Emit

/-!
# The logic of the builder

The later chips take a truth table, into which inverted operands are folded, the earlier ones an
operation with modifiers. Both compute the operation on the operands as they are read.
-/

namespace CoralReef

/-- The operation on truth values. -/
def LogicOp2.evalBool : LogicOp2 → Bool → Bool → Bool
  | .and, x, y => x && y
  | .or, x, y => x || y
  | .xor, x, y => x ^^ y
  | .passB, _, y => y

/-! ## Truth tables of two inputs -/

/-- A table that ignores its third input. -/
def LogicOp3.IsTable (op : LogicOp3) (g : Bool → Bool → Bool) : Prop :=
  ∀ v, op.result v = g (v 0) (v 1)

section

variable {op : LogicOp3} {g : Bool → Bool → Bool} {w : Nat}

theorem LogicOp2.getLsbD_eval (op : LogicOp2) (x y : BitVec 32) (i : Nat) :
    (op.eval x y).getLsbD i = op.evalBool (x.getLsbD i) (y.getLsbD i) := by
  cases op <;> simp [eval, evalBool]

theorem LogicOp3.IsTable.getLsbD_eval (table : op.IsTable g) (x y z : BitVec w) {i : Nat}
    (inside : i < w) : (op.eval x y z).getLsbD i = g (x.getLsbD i) (y.getLsbD i) :=
  (LogicOp3.getLsbD_eval op ![x, y, z] inside).trans (table _)

theorem LogicOp2.isTable_toLut (op : LogicOp2) : op.toLut.IsTable op.evalBool := by
  intro v
  cases op <;> refine LogicOp3.result_newLut (g := fun v => LogicOp2.evalBool _ (v 0) (v 1)) ?_ v <;>
    intro x y z i inside <;> simp [evalBool]

/-- An input that the table inverts. -/
theorem LogicOp3.IsTable.invert (table : op.IsTable g) (first : Bool) :
    (newLut fun x y _ => if first then op.eval (~~~x) y 0 else op.eval x (~~~y) 0).IsTable
      fun a c => if first then g (!a) c else g a (!c) := by
  intro v
  refine LogicOp3.result_newLut (g := fun v => if first then g (!v 0) (v 1) else g (v 0) (!v 1)) ?_ v
  intro x y z i inside
  cases first
  · simp only [Bool.false_eq_true, if_false, table.getLsbD_eval _ _ _ inside]
    simp [inside]
  · simp only [if_true, table.getLsbD_eval _ _ _ inside]
    simp [inside]

end

/-! ## What the ops compute -/

section

variable {env : Env}

theorem OpLop2.fold_words {op : OpLop2} {a c : BitVec 32}
    (first : env.getU32BnotSrc (op.srcs 0) = some a)
    (second : env.getU32BnotSrc (op.srcs 1) = some c) :
    op.fold env = some (.word (op.op.eval a c)) := by
  unfold OpLop2.fold
  rw [first, second]
  rfl

theorem OpLop3.fold_words {op : OpLop3} {a c e : BitVec 32}
    (first : env.getU32BnotSrc (op.srcs 0) = some a)
    (second : env.getU32BnotSrc (op.srcs 1) = some c)
    (third : env.getU32BnotSrc (op.srcs 2) = some e) :
    op.fold env = some (.word (op.op.eval a c e)) := by
  unfold OpLop3.fold
  rw [first, second, third]
  rfl

theorem OpPLop3.fold_preds {op : OpPLop3} {a c e : Bool}
    (first : env.getPredSrc (op.srcs 0) = some a) (second : env.getPredSrc (op.srcs 1) = some c)
    (third : env.getPredSrc (op.srcs 2) = some e) :
    op.fold env = some (.pred ((op.ops 0).result ![a, c, e])) := by
  unfold OpPLop3.fold
  rw [first, second, third]
  rfl

theorem OpPSetP.fold_preds {op : OpPSetP} {a c e : Bool}
    (first : env.getPredSrc (op.srcs 0) = some a) (second : env.getPredSrc (op.srcs 1) = some c)
    (third : env.getPredSrc (op.srcs 2) = some e) :
    op.fold env = some (.pred ((op.ops 1).eval e ((op.ops 0).eval a c))) := by
  unfold OpPSetP.fold
  rw [first, second, third]
  rfl

end

namespace Builder

theorem getPredSrc_pTrue (env : Env) : env.getPredSrc pTrue = some true := rfl

/-- What folding a modifier into a table leaves. -/
theorem foldBNot_ok {op : LogicOp3} {g : Bool → Bool → Bool} (table : op.IsTable g) (first : Bool)
    {src : Src} (modifier : src.modifier = .none ∨ src.modifier = .bNot) :
    ∃ op', foldBNot op first src = .ok (op', { src with modifier := .none }) ∧
      op'.IsTable fun a c =>
        if first then g (a ^^ decide (src.modifier = .bNot)) c
        else g a (c ^^ decide (src.modifier = .bNot)) := by
  obtain ⟨reference, modifier', swizzle⟩ := src
  rcases modifier with is | is <;> simp only at is <;> subst is
  · refine ⟨op, rfl, ?_⟩
    intro v
    rw [table v]
    cases first <;> simp
  · refine ⟨_, rfl, ?_⟩
    intro v
    rw [table.invert first v]
    cases first <;> simp

section

variable {b : Builder} {x y : Src} {d : SSAValue}

/-- The instruction of `lop2_to`, where its destination and its operands are predicates or none of
them is. -/
theorem lop2To_run {op : LogicOp2} {table table' : LogicOp3} {x' y' : Src} {isPredicate : Bool}
    (xKind : x.reference.isPredicate = isPredicate) (yKind : y.reference.isPredicate = isPredicate)
    (dKind : d.file.isPredicate = isPredicate) (folded : foldBNot op.toLut true x = .ok (table, x'))
    (folded' : foldBNot table false y = .ok (table', y')) :
    lop2To (.ofSsa d) op x y b = .ok ((), b.emit 0 [.value
      (if 70 ≤ b.sm then
        if isPredicate then .pLop3 { dsts := ![.ofSsa d, .none], srcs := ![x', y', pTrue]
                                     ops := ![table', .newConst false] }
        else .lop3 { dst := .ofSsa d, srcs := ![x', y', zero], op := table' }
      else if isPredicate then .pSetP {
        dsts := ![.ofSsa d, .none]
        ops := ![match op with | .and | .passB => .and | .or => .or | .xor => .xor, .and]
        srcs := ![if op = .passB then pTrue else x, y, pTrue] }
      else .lop2 { dst := .ofSsa d, srcs := ![x, y], op })]) := by
  have isDst : Dst.ofSsa d = .ssa [d] := rfl
  have isFile : (fileOf [d]).any RegFile.isPredicate = isPredicate := by
    rw [← dKind]
    simp [fileOf]
  unfold lop2To
  simp only [isDst, isFile, xKind, yKind, decide_true, pure_bind]
  show (if 70 ≤ b.sm then _ else _ : BuilderM Unit) _ = _
  split
  · rw [folded, lift_bind, folded', lift_bind]
    cases isPredicate <;> rfl
  · cases isPredicate
    · rfl
    · cases op <;> rfl

/-- The operand of a table, with its modifier folded in. -/
theorem getU32BnotSrc_raw {env : Env} {src : Src} {a : BitVec 32}
    (reads : env.getU32BnotSrc src = some a) :
    env.getU32BnotSrc { src with modifier := .none } =
      some (if src.modifier = .bNot then ~~~a else a) := by
  unfold Env.getU32BnotSrc at reads ⊢
  have isRaw : env.getU32Src { src with modifier := .none } = env.getU32Src src := rfl
  rw [isRaw]
  cases read : env.getU32Src src with
  | none =>
    rw [read] at reads
    cases reads
  | some raw =>
    rw [read] at reads
    cases reads
    by_cases inverted : src.modifier = .bNot <;> simp [inverted]

theorem getLsbD_raw {inverted : Prop} [Decidable inverted] {a : BitVec 32} {i : Nat}
    (inside : i < 32) :
    ((if inverted then ~~~a else a).getLsbD i ^^ decide inverted) = a.getLsbD i := by
  by_cases is : inverted <;> simp [is, inside]

/-- The instruction of an operation on words computes it, on every chip. -/
theorem lop2To_word (op : LogicOp2) (xWord : x.reference.isPredicate = false)
    (yWord : y.reference.isPredicate = false) (dWord : d.file.isPredicate = false)
    (xMod : x.modifier = .none ∨ x.modifier = .bNot)
    (yMod : y.modifier = .none ∨ y.modifier = .bNot) :
    ∃ o : ValueOp, lop2To (.ofSsa d) op x y b = .ok ((), b.emit 0 [.value o]) ∧
      o.dst = .ofSsa d ∧ ∀ env a c, Env.getU32BnotSrc env x = some a →
        env.getU32BnotSrc y = some c →
        o.value noFold b.sm env d 0 = some (.word (op.eval a c)) := by
  obtain ⟨table, folded, first⟩ := foldBNot_ok op.isTable_toLut true xMod
  obtain ⟨table', folded', second⟩ := foldBNot_ok first false yMod
  refine ⟨_, lop2To_run xWord yWord dWord folded folded', ?_, ?_⟩
  · split <;> rfl
  · intro env a c isX isY
    split
    · refine (OpLop3.fold_words (getU32BnotSrc_raw isX) (getU32BnotSrc_raw isY) rfl).trans ?_
      refine congrArg (some <| Value.word ·) (BitVec.eq_of_getLsbD_eq fun i inside => ?_)
      refine (second.getLsbD_eval _ _ _ inside).trans ?_
      rw [LogicOp2.getLsbD_eval]
      simp only [Bool.false_eq_true, if_false, if_true, getLsbD_raw inside]
    · exact OpLop2.fold_words isX isY

/-- An operand that is a predicate, with its modifier folded in. -/
theorem getPredSrc_raw {env : Env} {src : Src} {a : Bool} (reads : env.getPredSrc src = some a) :
    env.getPredSrc { src with modifier := .none } =
      some (a ^^ decide (src.modifier = .bNot)) := by
  unfold Env.getPredSrc at reads ⊢
  have isRaw : env.srcValue { src with modifier := .none } = env.srcValue src := rfl
  rw [isRaw]
  cases read : Value.pred? (env.srcValue src) with
  | none =>
    rw [read] at reads
    cases reads
  | some raw =>
    rw [read] at reads
    cases reads
    simp [bne]

/-- The instruction of an operation on predicates computes it, on every chip. -/
theorem lop2To_pred (op : LogicOp2) (xPred : x.reference.isPredicate = true)
    (yPred : y.reference.isPredicate = true) (dPred : d.file.isPredicate = true)
    (xMod : x.modifier = .none ∨ x.modifier = .bNot)
    (yMod : y.modifier = .none ∨ y.modifier = .bNot) :
    ∃ o : ValueOp, lop2To (.ofSsa d) op x y b = .ok ((), b.emit 0 [.value o]) ∧
      o.dst = .ofSsa d ∧ ∀ env a c, Env.getPredSrc env x = some a →
        env.getPredSrc y = some c →
        o.value noFold b.sm env d 0 = some (.pred (op.evalBool a c)) := by
  obtain ⟨table, folded, first⟩ := foldBNot_ok op.isTable_toLut true xMod
  obtain ⟨table', folded', second⟩ := foldBNot_ok first false yMod
  refine ⟨_, lop2To_run xPred yPred dPred folded folded', ?_, ?_⟩
  · split <;> rfl
  · intro env a c isX isY
    split
    · refine (OpPLop3.fold_preds (getPredSrc_raw isX) (getPredSrc_raw isY) rfl).trans ?_
      refine congrArg (some <| Value.pred ·) ((second _).trans ?_)
      simp
    · cases op with
      | passB =>
        refine (OpPSetP.fold_preds (getPredSrc_pTrue env) isY (getPredSrc_pTrue env)).trans ?_
        simp [PredSetOp.eval, LogicOp2.evalBool]
      | _ =>
        refine (OpPSetP.fold_preds isX isY (getPredSrc_pTrue env)).trans ?_
        simp [PredSetOp.eval, LogicOp2.evalBool]

end

/-! ## Selection -/

section

variable {b : Builder} {start : Env} {cond x y : Src} {c : Bool}

theorem OpSel.fold_word {op : OpSel} {env : Env} {a : BitVec 32} {e : BitVec 32}
    (isCond : env.getPredSrc (op.srcs 0) = some c) (first : env.getU32Src (op.srcs 1) = some a)
    (second : env.getU32Src (op.srcs 2) = some e) :
    op.fold env = some (.word (if c then a else e)) := by
  unfold OpSel.fold
  rw [isCond]
  cases c with
  | true => simp [Value.eq_word first]
  | false => simp [Value.eq_word second]

/-- `sel` on words takes the first where the condition is true. -/
theorem sel_word {a e : BitVec 32} (condPred : cond.reference.isPredicate = true)
    (xWord : x.reference.isPredicate = false) (yWord : y.reference.isPredicate = false)
    (isCond : (b.env start).getPredSrc cond = some c)
    (isX : (b.env start).getU32Src x = some a) (isY : (b.env start).getU32Src y = some e) :
    Emits (sel cond x y) b fun dst b' => b'.env start dst = some (.word (if c then a else e)) := by
  have ran : sel cond x y b = .ok (b.fresh .gpr 0, b.emit 1 [
      .value (.sel { dst := .ofSsa (b.fresh .gpr 0), srcs := ![cond, x, y] })]) := by
    unfold sel
    rw [condPred, xWord, yWord]
    rfl
  exact Emits.of_value ran rfl (OpSel.fold_word isCond isX isY)

/-- The inverted condition. -/
theorem bnot_ok (condMod : cond.modifier = .none ∨ cond.modifier = .bNot) :
    ∃ cond', cond.bnot = .ok cond' ∧ cond'.iterSsa = cond.iterSsa ∧
      ∀ env c, Env.getPredSrc env cond = some c → env.getPredSrc cond' = some !c := by
  obtain ⟨reference, modifier, swizzle⟩ := cond
  rcases condMod with is | is <;> simp only at is <;> subst is
  all_goals
    refine ⟨_, rfl, rfl, fun env c reads => ?_⟩
    obtain ⟨v, isRead, rfl⟩ := Option.map_eq_some_iff.mp reads
    exact Option.map_eq_some_iff.mpr ⟨v, isRead, by cases v <;> rfl⟩

/-- The table of `sel`. -/
theorem result_sel (v : Fin 3 → Bool) :
    (LogicOp3.newLut fun c x y => (c &&& x) ||| (~~~c &&& y)).result v = if v 0 then v 1 else v 2 := by
  refine LogicOp3.result_newLut (g := fun v => if v 0 then v 1 else v 2) ?_ v
  intro x y z i inside
  simp only [BitVec.getLsbD_or, BitVec.getLsbD_and, BitVec.getLsbD_not, inside]
  cases x.getLsbD i <;> simp

/-- `sel` on predicates takes the first where the condition is true, on every chip. -/
theorem sel_pred {a e : Bool} (condPred : cond.reference.isPredicate = true)
    (xPred : x.reference.isPredicate = true) (yPred : y.reference.isPredicate = true)
    (condMod : cond.modifier = .none ∨ cond.modifier = .bNot)
    (condKnown : b.Known cond) (yKnown : b.Known y)
    (isCond : (b.env start).getPredSrc cond = some c)
    (isX : (b.env start).getPredSrc x = some a) (isY : (b.env start).getPredSrc y = some e) :
    Emits (sel cond x y) b fun dst b' => b'.env start dst = some (.pred (if c then a else e)) := by
  by_cases new : 70 ≤ b.sm
  · have ran : sel cond x y b = .ok (b.fresh .pred 0, b.emit 1 [.value (.pLop3 {
        dsts := ![.ofSsa (b.fresh .pred 0), .none], srcs := ![cond, x, y]
        ops := ![.newLut fun c x y => (c &&& x) ||| (~~~c &&& y), .newConst false] })]) := by
      unfold sel
      rw [condPred, xPred, yPred]
      show (if 70 ≤ b.sm then _ else _ : BuilderM SSAValue) _ = _
      rw [if_pos new]
      rfl
    refine Emits.of_value ran rfl ((OpPLop3.fold_preds isCond isX isY).trans ?_)
    exact congrArg (some <| Value.pred ·) (result_sel _)
  · obtain ⟨cond', inverts, sameSsa, isNot⟩ := bnot_ok condMod
    have condKnown' : b.Known cond' := fun r member => condKnown r (sameSsa ▸ member)
    have kept := (Kept.refl b start).update .pred 1 (some (.pred (c && a)))
    have ran : sel cond x y b = .ok (b.fresh .pred 0, b.emit 2 [
        .value (.pSetP { dsts := ![.ofSsa (b.fresh .pred 1), .none], ops := ![.and, .and]
                         srcs := ![cond, x, pTrue] }),
        .value (.pSetP { dsts := ![.ofSsa (b.fresh .pred 0), .none], ops := ![.and, .or]
                         srcs := ![cond', y, .ofSsa (b.fresh .pred 1)] })]) := by
      unfold sel
      rw [condPred, xPred, yPred]
      show (if 70 ≤ b.sm then _ else _ : BuilderM SSAValue) _ = _
      rw [if_neg new, inverts]
      exact emit_two _ b 2 _ _
    refine Emits.of_run ran ?_ ?_
    · intro op member r written
      rcases List.mem_pair.mp member with rfl | rfl <;> rw [List.mem_singleton.mp written]
      · exact fresh_new b .pred 1
      · exact fresh_new b .pred 0
    · rw [env_emit]
      refine (congrFun (run_result (v := .pred (c && a)) rfl ?_ _) _).trans ?_
      · refine (OpPSetP.fold_preds isCond isX (getPredSrc_pTrue _)).trans ?_
        exact congrArg (some <| Value.pred ·) (Bool.true_and _)
      · refine (congrFun (run_result (v := .pred (if c then a else e)) rfl ?_ []) _).trans
          (Function.update_self _ _ _)
        have isNot' := (Env.getPredSrc_congr fun r member => kept r (condKnown' r member)).trans
          (isNot _ c isCond)
        have isY' := (Env.getPredSrc_congr fun r member => kept r (yKnown r member)).trans isY
        refine (OpPSetP.fold_preds isNot' isY' (getPredSrc_update_self _ _ _)).trans ?_
        cases c <;> simp [PredSetOp.eval]

end

end Builder

/-!
## The bytes that the builder picks
-/

/-- The selector byte of a number. -/
def nibble (n : Nat) : PrmtSelByte := ⟨BitVec.ofNat 4 n⟩

/-- The number of a selector byte. -/
def nibbleOf (src : Fin 2) (byte : Fin 4) (msb : Bool) : Nat := 8 * msb.toNat + 4 * src + byte

theorem nibble_nibbleOf : ∀ src byte msb,
    nibble (nibbleOf src byte msb) = PrmtSelByte.new src byte msb := by decide

/-- A word is the word with its bytes. -/
theorem wordOfBytes_byteAt (w : BitVec 32) : wordOfBytes (byteAt w) = w := by
  apply BitVec.eq_of_getLsbD_eq
  intro i inside
  simp only [wordOfBytes, byteAt, BitVec.getLsbD_append, BitVec.getLsbD_extractLsb']
  by_cases first : i < 8
  · simp [first]
  by_cases second : i - 8 < 8
  · simp [first, second, show 8 + (i - 8) = i by omega]
  by_cases third : i - 8 - 8 < 8
  · simp [first, second, third, show 16 + (i - 8 - 8) = i by omega]
  · simp [first, second, third, show 24 + (i - 8 - 8 - 8) = i by omega,
      show i - 8 - 8 - 8 < 8 by omega]

namespace Builder

variable {sel : Fin 4 → Nat}

theorem getLsbD_selU32_part {n : Nat} (small : n < 16) (k i : Fin 4) {j : Nat} (inside : j < 4) :
    (BitVec.ofNat 32 n <<< (k.val * 4)).getLsbD (4 * i + j) = (decide (k = i) && n.testBit j) := by
  rw [BitVec.getLsbD_shiftLeft, BitVec.getLsbD_ofNat]
  have high : ∀ m, 4 ≤ m → n.testBit m = false := fun m least =>
    Nat.testBit_lt_two_pow (Nat.lt_of_lt_of_le small (Nat.pow_le_pow_right Nat.two_pos least))
  rcases Nat.lt_trichotomy k i with less | same | greater
  · have differ : k ≠ i := fun h => by omega
    simp [differ, high (4 * i + j - k * 4) (by omega)]
  · have is : k = i := Fin.ext same
    subst is
    have shifted : 4 * (k : Nat) + j - k * 4 = j := by omega
    simp [shifted, show 4 * (k : Nat) + j < 32 by omega, show ¬ 4 * (k : Nat) + j < k * 4 by omega,
      show j < 32 by omega]
  · have differ : k ≠ i := fun h => by omega
    simp [differ, show 4 * (i : Nat) + j < k * 4 by omega]

/-- The word of the nibbles, as a selector. -/
theorem get_selU32 (small : ∀ i, sel i < 16) (i : Fin 4) :
    PrmtSel.get ⟨(selU32 sel).setWidth 16⟩ i = nibble (sel i) := by
  refine congrArg PrmtSelByte.mk (BitVec.eq_of_getLsbD_eq fun j inside => ?_)
  have parts : selU32 sel = (((0 ||| BitVec.ofNat 32 (sel 0) <<< ((0 : Fin 4).val * 4)) |||
      BitVec.ofNat 32 (sel 1) <<< ((1 : Fin 4).val * 4)) |||
      BitVec.ofNat 32 (sel 2) <<< ((2 : Fin 4).val * 4)) |||
      BitVec.ofNat 32 (sel 3) <<< ((3 : Fin 4).val * 4) := rfl
  rw [BitVec.getLsbD_extractLsb', BitVec.getLsbD_setWidth, parts, BitVec.getLsbD_ofNat]
  simp only [BitVec.getLsbD_or, getLsbD_selU32_part (small _) _ _ inside]
  match i with
  | 0 | 1 | 2 | 3 => simp [inside]; omega

variable {b : Builder} {start : Env} {x y : Src} {a c : BitVec 32}

theorem getU32Src_ofU32 (env : Env) (u : BitVec 32) :
    env.getU32Src { reference := .ofU32 u } = some u := by
  unfold Env.getU32Src Env.srcValue SrcRef.ofU32
  by_cases isZero : u = 0
  · rw [if_pos isZero, isZero]
    rfl
  · rw [if_neg isZero]
    exact congrArg some (BitVec.ofNat_toNat 32 u)

/-- A copy to a general register. -/
theorem exec_copy {env : Env} {dst : SSAValue} (reads : env.getU32Src x = some a)
    (plain : x.modifier = .none) (isGpr : dst.file = .gpr) (sm : Nat) :
    BuilderOp.exec sm env (.value (.copy { dst := .ofSsa dst, src := x })) =
      Function.update env dst (some (.word a)) := by
  have copied : OpCopy.fold { dst := .ofSsa dst, src := x } dst.file env = some (.word a) := by
    unfold OpCopy.fold
    rw [isGpr, Value.eq_word reads]
    exact if_pos plain
  rw [← copied]
  exact ValueOp.exec_ofSsa noFold _ rfl env

/-- The word whose bytes the nibbles pick: each names an operand, a byte of it, and whether only its
sign is taken. -/
def picked (sel : Fin 4 → Nat) (a c : BitVec 32) : BitVec 32 :=
  wordOfBytes fun i => (nibble (sel i)).foldU32 (![a, c] (nibble (sel i)).src)

theorem byteAt_picked {i : Fin 4} {src : Fin 2} {byte : Fin 4} {msb : Bool}
    (named : sel i = nibbleOf src byte msb) : byteAt (picked sel a c) i =
      if msb then signByte (byteAt (![a, c] src) byte) else byteAt (![a, c] src) byte := by
  unfold picked
  rw [byteAt_wordOfBytes, named, nibble_nibbleOf, PrmtSelByte.foldU32, PrmtSelByte.msb_new,
    PrmtSelByte.src_new, PrmtSelByte.byte_new]

/-- The nibbles of one operand pick it. -/
theorem picked_operand (src : Fin 2) (isSrc : ∀ i : Fin 4, sel i = nibbleOf src i false) :
    picked sel a c = ![a, c] src := by
  rw [← wordOfBytes_byteAt (picked sel a c)]
  refine Eq.trans (congrArg wordOfBytes (funext fun i => ?_)) (wordOfBytes_byteAt _)
  exact (byteAt_picked (isSrc i)).trans (if_neg Bool.false_ne_true)

theorem picked_first (isFirst : ∀ i, sel i = i) : picked sel a c = a :=
  picked_operand 0 fun i => (isFirst i).trans (Nat.zero_add _).symm

theorem picked_second (isSecond : ∀ i, sel i = 4 + i) :
    picked sel a c = c :=
  picked_operand 1 isSecond

/-- `OpPrmt` picks the bytes that its nibbles name. -/
theorem exec_prmt {env : Env} (small : ∀ i, sel i < 16) (first : env.getU32Src x = some a)
    (second : env.getU32Src y = some c) (sm : Nat) (dst : SSAValue) :
    BuilderOp.exec sm env (.prmt { dst := .ofSsa dst, mode := .index
                                   srcs := ![x, y, { reference := .ofU32 (selU32 sel) }] }) =
      Function.update env dst (some (.word (picked sel a c))) := by
  have folded : OpPrmt.fold { dst := .ofSsa dst, mode := .index
                              srcs := ![x, y, { reference := .ofU32 (selU32 sel) }] } env =
      some (.word (picked sel a c)) := by
    unfold OpPrmt.fold
    show (env.getU32Src x >>= fun _ => env.getU32Src y >>= fun _ =>
      Env.getU32Src env { reference := .ofU32 (selU32 sel) } >>= _) = _
    rw [first, second, getU32Src_ofU32]
    show some (Value.word (PrmtSel.fold _ _)) = _
    unfold PrmtSel.fold picked
    simp only [get_selU32 small]
  rw [← folded]
  rfl

/-- `prmt_to` picks the bytes that its nibbles name. -/
theorem prmtTo_picks {d : SSAValue} (small : ∀ i, sel i < 16) (isGpr : d.file = .gpr)
    (xPlain : x.modifier = .none) (yPlain : y.modifier = .none) :
    ∃ op, prmtTo (.ofSsa d) x y sel b = .ok ((), b.emit 0 [op]) ∧ op.writes = [d] ∧
      ∀ env a c, Env.getU32Src env x = some a → env.getU32Src y = some c →
        op.exec b.sm env = Function.update env d (some (.word (picked sel a c))) := by
  unfold prmtTo
  by_cases isFirst : ∀ i, sel i = i
  · rw [if_pos isFirst]
    refine ⟨_, rfl, rfl, fun env a c first second => ?_⟩
    rw [picked_first isFirst]
    exact exec_copy first xPlain isGpr b.sm
  rw [if_neg isFirst]
  by_cases isSecond : ∀ i, sel i = 4 + i
  · rw [if_pos isSecond]
    refine ⟨_, rfl, rfl, fun env a c first second => ?_⟩
    rw [picked_second isSecond]
    exact exec_copy second yPlain isGpr b.sm
  · have asserted : decide (∀ i, sel i < 16) = true := decide_eq_true small
    rw [if_neg isSecond, asserted]
    exact ⟨_, rfl, rfl, fun env a c first second => exec_prmt small first second b.sm d⟩

theorem prmt_emits (small : ∀ i, sel i < 16) (first : b.Reads start x a)
    (second : b.Reads start y c) (xPlain : x.modifier = .none) (yPlain : y.modifier = .none) :
    Emits (prmt x y sel) b fun dst b' => b'.Reads start (.ofSsa dst) (picked sel a c) := by
  obtain ⟨op, ran, writes, computes⟩ := prmtTo_picks
    (b := { b with ssaAlloc := ⟨b.ssaAlloc.count + 1⟩ }) (d := b.fresh .gpr 0) small rfl xPlain
    yPlain
  refine Emits.of_word ?_ writes ?_
  · show (prmtTo (.ofSsa (b.fresh .gpr 0)) x y sel _ >>= _) = _
    rw [ran]
    rfl
  · have executed := congrFun (computes (b.env start) a c first.value second.value)
      (b.fresh .gpr 0)
    exact executed.trans (Function.update_self _ _ _)

/-- The bytes of `prmt` for nibbles without a sign. -/
theorem prmt_bytes (small : ∀ i, sel i < 8) (first : b.Reads start x a) (second : b.Reads start y c)
    (xPlain : x.modifier = .none) (yPlain : y.modifier = .none) :
    Emits (prmt x y sel) b fun dst b' => ∃ w, b'.Reads start (.ofSsa dst) w ∧
      ∀ i (src : Fin 2) (byte : Fin 4), sel i = 4 * src + byte →
        byteAt w i = byteAt (![a, c] src) byte := by
  have wide : ∀ i, sel i < 16 := fun i => Nat.lt_of_lt_of_le (small i) (by decide)
  refine (prmt_emits wide first second xPlain yPlain).mono ?_
  rintro dst b' - ⟨sameSm, holds⟩
  refine ⟨sameSm, _, holds, fun i src byte named => ?_⟩
  have isNibble : sel i = nibbleOf src byte false := named.trans (congrArg (· + byte.val)
    (Nat.zero_add _).symm)
  exact (byteAt_picked isNibble).trans (if_neg Bool.false_ne_true)

/-! ### Four operands -/

/-- Four operands that read words as they are. -/
structure ReadsFour (b : Builder) (start : Env) (src : Fin 4 → Src) (v : Fin 4 → BitVec 32) :
    Prop where
  reads : ∀ k, b.Reads start (src k) (v k)
  plain : ∀ k, (src k).modifier = .none

variable {src : Fin 4 → Src} {v : Fin 4 → BitVec 32} {sel : Fin 4 → Nat}

/-- A selector among the first two words. -/
theorem byteAt_low {w : BitVec 32} {i : Fin 4} {n : Nat}
    (bytes : ∀ (src : Fin 2) (byte : Fin 4), n = 4 * src + byte →
      byteAt w i = byteAt (![v 0, v 1] src) byte)
    {k byte : Fin 4} (named : n = 4 * k + byte) (low : n < 8) :
    byteAt w i = byteAt (v k) byte := by
  match k with
  | 0 => exact bytes 0 byte named
  | 1 => exact bytes 1 byte named
  | 2 | 3 =>
    exfalso
    simp at named
    omega

/-- A selector among the last two words. -/
theorem byteAt_high {w : BitVec 32} {i : Fin 4} {n : Nat}
    (bytes : ∀ (src : Fin 2) (byte : Fin 4), n - 8 = 4 * src + byte →
      byteAt w i = byteAt (![v 2, v 3] src) byte)
    {k byte : Fin 4} (named : n = 4 * k + byte) (high : ¬ n < 8) :
    byteAt w i = byteAt (v k) byte := by
  match k with
  | 0 | 1 =>
    exfalso
    simp at named
    omega
  | 2 => exact bytes 0 byte (by simp at named ⊢; omega)
  | 3 => exact bytes 1 byte (by simp at named ⊢; omega)

/-- `prmt4` picks the byte that each selector names. -/
theorem prmt4_emits (four : b.ReadsFour start src v) (small : ∀ i, sel i < 16) :
    Emits (prmt4 src sel) b fun dst b' => ∃ w, b'.Reads start (.ofSsa dst) w ∧
      ∀ i (k byte : Fin 4), sel i = 4 * k + byte → byteAt w i = byteAt (v k) byte := by
  have bound : ∀ i, sel i ≤ max (max (sel 0) (sel 1)) (max (sel 2) (sel 3)) := by
    intro i
    match i with
    | 0 | 1 | 2 | 3 => omega
  have most : max (max (sel 0) (sel 1)) (max (sel 2) (sel 3)) < 16 := by
    have := small 0
    have := small 1
    have := small 2
    have := small 3
    omega
  have lowSmall : ∀ i, (if sel i < 8 then sel i else 0) < 8 := by
    intro i
    split
    next low => exact low
    next => decide
  unfold prmt4
  dsimp only
  generalize max (max (sel 0) (sel 1)) (max (sel 2) (sel 3)) = maxSel at bound most
  by_cases two : maxSel < 8
  · rw [if_pos two]
    refine (prmt_bytes (fun i => Nat.lt_of_le_of_lt (bound i) two) (four.reads 0) (four.reads 1)
      (four.plain 0) (four.plain 1)).mono ?_
    rintro dst b' - ⟨sameSm, w, holds, bytes⟩
    refine ⟨sameSm, w, holds, fun i k byte named => ?_⟩
    exact byteAt_low (bytes i) named (Nat.lt_of_le_of_lt (bound i) two)
  rw [if_neg two]
  by_cases three : maxSel < 12
  · rw [if_pos three]
    refine (prmt_bytes lowSmall (four.reads 0) (four.reads 1) (four.plain 0)
      (four.plain 1)).bind ?_
    intro first b₁ sameSm more ⟨w₁, holds₁, bytes₁⟩
    have third := (four.reads 2).mono sameSm more
    refine (prmt_bytes ?_ holds₁ third rfl (four.plain 2)).mono ?_
    · intro i
      have := bound i
      split <;> omega
    rintro dst b' - ⟨sameSm', w, holds, bytes⟩
    refine ⟨sameSm', w, holds, fun i k byte named => ?_⟩
    by_cases low : sel i < 8
    · have copied := bytes i 0 i (by simp [low])
      refine copied.trans (byteAt_low (fun s t is => bytes₁ i s t ?_) named low)
      rw [if_pos low, is]
    · refine byteAt_high (fun s t is => ?_) named low
      have below := bound i
      match s with
      | 0 => exact bytes i 1 t (by simp [low] at is ⊢; omega)
      | 1 =>
        exfalso
        simp at is
        omega
  rw [if_neg three, if_pos most]
  refine (prmt_bytes lowSmall (four.reads 0) (four.reads 1) (four.plain 0) (four.plain 1)).bind ?_
  intro first b₁ sameSm₁ more₁ ⟨w₁, holds₁, bytes₁⟩
  have highSmall : ∀ i, (if sel i < 8 then 0 else sel i - 8) < 8 := by
    intro i
    have := small i
    split <;> omega
  refine (prmt_bytes highSmall ((four.reads 2).mono sameSm₁ more₁)
    ((four.reads 3).mono sameSm₁ more₁) (four.plain 2) (four.plain 3)).bind ?_
  intro second b₂ sameSm₂ more₂ ⟨w₂, holds₂, bytes₂⟩
  have kept := holds₁.mono sameSm₂ more₂
  refine (prmt_bytes ?_ kept holds₂ rfl rfl).mono ?_
  · intro i
    split <;> omega
  rintro dst b' - ⟨sameSm', w, holds, bytes⟩
  refine ⟨sameSm', w, holds, fun i k byte named => ?_⟩
  by_cases low : sel i < 8
  · have copied := bytes i 0 i (by simp [low])
    refine copied.trans (byteAt_low (fun s t is => bytes₁ i s t ?_) named low)
    rw [if_pos low, is]
  · have copied := bytes i 1 i (by simp [low])
    refine copied.trans (byteAt_high (fun s t is => bytes₂ i s t ?_) named low)
    rw [if_neg low, is]

/-! ### The helpers -/

/-- An operand with or without a bitwise negation. -/
def MayInvert (src : Src) : Prop := src.modifier = .none ∨ src.modifier = .bNot

/-- On every chip the operation is computed on the operands as they are read, the selection takes the
operand that the condition names, and the permutes pick the bytes that their nibbles name. -/
theorem logic_exact (b : Builder) (start : Env) :
    (∀ (op : LogicOp2) (x y : Src) (d : SSAValue), MayInvert x → MayInvert y →
      (x.reference.isPredicate = false → y.reference.isPredicate = false →
        d.file.isPredicate = false →
        ∃ o, lop2To (.ofSsa d) op x y b = .ok ((), b.emit 0 [.value o]) ∧
          ∀ env a c, Env.getU32BnotSrc env x = some a → env.getU32BnotSrc y = some c →
            BuilderOp.exec b.sm env (.value o) =
              Function.update env d (some (.word (op.eval a c)))) ∧
      (x.reference.isPredicate = true → y.reference.isPredicate = true →
        d.file.isPredicate = true →
        ∃ o, lop2To (.ofSsa d) op x y b = .ok ((), b.emit 0 [.value o]) ∧
          ∀ env a c, Env.getPredSrc env x = some a → env.getPredSrc y = some c →
            BuilderOp.exec b.sm env (.value o) =
              Function.update env d (some (.pred (op.evalBool a c))))) ∧
    (∀ (cond x y : Src) (c : Bool), cond.reference.isPredicate = true → MayInvert cond →
      b.ReadsPred start cond c →
      (∀ a e, x.reference.isPredicate = false → y.reference.isPredicate = false →
        b.Reads start x a → b.Reads start y e →
        Emits (Builder.sel cond x y) b fun dst b' =>
          b'.env start dst = some (.word (if c then a else e))) ∧
      (∀ a e, x.reference.isPredicate = true → y.reference.isPredicate = true →
        b.ReadsPred start x a → b.ReadsPred start y e →
        Emits (Builder.sel cond x y) b fun dst b' =>
          b'.env start dst = some (.pred (if c then a else e)))) ∧
    (∀ (sel : Fin 4 → Nat) (x y : Src) (d : SSAValue), (∀ i, sel i < 16) → d.file = .gpr →
      x.modifier = .none → y.modifier = .none →
      ∃ op, prmtTo (.ofSsa d) x y sel b = .ok ((), b.emit 0 [op]) ∧
        ∀ env a c, Env.getU32Src env x = some a → env.getU32Src y = some c →
          ∃ w, op.exec b.sm env = Function.update env d (some (.word w)) ∧
            ∀ i src byte msb, sel i = nibbleOf src byte msb → byteAt w i =
              if msb then signByte (byteAt (![a, c] src) byte) else byteAt (![a, c] src) byte) ∧
    ∀ (sel : Fin 4 → Nat) (src : Fin 4 → Src) (v : Fin 4 → BitVec 32), (∀ i, sel i < 16) →
      b.ReadsFour start src v →
      Emits (prmt4 src sel) b fun dst b' => ∃ w, b'.Reads start (.ofSsa dst) w ∧
        ∀ i (k byte : Fin 4), sel i = 4 * k + byte → byteAt w i = byteAt (v k) byte := by
  refine ⟨?_, ?_, ?_, ?_⟩
  · intro op x y d xMod yMod
    constructor
    · intro xWord yWord dWord
      obtain ⟨o, ran, isDst, computes⟩ := lop2To_word op xWord yWord dWord xMod yMod
      refine ⟨o, ran, fun env a c isX isY => ?_⟩
      rw [← computes env a c isX isY]
      exact ValueOp.exec_ofSsa noFold _ isDst env
    · intro xPred yPred dPred
      obtain ⟨o, ran, isDst, computes⟩ := lop2To_pred op xPred yPred dPred xMod yMod
      refine ⟨o, ran, fun env a c isX isY => ?_⟩
      rw [← computes env a c isX isY]
      exact ValueOp.exec_ofSsa noFold _ isDst env
  · intro cond x y c condPred condMod isCond
    constructor
    · intro a e xWord yWord isX isY
      exact sel_word condPred xWord yWord isCond.value isX.value isY.value
    · intro a e xPred yPred isX isY
      exact sel_pred condPred xPred yPred condMod isCond.known isY.known isCond.value isX.value
        isY.value
  · intro sel x y d small isGpr xPlain yPlain
    obtain ⟨op, ran, -, computes⟩ := prmtTo_picks small isGpr xPlain yPlain
    refine ⟨op, ran, fun env a c first second => ⟨_, computes env a c first second, ?_⟩⟩
    intro i src byte msb named
    exact byteAt_picked named
  · intro sel src v small four
    exact prmt4_emits four small

end Builder

end CoralReef
