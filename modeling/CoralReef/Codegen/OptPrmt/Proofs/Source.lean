import CoralReef.Codegen.OptPrmt

/-!
# Looking through one source

The operands that a permute in SSA form has, what the map of a pass says of them, and the step that
replaces a source by a source of its permute.
-/

namespace CoralReef

/-- An operand of one component, read as a word before registers are assigned. -/
structure SrcRef.Scalar (r : SrcRef) : Prop where
  alu : r.isAlu
  noReg : r.getReg = none
  single : ∀ vec, r = .ssa vec → vec.length = 1

/-- A scalar operand whose names all satisfy `here`. -/
structure SrcRef.Good (here : SSAValue → Prop) (r : SrcRef) : Prop extends r.Scalar where
  names : ∀ z ∈ r.iterSsa, here z

/-- The operands of a permute are good, and have no modifiers. -/
structure OpPrmt.Good (here : SSAValue → Prop) (op : OpPrmt) : Prop where
  plain : ∀ i, (op.srcs i).isUnmodified
  refs : ∀ i, (op.srcs i).reference.Good here

namespace PrmtEntry

/-- The value the entry gives its name. -/
def value {E : Type} (interp : AluInterp E) (vals : SSAValue → BitVec 32) (entry : PrmtEntry) :
    BitVec 32 :=
  entry.sel.fold fun j => interp.word vals (entry.srcs j)

end PrmtEntry

namespace PrmtPass

/-- The entries for names that satisfy `here` speak of such names, of lower rank. -/
structure Closed (pass : PrmtPass) (here : SSAValue → Prop) (rank : SSAValue → Nat) : Prop where
  refs : ∀ x entry, pass x = some entry → here x → ∀ j, (entry.srcs j).Good here
  less : ∀ x entry, pass x = some entry → ∀ j, ∀ z ∈ (entry.srcs j).iterSsa, rank z < rank x

/-- The entries for names that satisfy `here` are true. -/
def Holds {E : Type} (pass : PrmtPass) (here : SSAValue → Prop) (interp : AluInterp E)
    (vals : SSAValue → BitVec 32) : Prop :=
  ∀ x entry, pass x = some entry → here x → vals x = entry.value interp vals

/-- How far an operand can be looked through: not at all when it is no permute. -/
def depth (pass : PrmtPass) (rank : SSAValue → Nat) : SrcRef → Nat
  | .ssa [x] => if (pass x).isSome then rank x + 1 else 0
  | _ => 0

end PrmtPass

theorem SrcRef.Scalar.cases {r : SrcRef} (scalar : r.Scalar) :
    r = .zero ∨ (∃ u, r = .imm32 u) ∨ (∃ cb, r = .cbuf cb) ∨ ∃ x, r = .ssa [x] := by
  cases r with
  | zero => exact .inl rfl
  | imm32 u => exact .inr (.inl ⟨u, rfl⟩)
  | cbuf cb => exact .inr (.inr (.inl ⟨cb, rfl⟩))
  | ssa vec =>
    rcases List.length_eq_one_iff.mp (scalar.single vec rfl) with ⟨x, rfl⟩
    exact .inr (.inr (.inr ⟨x, rfl⟩))
  | reg r => exact absurd scalar.noReg (by simp [getReg])
  | boolTrue | boolFalse => exact absurd scalar.alu (by simp [isAlu])

theorem SrcRef.Good.zero (here : SSAValue → Prop) : SrcRef.Good here .zero where
  alu := rfl
  noReg := rfl
  single := by simp
  names := by simp [iterSsa]

theorem SrcRef.Good.ofU32 (here : SSAValue → Prop) (u : BitVec 32) : (SrcRef.ofU32 u).Good here := by
  unfold SrcRef.ofU32
  split
  · exact .zero here
  · exact ⟨⟨rfl, rfl, by simp⟩, by simp [iterSsa]⟩

theorem SrcRef.asU32_of_scalar {r : SrcRef} (scalar : r.Scalar) :
    r.asU32 = .ok (Src.immediate { reference := r }) := by
  rcases scalar.cases with rfl | ⟨u, rfl⟩ | ⟨cb, rfl⟩ | ⟨x, rfl⟩ <;> rfl

variable {E : Type} (interp : AluInterp E) (vals : SSAValue → BitVec 32)

/-- A constant operand has its value. -/
theorem AluInterp.word_immediate {src : Src} {u : BitVec 32} (isImm : src.immediate = some u) :
    interp.word vals src.reference = u := by
  rcases src with ⟨r, modifier, swizzle⟩
  cases r <;> cases isImm <;> rfl

namespace OpPrmt

variable {op : OpPrmt} {here : SSAValue → Prop}

@[simp] theorem source_withSel (op : OpPrmt) (sel : PrmtSel) (i : Fin 2) :
    (op.withSel sel).source i = op.source i := by
  match i with
  | 0 => rfl
  | 1 => rfl

@[simp] theorem sel_withSource (op : OpPrmt) (i : Fin 2) (r : SrcRef) :
    (op.withSource i r).sel = op.sel := by
  match i with
  | 0 => rfl
  | 1 => rfl

@[simp] theorem source_withSource (op : OpPrmt) (i j : Fin 2) (r : SrcRef) :
    (op.withSource i r).source j = if j = i then { reference := r } else op.source j := by
  match i, j with
  | 0, 0 | 0, 1 | 1, 0 | 1, 1 => rfl

theorem getSel_eq (plain : op.sel.isUnmodified) :
    op.getSel = .ok (if op.mode = .index then
      op.sel.immediate.map fun sel => ⟨sel.setWidth 16⟩ else none) := by
  unfold getSel
  split
  · rw [Src.asU32_unmodified plain]
    rfl
  · rfl

/-- The value of a permute with a constant selector. -/
theorem value_of_getSel (plain : op.sel.isUnmodified) {sel : PrmtSel}
    (isSel : op.getSel = .ok (some sel)) :
    op.mode = .index ∧ interp.prmtValue vals op =
      sel.fold fun i => interp.word vals (op.source i).reference := by
  rw [getSel_eq plain] at isSel
  have isSel := Except.ok.inj isSel
  split at isSel
  · next isIndex =>
    rcases Option.map_eq_some_iff.mp isSel with ⟨u, isImm, rfl⟩
    refine ⟨isIndex, ?_⟩
    have word : interp.word vals (op.srcs 2).reference = u := interp.word_immediate vals isImm
    simp only [AluInterp.prmtValue, if_pos isIndex, word]
    refine congrArg _ ?_
    funext i
    match i with
    | 0 => rfl
    | 1 => rfl
  · cases isSel

@[simp] theorem getSel_withSource (op : OpPrmt) (i : Fin 2) (r : SrcRef) :
    (op.withSource i r).getSel = op.getSel := by
  unfold getSel
  rw [sel_withSource]
  rfl

theorem getSel_withSel (isIndex : op.mode = .index) (sel : PrmtSel) :
    (op.withSel sel).getSel = .ok (some sel) := by
  have plain : (op.withSel sel).sel.isUnmodified := rfl
  have isIndex' : (op.withSel sel).mode = .index := isIndex
  rw [getSel_eq plain, if_pos isIndex']
  have imm : (op.withSel sel).sel.immediate = some (sel.bits.zeroExtend 32) := by
    show Src.immediate { reference := .ofU32 (sel.bits.zeroExtend 32) } = _
    unfold SrcRef.ofU32
    split
    · next isZero => rw [isZero]; rfl
    · exact congrArg some (BitVec.ofNat_toNat 32 _)
  rw [imm]
  refine congrArg (fun sel => Except.ok (some sel)) (congrArg PrmtSel.mk ?_)
  exact BitVec.setWidth_setWidth_of_le _ (by decide)

/-- A new selector and new sources are good when the sources are. -/
theorem Good.withSel (good : op.Good here) (sel : PrmtSel) :
    (op.withSel sel).Good here where
  plain := by
    intro i
    match i with
    | 0 => exact good.plain 0
    | 1 => exact good.plain 1
    | 2 => rfl
  refs := by
    intro i
    match i with
    | 0 => exact good.refs 0
    | 1 => exact good.refs 1
    | 2 => exact .ofU32 here _

theorem Good.withSource (good : op.Good here) (i : Fin 2) {r : SrcRef} (isGood : r.Good here) :
    (op.withSource i r).Good here where
  plain := by
    intro j
    match i, j with
    | 0, 0 => rfl
    | 0, 1 => exact good.plain 1
    | 0, 2 => exact good.plain 2
    | 1, 0 => exact good.plain 0
    | 1, 1 => rfl
    | 1, 2 => exact good.plain 2
  refs := by
    intro j
    match i, j with
    | 0, 0 => exact isGood
    | 0, 1 => exact good.refs 1
    | 0, 2 => exact good.refs 2
    | 1, 0 => exact good.refs 0
    | 1, 1 => exact isGood
    | 1, 2 => exact good.refs 2

theorem Good.source (good : op.Good here) (i : Fin 2) :
    (op.source i).isUnmodified ∧ (op.source i).reference.Good here :=
  ⟨good.plain _, good.refs _⟩

/-- Permutes with the same bytes have the same value. -/
theorem value_eq_of_bytes {op op' : OpPrmt} (plain : op.sel.isUnmodified)
    (plain' : op'.sel.isUnmodified) {sel sel' : PrmtSel} (isSel : op.getSel = .ok (some sel))
    (isSel' : op'.getSel = .ok (some sel'))
    (same : ∀ i, (sel'.get i).foldU32 (interp.word vals (op'.source (sel'.get i).src).reference) =
      (sel.get i).foldU32 (interp.word vals (op.source (sel.get i).src).reference)) :
    interp.prmtValue vals op' = interp.prmtValue vals op := by
  rw [(value_of_getSel interp vals plain isSel).2, (value_of_getSel interp vals plain' isSel').2]
  exact congrArg wordOfBytes (funext same)

end OpPrmt

namespace PrmtPass

variable {pass : PrmtPass} {here : SSAValue → Prop} {rank : SSAValue → Nat}

/-- The permute an operand is defined by, if any. -/
theorem getPrmtForSrc_eq (pass : PrmtPass) (rank : SSAValue → Nat) {src : Src} (plain : src.isUnmodified) (good : src.reference.Good here) :
    (∃ x entry, src.reference = .ssa [x] ∧ pass x = some entry ∧ here x ∧
      pass.getPrmtForSrc src = .ok (some entry)) ∨
    (pass.depth rank src.reference = 0 ∧ pass.getPrmtForSrc src = .ok none) := by
  rcases src with ⟨r, modifier, swizzle⟩
  unfold getPrmtForSrc
  rw [plain, assertThat_true, ok_bind]
  rcases good.toScalar.cases with h | ⟨u, h⟩ | ⟨cb, h⟩ | ⟨x, h⟩
  · cases h
    exact .inr ⟨rfl, rfl⟩
  · cases h
    exact .inr ⟨rfl, rfl⟩
  · cases h
    exact .inr ⟨rfl, rfl⟩
  · cases h
    have isHere : here x := good.names x (by simp [SrcRef.iterSsa])
    cases found : pass x with
    | none => exact .inr ⟨by simp [depth, found], congrArg Except.ok found⟩
    | some entry => exact .inl ⟨x, entry, rfl, found, isHere, congrArg Except.ok found⟩

/-- The bytes that `substBytes` finds. -/
theorem substBytes_spec {opSel srcSel : PrmtSel} {srcIdx : Fin 2} :
    ∀ {places : List (Fin 4)} {srcPrmtSrc srcPrmtSrc' : Option (Fin 2)} {bytes : List PrmtSelByte},
      substBytes opSel srcSel srcIdx srcPrmtSrc places = some (bytes, srcPrmtSrc') →
        (∀ j, srcPrmtSrc = some j → srcPrmtSrc' = some j) ∧
        List.Forall₂ (fun i selByte =>
          ((opSel.get i).src ≠ srcIdx ∧ selByte = opSel.get i) ∨
          ((opSel.get i).src = srcIdx ∧
            srcPrmtSrc' = some (srcSel.get (opSel.get i).byte).src ∧
            selByte = .new srcIdx (srcSel.get (opSel.get i).byte).byte
              ((opSel.get i).msb || (srcSel.get (opSel.get i).byte).msb))) places bytes := by
  intro places
  induction places with
  | nil =>
    intro srcPrmtSrc srcPrmtSrc' bytes found
    cases found
    exact ⟨fun j isSrc => isSrc, .nil⟩
  | cons i places ih =>
    intro srcPrmtSrc srcPrmtSrc' bytes found
    unfold substBytes at found
    by_cases other : (opSel.get i).src ≠ srcIdx
    · rw [if_pos other] at found
      rcases Option.map_eq_some_iff.mp found with ⟨⟨bytes', last⟩, rest, same⟩
      cases same
      rcases ih rest with ⟨kept, each⟩
      exact ⟨kept, .cons (.inl ⟨other, rfl⟩) each⟩
    · rw [if_neg other] at found
      simp only at found
      split at found
      · cases found
      · next agrees =>
        rcases Option.map_eq_some_iff.mp found with ⟨⟨bytes', last⟩, rest, same⟩
        cases same
        rcases ih rest with ⟨kept, each⟩
        refine ⟨?_, .cons (.inr ⟨not_not.mp other, kept _ rfl, rfl⟩) each⟩
        intro j isSrc
        subst isSrc
        have same : some j = some (srcSel.get (opSel.get i).byte).src := by simpa using agrees
        rw [same]
        exact kept _ rfl

/-- An op that a try has made of another: it has the same value when the entries are true. -/
structure Remade (pass : PrmtPass) (here : SSAValue → Prop) (op op' : OpPrmt) : Prop where
  good : op'.Good here
  dst : op'.dst = op.dst
  value : ∀ {E : Type} (interp : AluInterp E) (vals : SSAValue → BitVec 32),
    pass.Holds here interp vals → interp.prmtValue vals op' = interp.prmtValue vals op

theorem Remade.refl {op : OpPrmt} (good : op.Good here) : pass.Remade here op op where
  good := good
  dst := rfl
  value := fun _ _ _ => rfl

theorem Remade.trans {op op' op'' : OpPrmt} (first : pass.Remade here op op')
    (second : pass.Remade here op' op'') : pass.Remade here op op'' where
  good := second.good
  dst := second.dst.trans first.dst
  value := fun interp vals isTrue =>
    (second.value interp vals isTrue).trans (first.value interp vals isTrue)

/-- The sources of an entry lie less deep than its name. -/
theorem Closed.depth_lt (closed : pass.Closed here rank) {x : SSAValue} {entry : PrmtEntry}
    (found : pass x = some entry) (isHere : here x) (j : Fin 2) :
    pass.depth rank (entry.srcs j) < pass.depth rank (.ssa [x]) := by
  have deep : pass.depth rank (.ssa [x]) = rank x + 1 := by simp [depth, found]
  rw [deep]
  have good := closed.refs x entry found isHere j
  rcases good.toScalar.cases with same | ⟨u, same⟩ | ⟨cb, same⟩ | ⟨z, same⟩
  · simp [same, depth]
  · simp [same, depth]
  · simp [same, depth]
  · have less := closed.less x entry found j z (by simp [same, SrcRef.iterSsa])
    simp only [same, depth]
    split <;> omega

theorem Closed.substitute (closed : pass.Closed here rank) {x : SSAValue} {entry : PrmtEntry}
    (found : pass x = some entry) (isHere : here x) (srcPrmtSrc : Option (Fin 2)) :
    (PrmtPass.substitute entry srcPrmtSrc).Good here ∧
      pass.depth rank (PrmtPass.substitute entry srcPrmtSrc) < pass.depth rank (.ssa [x]) := by
  cases srcPrmtSrc with
  | none => exact ⟨.zero here, by simp [PrmtPass.substitute, depth, found]⟩
  | some j => exact ⟨closed.refs x entry found isHere j, closed.depth_lt found isHere j⟩

/-- The bytes that `substBytes` finds are those of the op. -/
theorem value_substBytes {op : OpPrmt} (good : op.Good here) {opSel : PrmtSel}
    (isSel : op.getSel = .ok (some opSel)) {srcIdx : Fin 2} {x : SSAValue} {entry : PrmtEntry}
    (isSsa : (op.source srcIdx).reference = .ssa [x]) {newSel : List PrmtSelByte}
    {srcPrmtSrc : Option (Fin 2)}
    (bytes : substBytes opSel entry.sel srcIdx none (List.finRange 4) = some (newSel, srcPrmtSrc))
    (holds : vals x = entry.value interp vals) :
    interp.prmtValue vals ((op.withSel (.new newSel)).withSource srcIdx
      (PrmtPass.substitute entry srcPrmtSrc)) = interp.prmtValue vals op := by
  have isIndex := (OpPrmt.value_of_getSel interp vals (good.plain 2) isSel).1
  refine OpPrmt.value_eq_of_bytes interp vals (good.plain 2) ?_ isSel
    (by rw [OpPrmt.getSel_withSource, OpPrmt.getSel_withSel isIndex]) ?_
  · rw [OpPrmt.sel_withSource]
    rfl
  · intro i
    rcases PrmtSel.rel_get_new (substBytes_spec bytes).2 i with ⟨other, same⟩ | ⟨isSrc, last, same⟩
    · rw [same, OpPrmt.source_withSource, if_neg other, OpPrmt.source_withSel]
    · rw [same, PrmtSelByte.src_new, OpPrmt.source_withSource, if_pos rfl, isSrc, isSsa, last]
      refine PrmtSelByte.foldU32_new (opSel.get i) _ srcIdx ?_
      show byteAt (vals x) _ = _
      rw [holds, PrmtEntry.value, PrmtSel.fold, byteAt_wordOfBytes]
      rfl

/-- Looking through one source of a permute. -/
theorem tryOptPrmtSrc_spec (closed : pass.Closed here rank) {op : OpPrmt} (good : op.Good here)
    (srcIdx : Fin 2) : ∃ r, pass.tryOptPrmtSrc srcIdx op = .ok r ∧ ∀ op', r = some op' →
      pass.Remade here op op' ∧
      pass.depth rank (op'.source srcIdx).reference < pass.depth rank (op.source srcIdx).reference ∧
      ∀ j, j ≠ srcIdx → op'.source j = op.source j := by
  unfold tryOptPrmtSrc
  have plain : op.sel.isUnmodified := good.plain 2
  cases isSel : op.getSel with
  | error fault =>
    rw [OpPrmt.getSel_eq plain] at isSel
    cases isSel
  | ok opSel? =>
    rw [ok_bind]
    cases opSel? with
    | none => exact ⟨none, rfl, fun op' never => by cases never⟩
    | some opSel =>
      have source := good.source srcIdx
      rcases getPrmtForSrc_eq pass rank source.1 source.2 with
        ⟨x, entry, isSsa, found, isHere, isEntry⟩ | ⟨_, isNone⟩
      · simp only [isEntry, ok_bind]
        cases bytes : substBytes opSel entry.sel srcIdx none (List.finRange 4) with
        | none => exact ⟨none, rfl, fun op' never => by cases never⟩
        | some result =>
          rcases result with ⟨newSel, srcPrmtSrc⟩
          refine ⟨_, rfl, ?_⟩
          intro op' isOp
          cases isOp
          rcases closed.substitute found isHere srcPrmtSrc with ⟨isGood, shallower⟩
          refine ⟨⟨(good.withSel _).withSource srcIdx isGood, rfl, ?_⟩, ?_, ?_⟩
          · intro E interp vals isTrue
            exact value_substBytes interp vals good isSel isSsa bytes (isTrue x entry found isHere)
          · rw [isSsa]
            simpa using shallower
          · intro j other
            simp [other]
      · simp only [isNone, ok_bind]
        exact ⟨none, rfl, fun op' never => by cases never⟩

end PrmtPass

end CoralReef
