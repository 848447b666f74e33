import CoralReef.Codegen.OptLop
import Mathlib.Tactic.IntervalCases

/-!
# One operand replaced by the operands of its logic op

Where the sources of an entry are put, and what that does to the tables: a place is free when no
table looks at it.
-/

open List

open Function (update update_comm update_eq_self update_idem update_of_ne update_self)

namespace CoralReef

/-!
## Composed tables

What the tables that `opt_lop` makes give, bit by bit.
-/

namespace LogicOp3

/-- A table that ignores an input has equal rows for it. -/
theorem not_srcUsed_of_ignores {op : LogicOp3} {i : Fin 3} (ignores : op.Ignores i) :
    op.srcUsed i = false := by
  have rows (v : Fin 3 → Bool) : op.result (update v i true) =
      op.result (update v i false) := (ignores v true).trans (ignores v false).symm
  have same : op.lut &&& ~~~srcMasks i = (op.lut >>> srcShift i) &&& ~~~srcMasks i := by
    apply BitVec.eq_of_getLsbD_eq
    intro k inside
    have r₀ := rows ![false, false, false]
    have r₁ := rows ![false, false, true]
    have r₂ := rows ![false, true, false]
    have r₃ := rows ![false, true, true]
    have r₄ := rows ![true, false, false]
    have r₅ := rows ![true, false, true]
    have r₆ := rows ![true, true, false]
    match i with
    | 0 =>
      simp [result, rowOf] at r₀ r₁ r₂ r₃
      interval_cases k <;> simp [srcMasks, srcShift, *]
    | 1 =>
      simp [result, rowOf] at r₀ r₁ r₄ r₅
      interval_cases k <;> simp [srcMasks, srcShift, *]
    | 2 =>
      simp [result, rowOf] at r₀ r₂ r₄ r₆
      interval_cases k <;> simp [srcMasks, srcShift, *]
  simpa [srcUsed] using same

/-- Inputs that differ only where the table ignores them give the same. -/
theorem result_congr {op : LogicOp3} {v w : Fin 3 → Bool}
    (same : ∀ i, op.Ignores i ∨ v i = w i) : op.result v = op.result w := by
  have one (u : Fin 3 → Bool) (i : Fin 3) (isV : u i = v i) :
      op.result (update u i (w i)) = op.result u := by
    rcases same i with ignores | isSame
    · exact ignores u (w i)
    · rw [← isSame, ← isV, update_eq_self]
  let v₁ := update v 0 (w 0)
  let v₂ := update v₁ 1 (w 1)
  have all : update v₂ 2 (w 2) = w := by
    funext i
    match i with
    | 0 => rfl
    | 1 => rfl
    | 2 => rfl
  calc op.result v
    _ = op.result v₁ := (one v 0 rfl).symm
    _ = op.result v₂ := (one v₁ 1 rfl).symm
    _ = op.result (update v₂ 2 (w 2)) := (one v₂ 2 rfl).symm
    _ = op.result w := congrArg op.result all

/-- The bits of a vector of words. -/
theorem getLsbD_vec {w : Nat} (x y z : BitVec w) (k : Nat) (i : Fin 3) :
    (![x, y, z] i).getLsbD k = ![x.getLsbD k, y.getLsbD k, z.getLsbD k] i := by
  match i with
  | 0 => rfl
  | 1 => rfl
  | 2 => rfl

theorem result_shareSrc (op : LogicOp3) (i j : Fin 3) (v : Fin 3 → Bool) :
    (op.shareSrc i j).result v = op.result (update v j (v i)) := by
  refine result_newLut (g := fun v => op.result (update v j (v i))) ?_ v
  intro x y z k inside
  rw [getLsbD_eval op _ inside]
  refine congrArg op.result ?_
  funext l
  by_cases isJ : l = j
  · rw [isJ, update_self, update_self]
    exact getLsbD_vec x y z k i
  · rw [update_of_ne isJ, update_of_ne isJ]
    exact getLsbD_vec x y z k l

/-- A composed table looks the table of the entry up for the input in its place. -/
theorem result_compose (op entryOp : LogicOp3) (entrySrcs : Fin 3 → Option (Fin 3)) (srcIdx : Fin 3)
    (v : Fin 3 → Bool) : (op.compose entryOp entrySrcs srcIdx).result v =
      op.result (update v srcIdx (entryOp.result (entryInputs false entrySrcs v))) := by
  refine result_newLut (g := fun v =>
    op.result (update v srcIdx (entryOp.result (entryInputs false entrySrcs v)))) ?_ v
  intro x y z k inside
  rw [getLsbD_eval op _ inside]
  refine congrArg op.result ?_
  funext l
  by_cases isSrc : l = srcIdx
  · rw [isSrc, update_self, update_self]
    refine (getLsbD_eval entryOp (entryInputs 0 entrySrcs ![x, y, z]) inside).trans
      (congrArg entryOp.result ?_)
    funext i
    unfold entryInputs
    cases entrySrcs i with
    | none => exact BitVec.getLsbD_zero
    | some j => exact getLsbD_vec x y z k j
  · rw [update_of_ne isSrc, update_of_ne isSrc]
    exact getLsbD_vec x y z k l

/-- A composed table ignores an input that no source of the entry is put into, when the table
ignored it or it is replaced. -/
theorem ignores_compose {op entryOp : LogicOp3} {entrySrcs : Fin 3 → Option (Fin 3)}
    {srcIdx j : Fin 3} (unplaced : ∀ i, entrySrcs i ≠ some j) (free : j = srcIdx ∨ op.Ignores j) :
    (op.compose entryOp entrySrcs srcIdx).Ignores j := by
  intro v b
  have same : entryInputs false entrySrcs (update v j b) =
      entryInputs false entrySrcs v := by
    funext i
    unfold entryInputs
    cases atI : entrySrcs i with
    | none => rfl
    | some k =>
      have other : k ≠ j := fun isJ => unplaced i (by rw [atI, isJ])
      exact update_of_ne other b v
  rw [result_compose, result_compose, same]
  rcases free with rfl | ignores
  · rw [update_idem]
  · by_cases isSrc : j = srcIdx
    · rw [isSrc, update_idem]
    · rw [update_comm isSrc, ignores]

end LogicOp3

/-- The bits of a name that a logic op gives it. -/
def RegFile.lopBits : RegFile → Nat
  | .gpr | .ugpr => 32
  | .pred | .upred => 1
  | .carry | .bar | .mem => 0

/-- A plain operand of a logic op of so many bits: when it is a name, it is one, it has that many,
and its uses are counted. -/
structure Src.Bitwise (counts : SSAValue → Option Nat) (width : Nat) (src : Src) : Prop where
  plain : src.isUnmodified
  single : ∀ vec, src.reference = .ssa vec →
    ∃ x, vec = [x] ∧ width ≤ x.file.lopBits ∧ (counts x).isSome

namespace LopEntry

/-- The sources that the entry uses vary. -/
structure Formed (counts : SSAValue → Option Nat) (width : Nat) (entry : LopEntry) : Prop where
  used : entry.srcsUsed = entry.op.srcUsed
  varies : ∀ i, entry.op.srcUsed i = true → (entry.srcs i).reference.constBit = none
  bitwise : ∀ i, (entry.srcs i).Bitwise counts width

end LopEntry

section

variable {E : Type} (interp : AluInterp E) (vals : SSAValue → BitVec 32)

/-- One bit of every source. -/
def srcBits (srcs : Fin 3 → Src) (bit : Nat) (j : Fin 3) : Bool :=
  (interp.word vals (srcs j).reference).getLsbD bit

/-- The name has the bits that the entry gives it. -/
def LopEntry.Means (x : SSAValue) (entry : LopEntry) : Prop :=
  ∀ bit < x.file.lopBits, (vals x).getLsbD bit = entry.op.result (srcBits interp vals entry.srcs bit)

/-- The entries for names that satisfy `here` are true. -/
def LopPass.Holds (pass : LopPass) (here : SSAValue → Prop) : Prop :=
  ∀ x entry, pass.ssaLop x = some entry → here x → entry.Means interp vals x

theorem getLsbD_constBit {r : SrcRef} {b : Bool} (isConst : r.constBit = some b) {bit : Nat}
    (inside : bit < 32) : (interp.word vals r).getLsbD bit = b := by
  have allOnes : (BitVec.allOnes 32).getLsbD bit = true := by
    rw [BitVec.getLsbD_allOnes]
    exact decide_eq_true inside
  unfold SrcRef.constBit at isConst
  split at isConst
  · cases isConst
    exact BitVec.getLsbD_zero
  · cases isConst
    exact BitVec.getLsbD_zero
  · cases isConst
    exact BitVec.getLsbD_zero
  · cases isConst
    exact allOnes
  · cases isConst
    exact allOnes
  · cases isConst

end

namespace LopPass

/-- The entries for names that satisfy `here` speak of such names, of lower rank. -/
structure Closed (pass : LopPass) (here : SSAValue → Prop) (rank : SSAValue → Nat) : Prop where
  formed : ∀ x entry, pass.ssaLop x = some entry → entry.Formed pass.useCounts x.file.lopBits
  names : ∀ x entry, pass.ssaLop x = some entry → here x → ∀ i, ∀ z ∈ (entry.srcs i).iterSsa, here z
  less : ∀ x entry, pass.ssaLop x = some entry → ∀ i, ∀ z ∈ (entry.srcs i).iterSsa, rank z < rank x

/-- How far an operand can be looked through: not at all when it is no logic op. -/
def depth (pass : LopPass) (rank : SSAValue → Nat) : SrcRef → Nat
  | .ssa [x] => if (pass.ssaLop x).isSome then rank x + 1 else 0
  | _ => 0

end LopPass

namespace LopOps

variable {n : Nat}

/-- The sources are operands whose names satisfy `here`, and the tables ignore the constants. -/
structure Good (counts : SSAValue → Option Nat) (here : SSAValue → Prop) (width : Nat)
    (op : LopOps n) : Prop where
  bitwise : ∀ i, (op.srcs i).Bitwise counts width
  names : ∀ i, ∀ z ∈ (op.srcs i).iterSsa, here z
  settled : ∀ i, (op.srcs i).reference.constBit ≠ none → ∀ k, (op.ops k).Ignores i

/-- Ops that give the same bits when the entries are true. -/
def SameBits (pass : LopPass) (here : SSAValue → Prop) (width : Nat) (op op' : LopOps n) : Prop :=
  ∀ {E : Type} (interp : AluInterp E) (vals : SSAValue → BitVec 32), pass.Holds interp vals here →
    ∀ k, ∀ bit < width, (op'.ops k).result (srcBits interp vals op'.srcs bit) =
      (op.ops k).result (srcBits interp vals op.srcs bit)

end LopOps

theorem Src.eq_of_plain {a b : Src} (plainA : a.isUnmodified) (plainB : b.isUnmodified)
    (same : a.reference = b.reference) : a = b := by
  rcases a with ⟨r, m, s⟩
  rcases b with ⟨r', m', s'⟩
  simp only [Src.isUnmodified, decide_eq_true_eq] at plainA plainB
  rw [plainA.1, plainA.2, plainB.1, plainB.2]
  exact congrArg (Src.mk · .none .none) same

theorem Src.Bitwise.mono {counts : SSAValue → Option Nat} {width width' : Nat} {src : Src}
    (bitwise : src.Bitwise counts width) (le : width' ≤ width) : src.Bitwise counts width' where
  plain := bitwise.plain
  single := by
    intro vec isSsa
    rcases bitwise.single vec isSsa with ⟨x, isOne, wide, counted⟩
    exact ⟨x, isOne, le.trans wide, counted⟩

theorem srcAsBool_eq {src : Src} (plain : src.isUnmodified) :
    srcAsBool src = .ok src.reference.constBit := by
  unfold srcAsBool
  rw [plain, assertThat_true, ok_bind]
  rfl

/-- A place that may be taken: the one that is replaced, and those of constants. -/
def IsFree (srcs : Fin 3 → Src) (srcIdx j : Fin 3) : Prop :=
  j = srcIdx ∨ (srcs j).reference.constBit ≠ none

theorem nextFree_spec {srcs : Fin 3 → Src} (plain : ∀ j, (srcs j).isUnmodified) (srcIdx : Fin 3) :
    ∀ free, ∃ r, nextFree srcs srcIdx free = .ok r ∧ ∀ j rest, r = some (j, rest) →
      IsFree srcs srcIdx j ∧ ∃ skipped, free = skipped ++ j :: rest := by
  intro free
  induction free with
  | nil => exact ⟨none, rfl, fun j rest never => by cases never⟩
  | cons j rest ih =>
    rw [nextFree]
    by_cases isSrc : j = srcIdx
    · rw [if_pos isSrc]
      refine ⟨_, rfl, ?_⟩
      intro j' rest' isNext
      cases isNext
      exact ⟨.inl isSrc, [], rfl⟩
    · rw [if_neg isSrc, srcAsBool_eq (plain j), ok_bind]
      cases isConst : (srcs j).reference.constBit with
      | some b =>
        refine ⟨_, rfl, ?_⟩
        intro j' rest' isNext
        cases isNext
        exact ⟨.inr (by rw [isConst]; exact Option.some_ne_none b), [], rfl⟩
      | none =>
        rcases ih with ⟨r, returned, found⟩
        refine ⟨r, returned, ?_⟩
        intro j' rest' isNext
        rcases found j' rest' isNext with ⟨isFree, skipped, isSplit⟩
        exact ⟨isFree, j :: skipped, by rw [isSplit]; rfl⟩

/-- Where the used sources among `is` have been put. -/
structure Placed (entry : LopEntry) (srcs : Fin 3 → Src) (srcIdx : Fin 3) (is free : List (Fin 3))
    (entrySrcs : Fin 3 → Option (Fin 3)) : Prop where
  used : ∀ i ∈ is, entry.srcsUsed i = true → entrySrcs i ≠ none
  only : ∀ i j, entrySrcs i = some j → entry.srcsUsed i = true
  at' : ∀ i j, entrySrcs i = some j →
    (entry.srcs i).reference = (srcs j).reference ∨ (j ∈ free ∧ IsFree srcs srcIdx j)
  same : ∀ i i' j, entrySrcs i = some j → entrySrcs i' = some j →
    (entry.srcs i).reference = (entry.srcs i').reference

/-- One more source is put into its place. -/
theorem Placed.cons {entry : LopEntry} {srcs : Fin 3 → Src} {srcIdx i j : Fin 3}
    {rest free free' : List (Fin 3)} {entrySrcs : Fin 3 → Option (Fin 3)}
    (placed : Placed entry srcs srcIdx rest free' entrySrcs) (isUsed : entry.srcsUsed i = true)
    (sub : free' ⊆ free)
    (here : (entry.srcs i).reference = (srcs j).reference ∨ (j ∈ free ∧ IsFree srcs srcIdx j))
    (alone : ∀ i', entrySrcs i' = some j → (entry.srcs i).reference = (entry.srcs i').reference) :
    Placed entry srcs srcIdx (i :: rest) free (update entrySrcs i (some j)) where
  used := by
    intro i' member isUsed'
    by_cases isI : i' = i
    · rw [isI, update_self]
      exact Option.some_ne_none j
    · rw [update_of_ne isI]
      exact placed.used i' ((mem_cons.mp member).resolve_left isI) isUsed'
  only := by
    intro i' j' isAt
    by_cases isI : i' = i
    · exact isI ▸ isUsed
    · rw [update_of_ne isI] at isAt
      exact placed.only i' j' isAt
  at' := by
    intro i' j' isAt
    by_cases isI : i' = i
    · rw [isI, update_self] at isAt
      cases isAt
      exact isI ▸ here
    · rw [update_of_ne isI] at isAt
      exact (placed.at' i' j' isAt).imp_right fun free => ⟨sub free.1, free.2⟩
  same := by
    intro i₁ i₂ j' isAt₁ isAt₂
    by_cases isI₁ : i₁ = i
    · rw [isI₁, update_self] at isAt₁
      cases isAt₁
      by_cases isI₂ : i₂ = i
      · rw [isI₁, isI₂]
      · rw [update_of_ne isI₂] at isAt₂
        rw [isI₁]
        exact alone i₂ isAt₂
    · rw [update_of_ne isI₁] at isAt₁
      by_cases isI₂ : i₂ = i
      · rw [isI₂, update_self] at isAt₂
        cases isAt₂
        rw [isI₂]
        exact (alone i₁ isAt₁).symm
      · rw [update_of_ne isI₂] at isAt₂
        exact placed.same i₁ i₂ j' isAt₁ isAt₂

/-- The search for places: no source that is used stands in a free place already. -/
theorem placeSrcs_spec {entry : LopEntry} {srcs : Fin 3 → Src} {srcIdx : Fin 3}
    (plain : ∀ j, (srcs j).isUnmodified)
    (apart : ∀ i j, entry.srcsUsed i = true → IsFree srcs srcIdx j →
      (entry.srcs i).reference ≠ (srcs j).reference) :
    ∀ is free, free.Nodup → ∃ r, placeSrcs entry srcs srcIdx is free = .ok r ∧
      ∀ entrySrcs, r = some entrySrcs → Placed entry srcs srcIdx is free entrySrcs := by
  intro is
  induction is with
  | nil =>
    intro free _
    refine ⟨_, rfl, ?_⟩
    intro entrySrcs isNone
    cases isNone
    constructor <;> simp
  | cons i rest ih =>
    intro free nodup
    rw [placeSrcs]
    by_cases unused : entry.srcsUsed i = false
    · rw [if_pos unused]
      rcases ih free nodup with ⟨r, returned, found⟩
      refine ⟨r, returned, ?_⟩
      intro entrySrcs isPlaces
      have placed := found entrySrcs isPlaces
      refine ⟨?_, placed.only, placed.at', placed.same⟩
      intro i' member isUsed
      rcases mem_cons.mp member with rfl | member
      · rw [unused] at isUsed
        cases isUsed
      · exact placed.used i' member isUsed
    · have isUsed : entry.srcsUsed i = true := by simpa using unused
      rw [if_neg unused]
      cases search : (finRange 3).find? fun j =>
          decide ((entry.srcs i).reference = (srcs j).reference) with
      | some j =>
        have isHere : (entry.srcs i).reference = (srcs j).reference := by
          simpa using find?_some search
        rcases ih free nodup with ⟨r, returned, found⟩
        simp only [returned, ok_bind]
        cases r with
        | none => exact ⟨none, rfl, fun entrySrcs never => by cases never⟩
        | some entrySrcs =>
          have placed := found entrySrcs rfl
          refine ⟨_, rfl, ?_⟩
          intro entrySrcs' isPlaces
          cases isPlaces
          refine placed.cons isUsed (Subset.refl free) (.inl isHere) ?_
          intro i' isAt
          rcases placed.at' i' j isAt with isHere' | ⟨_, isFree⟩
          · rw [isHere, isHere']
          · exact absurd isHere (apart i j isUsed isFree)
      | none =>
        rcases nextFree_spec plain srcIdx free with ⟨r, returned, next⟩
        simp only [returned, ok_bind]
        cases r with
        | none => exact ⟨none, rfl, fun entrySrcs never => by cases never⟩
        | some place =>
          rcases place with ⟨j, free'⟩
          rcases next j free' rfl with ⟨isFree, skipped, isSplit⟩
          have nodup' : (j :: free').Nodup := by
            rw [isSplit] at nodup
            exact (nodup_append.mp nodup).2.1
          rcases ih free' (nodup_cons.mp nodup').2 with ⟨r, returned', found⟩
          simp only [returned', ok_bind]
          cases r with
          | none => exact ⟨none, rfl, fun entrySrcs never => by cases never⟩
          | some entrySrcs =>
            have placed := found entrySrcs rfl
            refine ⟨_, rfl, ?_⟩
            intro entrySrcs' isPlaces
            cases isPlaces
            refine placed.cons isUsed ?_ (.inr ⟨by simp [isSplit], isFree⟩) ?_
            · rw [isSplit]
              exact fun k isIn => mem_append_right _ (mem_cons_of_mem j isIn)
            · intro i' isAt
              rcases placed.at' i' j isAt with isHere | ⟨again, _⟩
              · exact absurd isHere (apart i' j (placed.only i' j isAt) isFree)
              · exact absurd again (nodup_cons.mp nodup').1

namespace LopOps

variable {entry : LopEntry} {entrySrcs : Fin 3 → Option (Fin 3)}

/-- A place that no source of the entry is put into stays as it is. -/
theorem copySrcs_other {j : Fin 3} :
    ∀ {is : List (Fin 3)} (srcs : Fin 3 → Src), (∀ i ∈ is, entrySrcs i ≠ some j) →
      copySrcs entry entrySrcs is srcs j = srcs j := by
  intro is
  induction is with
  | nil => exact fun srcs _ => rfl
  | cons i rest ih =>
    intro srcs unplaced
    rw [copySrcs, ih _ fun i' member => unplaced i' (mem_cons_of_mem i member)]
    cases isAt : entrySrcs i with
    | none => rfl
    | some k =>
      have other : j ≠ k := fun isK => unplaced i mem_cons_self (by rw [isAt, isK])
      exact update_of_ne other _ _

/-- A place that a source of the entry is put into holds it. -/
theorem copySrcs_at (same : ∀ i i' j, entrySrcs i = some j → entrySrcs i' = some j →
    entry.srcs i = entry.srcs i') {j : Fin 3} :
    ∀ {is : List (Fin 3)} (srcs : Fin 3 → Src) (i : Fin 3), i ∈ is → entrySrcs i = some j →
      copySrcs entry entrySrcs is srcs j = entry.srcs i := by
  intro is
  induction is with
  | nil => exact fun srcs i never => by cases never
  | cons head rest ih =>
    intro srcs i member isAt
    rw [copySrcs]
    by_cases again : ∃ i' ∈ rest, entrySrcs i' = some j
    · rcases again with ⟨i', member', isAt'⟩
      rw [ih _ i' member' isAt', same i i' j isAt isAt']
    · rw [copySrcs_other _ fun i' member' isAt' => again ⟨i', member', isAt'⟩]
      have isHead : i = head :=
        (mem_cons.mp member).resolve_right fun later => again ⟨i, later, isAt⟩
      rw [← isHead]
      simp only [isAt]
      exact update_self _ _ _

end LopOps

/-- What a propagated source is replaced by is a constant. -/
theorem clearedSrc_ok {file : RegFile} (wide : 0 < file.lopBits) :
    ∃ r, clearedSrc file = .ok r ∧ (r = .zero ∨ r = .boolTrue) := by
  cases file with
  | gpr | ugpr => exact ⟨_, rfl, .inl rfl⟩
  | pred | upred => exact ⟨_, rfl, .inr rfl⟩
  | carry | bar | mem => cases wide

/-- The constants that stand for sources no table looks at. -/
theorem Src.Bitwise.filler (counts : SSAValue → Option Nat) (width : Nat) {r : SrcRef}
    (isConst : r = .zero ∨ r = .boolTrue) :
    Src.Bitwise counts width { reference := r } ∧ r.constBit ≠ none ∧ r.iterSsa = [] := by
  rcases isConst with rfl | rfl
  · exact ⟨⟨rfl, fun vec never => by cases never⟩, by decide, rfl⟩
  · exact ⟨⟨rfl, fun vec never => by cases never⟩, by decide, rfl⟩

section Substitute

variable {n : Nat} {pass : LopPass} {here : SSAValue → Prop} {rank : SSAValue → Nat} {width : Nat}
  {op : LopOps n} {x : SSAValue} {entry : LopEntry} {srcIdx : Fin 3}
  {entrySrcs : Fin 3 → Option (Fin 3)} {cleared : SrcRef}

/-- No source that an entry uses is a constant, or the name of the entry. -/
theorem LopPass.Closed.apart (closed : pass.Closed here rank) (found : pass.ssaLop x = some entry)
    (isSsa : (op.srcs srcIdx).reference = .ssa [x]) (i j : Fin 3)
    (isUsed : entry.srcsUsed i = true) (isFree : IsFree op.srcs srcIdx j) :
    (entry.srcs i).reference ≠ (op.srcs j).reference := by
  have formed := closed.formed x entry found
  intro same
  rcases isFree with rfl | isConst
  · refine Nat.lt_irrefl (rank x) (closed.less x entry found i x ?_)
    simp [Src.iterSsa, same, isSsa, SrcRef.iterSsa]
  · rw [formed.used] at isUsed
    exact isConst (same ▸ formed.varies i isUsed)

namespace LopOps

/-- Every source is a source of the entry, or what it was, or cleared. -/
theorem srcs_substitute (closed : pass.Closed here rank) (found : pass.ssaLop x = some entry)
    (placed : Placed entry op.srcs srcIdx (finRange 3) (finRange 3) entrySrcs)
    (cleared : SrcRef) (j : Fin 3) :
    (∃ i, entrySrcs i = some j ∧
      (op.substitute entry srcIdx entrySrcs cleared).srcs j = entry.srcs i) ∨
    ((∀ i, entrySrcs i ≠ some j) ∧ (op.substitute entry srcIdx entrySrcs cleared).srcs j =
      if j = srcIdx then { reference := cleared } else op.srcs j) := by
  have formed := closed.formed x entry found
  by_cases isPlaced : ∃ i, entrySrcs i = some j
  · rcases isPlaced with ⟨i, isAt⟩
    refine .inl ⟨i, isAt, copySrcs_at ?_ _ i (mem_finRange i) isAt⟩
    intro i₁ i₂ k isAt₁ isAt₂
    exact Src.eq_of_plain (formed.bitwise i₁).plain (formed.bitwise i₂).plain
      (placed.same i₁ i₂ k isAt₁ isAt₂)
  · refine .inr ⟨fun i isAt => isPlaced ⟨i, isAt⟩, ?_⟩
    refine (copySrcs_other _ fun i _ isAt => isPlaced ⟨i, isAt⟩).trans ?_
    exact Function.update_apply _ _ _ _

theorem Good.substitute (good : op.Good pass.useCounts here width) (closed : pass.Closed here rank)
    (found : pass.ssaLop x = some entry) (isHere : here x)
    (isSsa : (op.srcs srcIdx).reference = .ssa [x])
    (placed : Placed entry op.srcs srcIdx (finRange 3) (finRange 3) entrySrcs)
    (isCleared : cleared = .zero ∨ cleared = .boolTrue) :
    (op.substitute entry srcIdx entrySrcs cleared).Good pass.useCounts here width := by
  have formed := closed.formed x entry found
  have filler := Src.Bitwise.filler pass.useCounts width isCleared
  rcases (good.bitwise srcIdx).single [x] isSsa with ⟨y, isOne, wide, _⟩
  cases isOne
  constructor
  · intro j
    rcases srcs_substitute closed found placed cleared j with ⟨i, _, same⟩ | ⟨_, same⟩
    · rw [same]
      exact (formed.bitwise i).mono wide
    · rw [same]
      split
      · exact filler.1
      · exact good.bitwise j
  · intro j
    rcases srcs_substitute closed found placed cleared j with ⟨i, _, same⟩ | ⟨_, same⟩
    · rw [same]
      exact closed.names x entry found isHere i
    · rw [same]
      split
      · show ∀ z ∈ cleared.iterSsa, here z
        rw [filler.2.2]
        exact fun z never => by cases never
      · exact good.names j
  · intro j isConst k
    rcases srcs_substitute closed found placed cleared j with ⟨i, isAt, same⟩ | ⟨unplaced, same⟩
    · have isUsed := placed.only i j isAt
      rw [formed.used] at isUsed
      rw [same] at isConst
      exact absurd (formed.varies i isUsed) isConst
    · refine LogicOp3.ignores_compose unplaced ?_
      by_cases isSrc : j = srcIdx
      · exact .inl isSrc
      · rw [same, if_neg isSrc] at isConst
        exact .inr (good.settled j isConst k)

/-- The tables look the entry up at its own sources. -/
theorem sameBits_substitute (good : op.Good pass.useCounts here width) (closed : pass.Closed here rank)
    (found : pass.ssaLop x = some entry) (isHere : here x)
    (isSsa : (op.srcs srcIdx).reference = .ssa [x])
    (placed : Placed entry op.srcs srcIdx (finRange 3) (finRange 3) entrySrcs)
    (cleared : SrcRef) :
    SameBits pass here width op (op.substitute entry srcIdx entrySrcs cleared) := by
  intro E interp vals holds k bit inside
  let op' := op.substitute entry srcIdx entrySrcs cleared
  have formed := closed.formed x entry found
  rcases (good.bitwise srcIdx).single [x] isSsa with ⟨y, isOne, wide, _⟩
  cases isOne
  have inputs (i : Fin 3) : entry.op.Ignores i ∨
      LogicOp3.entryInputs false entrySrcs (srcBits interp vals op'.srcs bit) i =
        srcBits interp vals entry.srcs bit i := by
    cases isUsed : entry.op.srcUsed i with
    | false => exact .inl (LogicOp3.ignores_of_not_srcUsed isUsed)
    | true =>
      rw [← formed.used] at isUsed
      cases isAt : entrySrcs i with
      | none => exact absurd isAt (placed.used i (mem_finRange i) isUsed)
      | some j =>
        refine .inr ?_
        simp only [LogicOp3.entryInputs, isAt, srcBits]
        rcases srcs_substitute closed found placed cleared j with ⟨i', isAt', same⟩ | ⟨unplaced, _⟩
        · rw [same, placed.same i' i j isAt' isAt]
        · exact absurd isAt (unplaced i)
  have value : entry.op.result
      (LogicOp3.entryInputs false entrySrcs (srcBits interp vals op'.srcs bit)) =
        srcBits interp vals op.srcs bit srcIdx := by
    rw [LogicOp3.result_congr inputs, ← holds x entry found isHere bit (inside.trans_le wide),
      srcBits, isSsa]
    rfl
  show ((op.ops k).compose entry.op entrySrcs srcIdx).result (srcBits interp vals op'.srcs bit) = _
  rw [LogicOp3.result_compose, value]
  refine LogicOp3.result_congr ?_
  intro j
  by_cases isSrc : j = srcIdx
  · rw [isSrc]
    exact .inr (update_self _ _ _)
  · rw [update_of_ne isSrc]
    rcases srcs_substitute closed found placed cleared j with ⟨i, isAt, same⟩ | ⟨_, same⟩
    · rcases placed.at' i j isAt with isHere | ⟨_, isFree⟩
      · refine .inr ?_
        rw [srcBits, same, isHere]
        rfl
      · exact .inl (good.settled j (isFree.resolve_left isSrc) k)
    · rw [if_neg isSrc] at same
      refine .inr ?_
      rw [srcBits, same]
      rfl

/-- What stands in the place of the source lies less deep. -/
theorem depth_substitute (closed : pass.Closed here rank) (found : pass.ssaLop x = some entry)
    (isSsa : (op.srcs srcIdx).reference = .ssa [x])
    (placed : Placed entry op.srcs srcIdx (finRange 3) (finRange 3) entrySrcs)
    (isCleared : cleared = .zero ∨ cleared = .boolTrue) :
    pass.depth rank ((op.substitute entry srcIdx entrySrcs cleared).srcs srcIdx).reference <
      pass.depth rank (op.srcs srcIdx).reference := by
  have deep : pass.depth rank (op.srcs srcIdx).reference = rank x + 1 := by
    simp [isSsa, LopPass.depth, found]
  rw [deep]
  rcases srcs_substitute closed found placed cleared srcIdx with ⟨i, _, same⟩ | ⟨_, same⟩
  · rw [same]
    unfold LopPass.depth
    split
    · next z isName =>
      have less := closed.less x entry found i z (by simp [Src.iterSsa, isName, SrcRef.iterSsa])
      split <;> omega
    · exact Nat.succ_pos _
  · rw [same, if_pos rfl]
    rcases isCleared with rfl | rfl
    · exact Nat.succ_pos _
    · exact Nat.succ_pos _

end LopOps

/-- Looking through one source of a logic op. -/
theorem LopPass.tryPropToSrc_spec (closed : pass.Closed here rank) (good : op.Good pass.useCounts here width)
    (positive : 0 < width) (srcIdx : Fin 3) :
    ∃ r, pass.tryPropToSrc srcIdx op = .ok r ∧ ∀ op', r = some op' →
      op'.Good pass.useCounts here width ∧ LopOps.SameBits pass here width op op' ∧
      pass.depth rank (op'.srcs srcIdx).reference < pass.depth rank (op.srcs srcIdx).reference := by
  unfold tryPropToSrc
  rw [(good.bitwise srcIdx).plain, assertThat_true, ok_bind]
  cases isRef : (op.srcs srcIdx).reference with
  | zero | boolTrue | boolFalse | imm32 u | cbuf cb
  | reg r => exact ⟨none, rfl, fun op' never => by cases never⟩
  | ssa vec =>
    rcases (good.bitwise srcIdx).single vec isRef with ⟨x, rfl, wide, counted⟩
    have isHere : here x := good.names srcIdx x (by simp [Src.iterSsa, isRef, SrcRef.iterSsa])
    simp only [length_singleton, decide_true, assertThat_true, ok_bind, head?_cons,
      expect_some]
    cases found : pass.ssaLop x with
    | none => exact ⟨none, rfl, fun op' never => by cases never⟩
    | some entry =>
      rcases Option.isSome_iff_exists.mp counted with ⟨count, isCount⟩
      simp only [isCount, expect_some, ok_bind]
      by_cases giveUp : 1 < entry.numUsed ∧ 1 < count
      · rw [if_pos giveUp]
        exact ⟨none, rfl, fun op' never => by cases never⟩
      · rw [if_neg giveUp]
        rcases placeSrcs_spec (fun j => (good.bitwise j).plain) (closed.apart found isRef)
          (finRange 3) (finRange 3) (nodup_finRange 3) with ⟨r, returned, places⟩
        simp only [returned, ok_bind]
        cases r with
        | none => exact ⟨none, rfl, fun op' never => by cases never⟩
        | some entrySrcs =>
          have placed := places entrySrcs rfl
          rcases clearedSrc_ok (positive.trans_le wide) with ⟨cleared, isCleared, isConst⟩
          simp only [isCleared, ok_bind]
          refine ⟨_, rfl, ?_⟩
          intro op' isOp
          cases isOp
          rw [← isRef]
          exact ⟨good.substitute closed found isHere isRef placed isConst,
            LopOps.sameBits_substitute good closed found isHere isRef placed cleared,
            LopOps.depth_substitute closed found isRef placed isConst⟩

end Substitute

/-!
## Constants folded and sources propagated

The loops of `opt_lop3` and `opt_plop3` keep the bits that a logic op gives, and end.
-/

/-- Sharing the inputs of sources that are the same. -/
theorem dedupSrcs_ok {srcs : Fin 3 → Src} (plain : ∀ i, (srcs i).isUnmodified) (op : LogicOp3) :
    ∃ op', dedupSrcs op srcs = .ok op' ∧ ∀ v : Fin 3 → Bool,
      (∀ i j, (srcs i).reference = (srcs j).reference → v i = v j) → op'.result v = op.result v := by
  refine foldlM_ok (dedupSrc srcs) (fun _ op' => ∀ v : Fin 3 → Bool,
    (∀ i j, (srcs i).reference = (srcs j).reference → v i = v j) → op'.result v = op.result v)
    _ [] op (fun v _ => rfl) ?_
  intro _ pair op' _ same
  rw [dedupSrc]
  split
  · next isSame =>
    simp only [plain, assertThat_true, ok_bind]
    refine ⟨_, rfl, ?_⟩
    intro v agree
    rw [LogicOp3.result_shareSrc, agree _ _ isSame, update_eq_self]
    exact same v agree
  · exact ⟨op', rfl, same⟩

namespace LopOps

variable {n : Nat} {counts : SSAValue → Option Nat} {here : SSAValue → Prop} {width : Nat}

/-- What folding the constants has done to the sources in `done`. -/
structure Folded (counts : SSAValue → Option Nat) (here : SSAValue → Prop) (width : Nat)
    (op : LopOps n) (done : List (Fin 3)) (op' : LopOps n) : Prop where
  bitwise : ∀ i, (op'.srcs i).Bitwise counts width
  names : ∀ i, ∀ z ∈ (op'.srcs i).iterSsa, here z
  settled : ∀ i ∈ done, (op'.srcs i).reference.constBit ≠ none → ∀ k, (op'.ops k).Ignores i
  bits : ∀ {E : Type} (interp : AluInterp E) (vals : SSAValue → BitVec 32) (k : Fin n),
    ∀ bit < 32, (op'.ops k).result (srcBits interp vals op'.srcs bit) =
      (op.ops k).result (srcBits interp vals op.srcs bit)

/-- The tables after a source has been looked at, before it is replaced. -/
def fixedOps (op : LopOps n) (i : Fin 3) : Fin n → LogicOp3 :=
  op.fixSrc i (op.srcs i).reference.constBit

theorem foldSrc_eq {op : LopOps n} {i : Fin 3} (plain : (op.srcs i).isUnmodified) (filler : SrcRef) :
    op.foldSrc filler i = .ok (if ∀ k, (op.fixedOps i k).srcUsed i = false then
      { ops := op.fixedOps i, srcs := update op.srcs i { reference := filler } }
    else { op with ops := op.fixedOps i }) := by
  unfold foldSrc fixedOps
  rw [srcAsBool_eq plain, ok_bind]
  by_cases unused : ∀ k, (op.fixSrc i (op.srcs i).reference.constBit k).srcUsed i = false
  · rw [if_pos unused, if_pos unused]
    rfl
  · rw [if_neg unused, if_neg unused]
    rfl

theorem result_fixedOps (op : LopOps n) (i : Fin 3) (k : Fin n) {E : Type} (interp : AluInterp E)
    (vals : SSAValue → BitVec 32) {bit : Nat} (inside : bit < 32) :
    (op.fixedOps i k).result (srcBits interp vals op.srcs bit) =
      (op.ops k).result (srcBits interp vals op.srcs bit) := by
  unfold fixedOps
  cases isConst : (op.srcs i).reference.constBit with
  | none => rfl
  | some b =>
    have isBit : srcBits interp vals op.srcs bit i = b :=
      getLsbD_constBit interp vals isConst inside
    rw [fixSrc, LogicOp3.result_fixSrc, ← isBit, update_eq_self]

theorem ignores_fixedOps {op : LopOps n} {i j : Fin 3} {k : Fin n} (ignores : (op.ops k).Ignores j) :
    (op.fixedOps i k).Ignores j := by
  unfold fixedOps
  cases (op.srcs i).reference.constBit with
  | none => exact ignores
  | some b => exact ignores.fixSrc b

theorem ignores_fixedOps_self {op : LopOps n} {i : Fin 3}
    (isConst : (op.srcs i).reference.constBit ≠ none) (k : Fin n) : (op.fixedOps i k).Ignores i := by
  unfold fixedOps
  cases isBit : (op.srcs i).reference.constBit with
  | none => exact absurd isBit isConst
  | some b => exact LogicOp3.ignores_fixSrc _ i b

theorem Folded.step {op op' : LopOps n} {done : List (Fin 3)}
    (folded : Folded counts here width op done op') {filler : SrcRef}
    (isFiller : filler = .zero ∨ filler = .boolTrue) (i : Fin 3) :
    ∃ op'', op'.foldSrc filler i = .ok op'' ∧ Folded counts here width op (done ++ [i]) op'' := by
  rw [foldSrc_eq (folded.bitwise i).plain]
  refine ⟨_, rfl, ?_⟩
  have constant := Src.Bitwise.filler counts width isFiller
  by_cases unused : ∀ k, (op'.fixedOps i k).srcUsed i = false
  · rw [if_pos unused]
    let srcs := update op'.srcs i { reference := filler }
    have atI : srcs i = { reference := filler } := update_self _ _ _
    have other {j : Fin 3} (isI : j ≠ i) : srcs j = op'.srcs j := update_of_ne isI _ _
    refine ⟨?_, ?_, ?_, ?_⟩
    · intro j
      show (srcs j).Bitwise counts width
      by_cases isI : j = i
      · rw [isI, atI]
        exact constant.1
      · rw [other isI]
        exact folded.bitwise j
    · intro j
      show ∀ z ∈ (srcs j).iterSsa, here z
      by_cases isI : j = i
      · rw [isI, atI, Src.iterSsa, constant.2.2]
        exact fun z never => by cases never
      · rw [other isI]
        exact folded.names j
    · intro j member isConst k
      by_cases isI : j = i
      · rw [isI]
        exact LogicOp3.ignores_of_not_srcUsed (unused k)
      · have isConst : (srcs j).reference.constBit ≠ none := isConst
        rw [other isI] at isConst
        have before : j ∈ done := by simpa [isI] using member
        exact ignores_fixedOps (folded.settled j before isConst k)
    · intro E interp vals k bit inside
      rw [← folded.bits interp vals k bit inside, ← result_fixedOps op' i k interp vals inside]
      refine LogicOp3.result_congr ?_
      intro j
      by_cases isI : j = i
      · rw [isI]
        exact .inl (LogicOp3.ignores_of_not_srcUsed (unused k))
      · refine .inr ?_
        show (interp.word vals (srcs j).reference).getLsbD bit = _
        rw [other isI]
        rfl
  · rw [if_neg unused]
    refine ⟨folded.bitwise, folded.names, ?_, ?_⟩
    · intro j member isConst k
      by_cases isI : j = i
      · rw [isI] at isConst ⊢
        have isConst : (op'.srcs i).reference.constBit ≠ none := isConst
        exact ignores_fixedOps_self isConst k
      · have before : j ∈ done := by simpa [isI] using member
        exact ignores_fixedOps (folded.settled j before isConst k)
    · intro E interp vals k bit inside
      rw [← folded.bits interp vals k bit inside]
      exact result_fixedOps op' i k interp vals inside

end LopOps

/-- The operands of a logic op are kept when what they are is looked through. -/
theorem LopPass.propagate_ok {n : Nat} {pass : LopPass} {here : SSAValue → Prop}
    {rank : SSAValue → Nat} (closed : pass.Closed here rank) {width : Nat} (positive : 0 < width)
    (narrow : width ≤ 32) {op : LopOps n} (bitwise : ∀ i, (op.srcs i).Bitwise pass.useCounts width)
    (names : ∀ i, ∀ z ∈ (op.srcs i).iterSsa, here z) {filler : SrcRef}
    (isFiller : filler = .zero ∨ filler = .boolTrue) {fuel : Nat} (some : 0 < fuel)
    (enough : ∀ z, here z → rank z + 1 < fuel) :
    ∃ op', pass.propagate fuel filler op = .ok op' ∧ op'.Good pass.useCounts here width ∧
      LopOps.SameBits pass here width op op' := by
  rcases foldlM_ok (LopOps.foldSrc filler) (LopOps.Folded pass.useCounts here width op)
    (finRange 3) [] op
    ⟨bitwise, names, fun _ never => absurd never not_mem_nil, fun _ _ _ _ _ => rfl⟩
    fun _ i op' _ folded => folded.step isFiller i with ⟨op₁, first, folded⟩
  have good : op₁.Good pass.useCounts here width := by
    refine ⟨folded.bitwise, folded.names, ?_⟩
    exact fun i => folded.settled i (mem_append_right [] (mem_finRange i))
  have same : LopOps.SameBits pass here width op op₁ := by
    intro E interp vals _ k bit inside
    exact folded.bits interp vals k bit (inside.trans_le narrow)
  have shallow {op₂ : LopOps n} (good₂ : op₂.Good pass.useCounts here width) (i : Fin 3) :
      pass.depth rank (op₂.srcs i).reference < fuel := by
    unfold depth
    split
    · next x isName =>
      have isHere : here x := good₂.names i x (by simp [Src.iterSsa, isName, SrcRef.iterSsa])
      split
      · exact enough x isHere
      · exact some
    · exact some
  have loops := foldlM_ok (fun op i => loopWhileSome (pass.tryPropToSrc i) fuel op)
    (fun _ op' => op'.Good pass.useCounts here width ∧ LopOps.SameBits pass here width op op')
    (finRange 3) [] op₁ ⟨good, same⟩ ?_
  · rcases loops with ⟨op', second, isGood⟩
    refine ⟨op', ?_, isGood⟩
    rw [propagate, first, ok_bind]
    exact second
  · rintro _ i op₂ _ ⟨good₂, same₂⟩
    refine loopWhileSome_ok (fun op' => op'.Good pass.useCounts here width ∧
      LopOps.SameBits pass here width op op') (fun op' => pass.depth rank (op'.srcs i).reference)
      ?_ ⟨good₂, same₂⟩ (shallow good₂ i)
    rintro op₃ ⟨good₃, same₃⟩
    rcases pass.tryPropToSrc_spec closed good₃ positive i with ⟨r, returned, next⟩
    refine ⟨r, returned, ?_⟩
    intro op₄ isOp
    rcases next op₄ isOp with ⟨good₄, same₄, less⟩
    refine ⟨⟨good₄, ?_⟩, less⟩
    intro E interp vals holds k bit inside
    exact (same₄ interp vals holds k bit inside).trans (same₃ interp vals holds k bit inside)

/-- The entry that a logic op becomes. -/
def LopOps.entry {n : Nat} (op : LopOps n) (k : Fin n) : LopEntry :=
  { op := op.ops k, srcsUsed := (op.ops k).srcUsed, srcs := op.srcs }

namespace LopOps

variable {n : Nat} {counts : SSAValue → Option Nat} {here : SSAValue → Prop} {width : Nat}
  {op : LopOps n}

/-- No table uses a constant. -/
theorem Good.varies (good : op.Good counts here width) {k : Fin n} {i : Fin 3}
    (isUsed : (op.ops k).srcUsed i = true) : (op.srcs i).reference.constBit = none := by
  by_contra isConst
  rw [LogicOp3.not_srcUsed_of_ignores (good.settled i isConst k)] at isUsed
  cases isUsed

theorem Good.formed (good : op.Good counts here width) (k : Fin n) :
    (op.entry k).Formed counts width where
  used := rfl
  varies := fun _ isUsed => good.varies isUsed
  bitwise := good.bitwise

/-- The name of a logic op is given its entry. -/
theorem Good.addDst (good : op.Good counts here width) (pass : LopPass) (x : SSAValue)
    (k : Fin n) : pass.addDst (.ssa [x]) (op.ops k) op.srcs =
      .ok { pass with ssaLop := update pass.ssaLop x (some (op.entry k)) } := by
  have each (i : Fin 3) : (if (op.ops k).srcUsed i = true then do
      assertThat (← srcAsBool (op.srcs i)).isNone "src_as_bool(&srcs[i]).is_none()"
      else pure ()) = (pure () : Except Fault Unit) := by
    split
    · next isUsed =>
      rw [srcAsBool_eq (good.bitwise i).plain, good.varies isUsed]
      rfl
    · rfl
  simp only [LopPass.addDst, LopPass.addLop, length_singleton, decide_true, assertThat_true,
    ok_bind, head?_cons, expect_some]
  rw [funext each]
  rfl

end LopOps

end CoralReef
