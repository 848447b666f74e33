import CoralReef.Codegen.NagaTranslate.Emit
import CoralReef.Codegen.Ir.Proofs.Step

/-!
# What emitted code computes

The code of an expression writes values that it allocates, so what was computed before stays as it
is. `Emits` is the rule by which the code of the parts is put together.
-/

open List

open Function (update update_of_ne update_self)

namespace CoralReef

variable (unit : FloatUnit)

namespace NagaTranslate

/-- The number of the value allocated last. -/
def FuncTranslator.count (s : FuncTranslator) : Nat := s.ssaAlloc.count

/-- What the values hold after the code so far. -/
def FuncTranslator.env (s : FuncTranslator) (start : Env) : Env :=
  ValueOp.run unit s.sm start s.currentInstrs

/-- Code is added that writes new values and those of `writes`. -/
structure Extends (writes : List SSAValue) (s s' : FuncTranslator) : Prop where
  ctx : s'.ctx = s.ctx
  sm : s'.sm = s.sm
  deadCode : s'.deadCode = s.deadCode
  count : s.count ≤ s'.count
  frame : ∀ start x, x.idx ≤ s.count → x ∉ writes → s'.env unit start x = s.env unit start x

namespace Extends

variable {unit} {writes writes' : List SSAValue} {s s' s'' : FuncTranslator}

theorem refl (s : FuncTranslator) : Extends unit writes s s :=
  ⟨rfl, rfl, rfl, le_refl _, fun _ _ _ _ => rfl⟩

theorem trans (first : Extends unit writes s s') (second : Extends unit writes s' s'') :
    Extends unit writes s s'' where
  ctx := second.ctx.trans first.ctx
  sm := second.sm.trans first.sm
  deadCode := second.deadCode.trans first.deadCode
  count := first.count.trans second.count
  frame := fun start x old other =>
    (second.frame start x (old.trans first.count) other).trans (first.frame start x old other)

theorem mono (first : Extends unit writes s s') (sub : writes ⊆ writes') :
    Extends unit writes' s s' :=
  { first with frame := fun start x old other => first.frame start x old fun h => other (sub h) }

/-- Values that were allocated in between are new. -/
theorem absorb (first : Extends unit writes s s') (second : Extends unit writes' s' s'')
    (fresh : ∀ x ∈ writes', s.count < x.idx ∨ x ∈ writes) : Extends unit writes s s'' where
  ctx := second.ctx.trans first.ctx
  sm := second.sm.trans first.sm
  deadCode := second.deadCode.trans first.deadCode
  count := first.count.trans second.count
  frame := by
    intro start x old other
    rw [second.frame start x (old.trans first.count) ?_]
    · exact first.frame start x old other
    · intro member
      rcases fresh x member with new | member
      · exact absurd new (not_lt.mpr old)
      · exact other member

theorem live (extends' : Extends unit writes s s') (live : s.deadCode = false) :
    s'.deadCode = false := extends'.deadCode.trans live

/-- What is not written keeps its value. -/
theorem keeps (extends' : Extends unit [] s s') {x : SSAValue} (old : x.idx ≤ s.count)
    (start : Env) : s'.env unit start x = s.env unit start x :=
  extends'.frame start x old not_mem_nil

end Extends

/-- A sequence whose first part returns. -/
theorem run_bind {α β : Type} {p : EmitM α} {q : α → EmitM β} {s s' : FuncTranslator} {a : α}
    (ran : p s = .ok (a, s')) : (p >>= q) s = q a s' := by
  show (p s >>= fun r => q r.1 r.2) = _
  rw [ran, ok_bind]

/-- The translation returns, with code added that establishes `post`. -/
def Emits {α : Type} (p : EmitM α) (s : FuncTranslator) (writes : List SSAValue)
    (post : α → FuncTranslator → Prop) : Prop :=
  ∃ a s', p s = .ok (a, s') ∧ Extends unit writes s s' ∧ post a s'

namespace Emits

variable {unit} {α β : Type} {writes : List SSAValue} {s : FuncTranslator}
variable {post : β → FuncTranslator → Prop}

theorem pure {a : α} {post : α → FuncTranslator → Prop} (holds : post a s) :
    Emits unit (Pure.pure a : EmitM α) s writes post := ⟨a, s, rfl, .refl s, holds⟩

theorem bind {p : EmitM α} {q : α → EmitM β} {mid : α → FuncTranslator → Prop}
    (first : Emits unit p s writes mid)
    (second : ∀ a s', Extends unit writes s s' → mid a s' → Emits unit (q a) s' writes post) :
    Emits unit (p >>= q) s writes post := by
  rcases first with ⟨a, s', ran, extends₁, holds⟩
  rcases second a s' extends₁ holds with ⟨b, s'', ran', extends₂, holds'⟩
  exact ⟨b, s'', (run_bind ran).trans ran', extends₁.trans extends₂, holds'⟩

theorem mono {p : EmitM α} {writes' : List SSAValue} {post post' : α → FuncTranslator → Prop}
    (emits : Emits unit p s writes post) (sub : writes ⊆ writes')
    (implies : ∀ a s', Extends unit writes s s' → post a s' → post' a s') :
    Emits unit p s writes' post' := by
  rcases emits with ⟨a, s', ran, extends₁, holds⟩
  exact ⟨a, s', ran, extends₁.mono sub, implies a s' extends₁ holds⟩

theorem get_bind {q : FuncTranslator → EmitM β} (rest : Emits unit (q s) s writes post) :
    Emits unit (MonadState.get >>= q) s writes post := rest

theorem component_bind {vec : SSARef} {c : Nat} {x : SSAValue} {q : SSAValue → EmitM β}
    (isComp : vec[c]? = some x) (rest : Emits unit (q x) s writes post) :
    Emits unit (NagaTranslate.component vec c >>= q) s writes post := by
  have ran : NagaTranslate.component vec c s = .ok (x, s) := by
    rw [NagaTranslate.component, isComp]
    rfl
  rcases rest with ⟨b, s', ran', holds⟩
  exact ⟨b, s', (run_bind ran).trans ran', holds⟩

/-- A loop keeps what each of its iterations keeps. -/
theorem forComps {body : Nat → EmitM Unit} (inv : Nat → FuncTranslator → Prop) (holds : inv 0 s) :
    ∀ n, (∀ c s', c < n → Extends unit writes s s' → inv c s' →
        Emits unit (body c) s' writes fun _ s'' => inv (c + 1) s'') →
      Emits unit (NagaTranslate.forComps n body) s writes fun _ s' => inv n s' := by
  intro n
  induction n with
  | zero => exact fun _ => pure holds
  | succ n ih =>
    intro each
    refine bind (ih fun c s' less => each c s' (by omega)) ?_
    exact fun _ s' extends₁ before => each n s' (Nat.lt_succ_self n) extends₁ before

end Emits

section steps

variable {unit} {s : FuncTranslator} {writes : List SSAValue}
variable {file : RegFile}

/-- An allocation runs nothing. -/
theorem allocSsa_emits : Emits unit (allocSsa file) s writes fun dst s' =>
    dst = ⟨file, s.count + 1⟩ ∧ s'.count = s.count + 1 ∧
      ∀ start, s'.env unit start = s.env unit start :=
  ⟨_, _, rfl, ⟨rfl, rfl, rfl, Nat.le_succ _, fun _ _ _ _ => rfl⟩, rfl, rfl, fun _ => rfl⟩

/-- The component of a vector that is allocated after the value `count`. -/
def freshComp (file : RegFile) (count c : Nat) : SSAValue := ⟨file, count + 1 + c⟩

theorem allocSsaVec_emits {comps : Nat} (positive : 0 < comps) (small : comps ≤ 16) :
    Emits unit (allocSsaVec file comps) s writes fun dst s' =>
    dst = (range comps).map (freshComp file s.count) ∧ s'.count = s.count + comps ∧
      ∀ start, s'.env unit start = s.env unit start := by
  have ran : allocSsaVec file comps s = .ok ((range comps).map (freshComp file s.count),
      { s with ssaAlloc := ⟨s.count + comps⟩ }) := by
    unfold allocSsaVec
    rw [show decide (0 < comps ∧ comps ≤ 16) = true by simp [positive, small], assertThat_true,
      ok_bind]
    rfl
  exact ⟨_, _, ran, ⟨rfl, rfl, rfl, Nat.le_add_right _ _, fun _ _ _ _ => rfl⟩, rfl, rfl,
    fun _ => rfl⟩

/-- An op gives its destination a value. -/
theorem pushInstr_emits {op : ValueOp} {dst : SSAValue} (live : s.deadCode = false)
    (isDst : op.dst = .ofSsa dst) : Emits unit (pushInstr op) s [dst] fun _ s' =>
    s'.count = s.count ∧
      ∀ start, s'.env unit start =
        update (s.env unit start) dst (op.value unit s.sm (s.env unit start) dst 0) := by
  have effect (start : Env) :
      FuncTranslator.env unit { s with currentInstrs := s.currentInstrs ++ [op] } start =
        update (s.env unit start) dst (op.value unit s.sm (s.env unit start) dst 0) := by
    rw [FuncTranslator.env, ValueOp.run, foldl_append]
    exact ValueOp.exec_ofSsa unit _ isDst _
  refine ⟨(), _, pushInstr_run live _, ⟨rfl, rfl, rfl, le_refl _, ?_⟩, rfl, effect⟩
  intro start x _ other
  rw [effect, update_of_ne (by simpa using other)]

/-- Code that writes to a value which it allocates first. -/
theorem allocSsa_bind {β : Type} {q : SSAValue → EmitM β} {post : β → FuncTranslator → Prop}
    (rest : ∀ dst s', Extends unit writes s s' → dst.file = file → s.count < dst.idx →
      dst.idx ≤ s'.count → (∀ start, s'.env unit start = s.env unit start) →
        Emits unit (q dst) s' (dst :: writes) post) :
    Emits unit (allocSsa file >>= q) s writes post := by
  rcases (allocSsa_emits : Emits unit (allocSsa file) s writes _)
    with ⟨dst, s₁, ran₁, extends₁, rfl, counted, same⟩
  rcases rest ⟨file, s.count + 1⟩ s₁ extends₁ rfl (Nat.lt_succ_self _) counted.ge same
    with ⟨b, s₂, ran₂, extends₂, holds⟩
  refine ⟨b, s₂, (run_bind ran₁).trans ran₂, extends₁.absorb extends₂ ?_, holds⟩
  intro x member
  rcases mem_cons.mp member with rfl | member
  · exact .inl (Nat.lt_succ_self _)
  · exact .inr member

/-- Code that writes to a pair which it allocates first. -/
theorem allocPair_bind {β : Type} {q : SSARef → EmitM β} {post : β → FuncTranslator → Prop}
    (rest : ∀ lo hi s', Extends unit writes s s' → lo.file = file → hi.file = file →
      s.count < lo.idx → lo.idx < hi.idx → hi.idx ≤ s'.count →
      (∀ start, s'.env unit start = s.env unit start) →
        Emits unit (q [lo, hi]) s' (lo :: hi :: writes) post) :
    Emits unit (allocSsaVec file 2 >>= q) s writes post := by
  rcases (allocSsaVec_emits (by omega) (by omega) : Emits unit (allocSsaVec file 2) s writes _)
    with ⟨dst, s₁, ran₁, extends₁, rfl, counted, same⟩
  rcases rest ⟨file, s.count + 1⟩ ⟨file, s.count + 2⟩ s₁ extends₁ rfl rfl (Nat.lt_succ_self _)
    (Nat.lt_succ_self _) counted.ge same with ⟨b, s₂, ran₂, extends₂, holds⟩
  refine ⟨b, s₂, (run_bind ran₁).trans ran₂, extends₁.absorb extends₂ ?_, holds⟩
  intro x member
  rcases mem_cons.mp member with rfl | member
  · exact .inl (Nat.lt_succ_self _)
  rcases mem_cons.mp member with rfl | member
  · exact .inl (Nat.lt_add_of_pos_right (by omega))
  · exact .inr member

/-- An op that writes a pair of words. -/
theorem emitPair_emits {code : FloatCode} {srcs : List Src} (live : s.deadCode = false) :
    Emits unit (emitPair code srcs) s writes fun dst s' =>
      dst.length = 2 ∧ (∀ x ∈ dst, x.idx ≤ s'.count) ∧ ∀ start, dst.map (s'.env unit start) =
        [unit code (srcs.map (s.env unit start).floatSrc) 0,
          unit code (srcs.map (s.env unit start).floatSrc) 1] := by
  refine allocPair_bind ?_
  intro lo hi s₁ extends₁ _ _ new less old same
  have other : hi ≠ lo := fun equal => absurd (equal ▸ less) (Nat.lt_irrefl _)
  have effect (start : Env) :
      FuncTranslator.env unit
          { s₁ with currentInstrs := s₁.currentInstrs ++ [.float code (.ssa [lo, hi]) srcs] }
          start =
        update
          (update (s₁.env unit start) lo
            (unit code (srcs.map (s₁.env unit start).floatSrc) 0)) hi
          (unit code (srcs.map (s₁.env unit start).floatSrc) 1) := by
    rw [FuncTranslator.env, ValueOp.run, foldl_append]
    rfl
  have ran : (pushInstr (.float code (.ssa [lo, hi]) srcs) >>= fun _ => return [lo, hi]) s₁ =
      .ok ([lo, hi],
        { s₁ with currentInstrs := s₁.currentInstrs ++ [.float code (.ssa [lo, hi]) srcs] }) := by
    rw [run_bind (pushInstr_run (extends₁.live live) _)]
    rfl
  refine ⟨[lo, hi], _, ran, ⟨rfl, rfl, rfl, le_refl _, ?_⟩, rfl, ?_, ?_⟩
  · intro start x _ absent
    have absent : x ≠ lo ∧ x ≠ hi ∧ x ∉ writes := by simpa using absent
    rw [effect, update_of_ne absent.2.1, update_of_ne absent.1]
  · intro x member
    have member : x = lo ∨ x = hi := by simpa using member
    rcases member with rfl | rfl
    · exact (Nat.le_of_lt less).trans old
    · exact old
  · intro start
    rw [map_cons, map_cons, map_nil, effect, update_self,
      update_of_ne other.symm, update_self, same]

/-- An op on a new value. -/
theorem emitOp_emits {op : SSAValue → ValueOp} (live : s.deadCode = false)
    (isDst : ∀ dst, (op dst).dst = .ofSsa dst) :
    Emits unit (emitOp file op) s [] fun dst s' => dst.idx ≤ s'.count ∧ dst.file = file ∧
      ∀ start, s'.env unit start dst = (op dst).value unit s.sm (s.env unit start) dst 0 := by
  rcases (allocSsa_emits : Emits unit (allocSsa file) s [] _)
    with ⟨dst, s₁, ran₁, extends₁, rfl, counted, same⟩
  rcases (pushInstr_emits (extends₁.live live) (isDst ⟨file, s.count + 1⟩) : Emits unit _ _ _ _)
    with ⟨_, s₂, ran₂, extends₂, counted₂, effect⟩
  refine ⟨⟨file, s.count + 1⟩, s₂, ?_, extends₁.absorb extends₂ ?_, ?_, rfl, ?_⟩
  · unfold emitOp
    rw [run_bind ran₁, run_bind ran₂]
    rfl
  · intro x member
    rw [mem_singleton.mp member]
    exact .inl (Nat.lt_succ_self _)
  · show s.count + 1 ≤ s₂.count
    rw [counted₂, counted]
  · intro start
    rw [effect, update_self, extends₁.sm, same]

theorem emitBySm_emits {newer older : SSAValue → ValueOp} (live : s.deadCode = false)
    (isDst : ∀ dst, (newer dst).dst = .ofSsa dst) (isDst' : ∀ dst, (older dst).dst = .ofSsa dst) :
    Emits unit (emitBySm file newer older) s [] fun dst s' => dst.idx ≤ s'.count ∧
      dst.file = file ∧ ∀ start, s'.env unit start dst =
        (if 70 ≤ s.sm then newer dst else older dst).value unit s.sm (s.env unit start) dst 0 := by
  refine .get_bind ?_
  by_cases new : 70 ≤ s.sm
  · simp only [if_pos new]
    exact emitOp_emits live isDst
  · simp only [if_neg new]
    exact emitOp_emits live isDst'

end steps

variable {g : Option Value → Option Value → Option Value} {file : RegFile} {s : FuncTranslator}
  {body : SSARef → Nat → EmitM Unit}

/-! ## Code for two values -/

/-- The code computes `g` of two values, whatever was emitted before. -/
def Computes (f : SSAValue → SSAValue → EmitM SSAValue)
    (g : Option Value → Option Value → Option Value) : Prop :=
  ∀ (s : FuncTranslator) (a b : SSAValue), s.deadCode = false → a.idx ≤ s.count →
    b.idx ≤ s.count → Emits unit (f a b) s [] fun dst s' => dst.idx ≤ s'.count ∧
      ∀ start, s'.env unit start dst = g (s.env unit start a) (s.env unit start b)

variable {unit}

theorem computes_emitOp {op : SSAValue → SSAValue → SSAValue → ValueOp}
    (isDst : ∀ a b dst, (op a b dst).dst = .ofSsa dst)
    (isValue : ∀ sm env a b dst, (op a b dst).value unit sm env dst 0 = g (env a) (env b)) :
    Computes unit (fun a b => emitOp file (op a b)) g := by
  intro s a b live _ _
  refine (emitOp_emits live (isDst a b)).mono (Subset.refl _) ?_
  intro dst s' _ holds
  refine ⟨holds.1, fun start => ?_⟩
  rw [holds.2.2, isValue]

theorem computes_emitBySm {newer older : SSAValue → SSAValue → SSAValue → ValueOp}
    (isDst : ∀ a b dst, (newer a b dst).dst = .ofSsa dst)
    (isDst' : ∀ a b dst, (older a b dst).dst = .ofSsa dst) (isValue : ∀ sm env a b dst, 70 ≤ sm →
      (newer a b dst).value unit sm env dst 0 = g (env a) (env b))
    (isValue' : ∀ sm env a b dst, ¬ 70 ≤ sm →
      (older a b dst).value unit sm env dst 0 = g (env a) (env b)) :
    Computes unit (fun a b => emitBySm file (newer a b) (older a b)) g := by
  intro s a b live _ _
  refine (emitBySm_emits live (isDst a b) (isDst' a b)).mono (Subset.refl _) ?_
  intro dst s' _ holds
  refine ⟨holds.1, fun start => ?_⟩
  rw [holds.2.2]
  split
  · exact isValue _ _ _ _ _ ‹_›
  · exact isValue' _ _ _ _ _ ‹_›

/-- The operand that a loop over components takes. -/
def broadcast (vec : List (Option Value)) (c : Nat) : Option Value :=
  (vec[if c < vec.length then c else 0]?).join

/-- What a value becomes in a general register. -/
def toGpr : Option Value → Option Value
  | some (.pred b) => some (.word (if b then 1 else 0))
  | value => value

theorem copyOp_value (sm : Nat) (env : Env) (dst x : SSAValue) (isGpr : dst.file = .gpr) :
    (copyOp dst (.ofSsa x)).value unit sm env dst 0 = toGpr (env x) := by
  show OpCopy.fold { dst := .ofSsa dst, src := .ofSsa x } dst.file env = _
  have read : env.srcValue (.ofSsa x) = env x := rfl
  unfold OpCopy.fold
  rw [isGpr, read]
  rcases env x with _ | value
  · rfl
  · cases value with
    | pred b => cases b <;> rfl
    | word x => rfl
    | float q => rfl

theorem componentOrFirst_bind {writes : List SSAValue} {vec : SSARef} {β : Type}
    {q : SSAValue → EmitM β} {post : β → FuncTranslator → Prop} (nonempty : vec ≠ []) (c : Nat)
    (allocated : ∀ x ∈ vec, x.idx ≤ s.count)
    (rest : ∀ x, x.idx ≤ s.count → (∀ env : Env, env x = broadcast (vec.map env) c) →
      Emits unit (q x) s writes post) :
    Emits unit (componentOrFirst vec c >>= q) s writes post := by
  have inside : (if c < vec.length then c else 0) < vec.length := by
    split
    · assumption
    · exact length_pos_iff.mpr nonempty
  refine .component_bind (getElem?_eq_getElem inside) (rest _ ?_ ?_)
  · exact allocated _ (getElem_mem _)
  · intro env
    simp [broadcast, getElem?_eq_getElem inside]

/-- A loop that fills a new vector: the iteration `c` writes the components `j` with `p j = c`. -/
theorem fillParts_emits {comps parts : Nat} (positive : 0 < comps) (small : comps ≤ 16)
    {p : Nat → Nat} (inside : ∀ j < comps, p j < parts) {g : Nat → Env → Option Value}
    {o : Nat → List SSAValue}
    (owned : ∀ c, ∀ x ∈ o c, ∃ j < comps, p j = c ∧ x = freshComp file s.count j)
    (each : ∀ c s', c < parts → Extends unit [] s s' → s.count + comps ≤ s'.count →
      Emits unit (body ((range comps).map (freshComp file s.count)) c) s' (o c)
        fun _ s'' => ∀ j < comps, p j = c →
          ∀ start, s''.env unit start (freshComp file s.count j) = g j start) :
    Emits unit (do
        let dst ← allocSsaVec file comps
        forComps parts (body dst)
        return dst) s [] fun dst s' =>
      (∀ x ∈ dst, x.idx ≤ s'.count) ∧
        ∀ start, dst.map (s'.env unit start) = (range comps).map fun c => g c start := by
  rcases (allocSsaVec_emits positive small : Emits unit (allocSsaVec file comps) s [] _)
    with ⟨dst, s₁, ran₁, extends₁, rfl, counted, same⟩
  have fresh (x : SSAValue) (member : x ∈ (range comps).map (freshComp file s.count)) :
      s.count < x.idx ∧ x.idx ≤ s₁.count := by
    rcases mem_map.mp member with ⟨c, inside, rfl⟩
    have := mem_range.mp inside
    simp only [freshComp]
    omega
  have loop : Emits unit
      (forComps parts (body ((range comps).map (freshComp file s.count)))) s₁
      ((range comps).map (freshComp file s.count)) _ := Emits.forComps
    (fun n s' => ∀ j < comps, p j < n →
      ∀ start, s'.env unit start (freshComp file s.count j) = g j start)
    (fun _ _ never => absurd never (Nat.not_lt_zero _)) parts ?each
  case each =>
    intro c s' less extends₂ before
    have emits := each c s' less
      (extends₁.absorb extends₂ fun x member => .inl (fresh x member).1) (counted ▸ extends₂.count)
    refine emits.mono ?_ ?_
    · intro x member
      rcases owned c x member with ⟨j, less, -, rfl⟩
      exact mem_map_of_mem (mem_range.mpr less)
    · intro _ s'' extends₃ here j less' within start
      rcases Nat.lt_succ_iff_lt_or_eq.mp within with earlier | now
      · rw [extends₃.frame start _ ?_ ?_, before j less' earlier]
        · have := extends₂.count
          simp only [freshComp]
          omega
        · intro member
          rcases owned c _ member with ⟨j', _, isPart, same⟩
          have : j = j' := by
            simp only [freshComp, SSAValue.mk.injEq, true_and] at same
            omega
          subst this
          omega
      · exact here j less' now start
  rcases loop with ⟨_, s₂, ran₂, extends₂, holds⟩
  have ran : (do
      let dst ← allocSsaVec file comps
      forComps parts (body dst)
      return dst) s = .ok ((range comps).map (freshComp file s.count), s₂) := by
    rw [run_bind ran₁, run_bind ran₂]
    rfl
  refine ⟨_, s₂, ran, extends₁.absorb extends₂ fun x member => .inl (fresh x member).1, ?_, ?_⟩
  · exact fun x member => (fresh x member).2.trans extends₂.count
  · intro start
    rw [map_map]
    refine map_congr_left fun j member => ?_
    have less := mem_range.mp member
    exact holds j less (inside j less) start

/-- A loop that fills a new vector: the iteration `c` writes the component `c`. -/
theorem fillVec_emits {comps : Nat} (positive : 0 < comps) (small : comps ≤ 16)
    {g : Nat → Env → Option Value}
    (each : ∀ c s', c < comps → Extends unit [] s s' → s.count + comps ≤ s'.count →
      Emits unit (body ((range comps).map (freshComp file s.count)) c) s'
        [freshComp file s.count c]
        fun _ s'' => ∀ start, s''.env unit start (freshComp file s.count c) = g c start) :
    Emits unit (do
        let dst ← allocSsaVec file comps
        forComps comps (body dst)
        return dst) s [] fun dst s' =>
      (∀ x ∈ dst, x.idx ≤ s'.count) ∧
        ∀ start, dst.map (s'.env unit start) = (range comps).map fun c => g c start := by
  refine fillParts_emits (p := id)
    (o := fun c => if c < comps then [freshComp file s.count c] else []) positive small
    (fun _ less => less) ?_ ?_
  · intro c x member
    split at member
    · exact ⟨c, ‹_›, rfl, mem_singleton.mp member⟩
    · cases member
  · intro c s' less extends₁ counted
    rw [if_pos less]
    refine (each c s' less extends₁ counted).mono (Subset.refl _) ?_
    rintro _ s'' - holds j _ rfl
    exact holds

/-- A loop that fills a new vector: the iteration `e` writes the components of a pair. -/
theorem fillPairs_emits {comps : Nat} (pairs : Nat) (positive : 0 < pairs)
    (isComps : comps = pairs * 2) (small : comps ≤ 16) {g : Nat → Env → Option Value}
    (each : ∀ e s', e < pairs → Extends unit [] s s' → s.count + comps ≤ s'.count →
      Emits unit (body ((range comps).map (freshComp file s.count)) e) s'
        [freshComp file s.count (e * 2), freshComp file s.count (e * 2 + 1)]
        fun _ s'' => ∀ start,
          s''.env unit start (freshComp file s.count (e * 2)) = g (e * 2) start ∧
            s''.env unit start (freshComp file s.count (e * 2 + 1)) = g (e * 2 + 1) start) :
    Emits unit (do
        let dst ← allocSsaVec file comps
        forComps pairs (body dst)
        return dst) s [] fun dst s' =>
      (∀ x ∈ dst, x.idx ≤ s'.count) ∧
        ∀ start, dst.map (s'.env unit start) = (range comps).map fun c => g c start := by
  refine fillParts_emits (p := (· / 2)) (o := fun e =>
    if e < pairs then [freshComp file s.count (e * 2), freshComp file s.count (e * 2 + 1)] else [])
    (by omega) small (fun j less => by omega) ?_ ?_
  · intro e x member
    split at member
    · rcases mem_pair.mp member with rfl | rfl
      · exact ⟨e * 2, by omega, by omega, rfl⟩
      · exact ⟨e * 2 + 1, by omega, by omega, rfl⟩
    · cases member
  · intro e s' less extends₁ counted
    rw [if_pos less]
    refine (each e s' less extends₁ counted).mono (Subset.refl _) ?_
    rintro _ s'' - holds j less' isPart start
    rcases (show j = e * 2 ∨ j = e * 2 + 1 by omega) with rfl | rfl
    · exact (holds start).1
    · exact (holds start).2

/-- A component of a vector that has just been allocated. -/
theorem freshComp_get {count comps c : Nat} (less : c < comps) :
    ((range comps).map (freshComp file count))[c]? = some (freshComp file count c) := by
  simp [getElem?_range less]

/-- Values that were computed before have kept their values. -/
theorem Extends.map_env {s s' : FuncTranslator} (extends' : Extends unit [] s s') {vec : SSARef}
    (allocated : ∀ x ∈ vec, x.idx ≤ s.count) (start : Env) :
    vec.map (s'.env unit start) = vec.map (s.env unit start) :=
  map_congr_left fun x member => extends'.keeps (allocated x member) start

/-- The result of a loop over components has the value of each component. -/
theorem emitComponentwise_emits {f : SSAValue → SSAValue → EmitM SSAValue}
    (computes : Computes unit f g) (live : s.deadCode = false) {comps : Nat} (positive : 0 < comps)
    (small : comps ≤ 16) {l r : SSARef} (nonempty : l ≠ []) (nonempty' : r ≠ [])
    (allocated : ∀ x ∈ l, x.idx ≤ s.count) (allocated' : ∀ x ∈ r, x.idx ≤ s.count) :
    Emits unit (emitComponentwise comps l r f) s [] fun dst s' =>
      (∀ x ∈ dst, x.idx ≤ s'.count) ∧ ∀ start, dst.map (s'.env unit start) =
        (range comps).map fun c => toGpr
          (g (broadcast (l.map (s.env unit start)) c)
            (broadcast (r.map (s.env unit start)) c)) := by
  refine fillVec_emits positive small ?_
  intro c s' less extends₁ counted
  have live' := extends₁.live live
  refine componentOrFirst_bind nonempty c (fun x member =>
    (allocated x member).trans extends₁.count) ?_
  intro lc oldL valueL
  refine componentOrFirst_bind nonempty' c (fun x member =>
    (allocated' x member).trans extends₁.count) ?_
  intro rc oldR valueR
  refine ((computes _ lc rc live' oldL oldR).mono (nil_subset _) fun _ _ _ h => h).bind ?_
  rintro result s₂ extends₂ ⟨-, isResult⟩
  refine .component_bind (freshComp_get less) ?_
  refine (pushInstr_emits (extends₂.live live') rfl).mono (Subset.refl _) ?_
  rintro _ s₃ - ⟨-, effect⟩ start
  rw [effect, update_self, copyOp_value _ _ _ _ rfl, isResult,
    valueL (s'.env unit start), valueR (s'.env unit start), extends₁.map_env allocated,
    extends₁.map_env allocated']

end NagaTranslate

end CoralReef
