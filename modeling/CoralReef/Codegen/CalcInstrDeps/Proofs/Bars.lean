import CoralReef.Codegen.CalcInstrDeps.Proofs.Visits

/-!
# Barriers for the dependencies

What one instruction does to the barriers: which of them it waits on, and which ones it signals.
-/

open List
open Function (update_of_ne update_self)

namespace CoralReef

namespace InstrDeps

/-- The instruction signals the barrier. -/
def Sets (deps : InstrDeps) (bar : Nat) : Prop := deps.rdBar = some bar ∨ deps.wrBar = some bar

theorem addWtBarMask_eq {deps deps' : InstrDeps} {mask : Nat}
    (added : deps.addWtBarMask mask = .ok deps') :
    deps' = { deps with wtBarMask := deps.wtBarMask ||| mask } := by
  rcases bind_eq_ok.mp added with ⟨_, _, returned⟩
  cases returned
  rfl

theorem setRdBar_eq {deps deps' : InstrDeps} {bar : Nat} (set : deps.setRdBar bar = .ok deps') :
    deps' = { deps with rdBar := some bar } := by
  rcases bind_eq_ok.mp set with ⟨_, _, returned⟩
  cases returned
  rfl

theorem setWrBar_eq {deps deps' : InstrDeps} {bar : Nat} (set : deps.setWrBar bar = .ok deps') :
    deps' = { deps with wrBar := some bar } := by
  rcases bind_eq_ok.mp set with ⟨_, _, returned⟩
  cases returned
  rfl

theorem testBit_or_one (mask : Nat) (bar b : Fin 6) :
    (mask ||| 1 <<< bar.val).testBit b.val = true ↔ mask.testBit b.val = true ∨ b = bar := by
  rw [Nat.testBit_or, Bool.or_eq_true, Nat.one_shiftLeft, Nat.testBit_two_pow, decide_eq_true_eq,
    Fin.ext_iff]
  exact or_congr_right eq_comm

end InstrDeps

namespace AssignBarriers

open CoralReef.AssignBarriers.DepGraph

namespace BarAlloc

/-- No dependency has two barriers. -/
def Injective (bars : BarAlloc) : Prop :=
  ∀ bar bar' dep, bars bar = some dep → bars bar' = some dep → bar = bar'

theorem Injective.freeBar {bars : BarAlloc} (injective : bars.Injective) (bar : Fin 6) :
    (bars.freeBar bar).Injective := by
  intro b b' dep held held'
  unfold BarAlloc.freeBar at held held'
  by_cases same : b = bar
  · subst same
    rw [update_self] at held
    cases held
  · by_cases same' : b' = bar
    · subst same'
      rw [update_self] at held'
      cases held'
    · rw [update_of_ne same] at held
      rw [update_of_ne same'] at held'
      exact injective b b' dep held held'

theorem Injective.setBarDep {bars : BarAlloc} (injective : bars.Injective) (bar : Fin 6) {dep : Nat}
    (new : ∀ b, bars b ≠ some dep) : (bars.setBarDep bar dep).Injective := by
  intro b b' d held held'
  unfold BarAlloc.setBarDep at held held'
  by_cases same : b = bar
  · subst same
    rw [update_self] at held
    cases held
    by_cases same' : b' = b
    · exact same'.symm
    · rw [update_of_ne same'] at held'
      exact absurd held' (new b')
  · rw [update_of_ne same] at held
    by_cases same' : b' = bar
    · subst same'
      rw [update_self] at held'
      cases held'
      exact absurd held (new b)
    · rw [update_of_ne same'] at held'
      exact injective b b' d held held'

/-- When no barrier is free, the oldest one has the smallest dependency. -/
theorem oldestBar_le {bars : BarAlloc} (full : ∀ bar, bars bar ≠ none) {dep : Nat}
    (isOldest : bars bars.oldestBar = some dep) {bar : Fin 6} {dep' : Nat}
    (held : bars bar = some dep') : dep ≤ dep' := by
  have fold : ∀ (list : List (Fin 6)) (start : Fin 6) (b : Fin 6), b = start ∨ b ∈ list →
      ∀ d d', bars (list.foldl (fun bar b => if bars.older b bar then b else bar) start) = some d →
        bars b = some d' → d ≤ d' := by
    intro list
    induction list with
    | nil =>
        intro start b member d d' isMin held
        rcases member with rfl | never
        · rw [foldl_nil, held] at isMin
          cases isMin
          exact Nat.le_refl _
        · cases never
    | cons head list hind =>
        intro start b member d d' isMin held
        rcases Option.ne_none_iff_exists'.mp (full start) with ⟨s, isStart⟩
        rcases Option.ne_none_iff_exists'.mp (full head) with ⟨h, isHead⟩
        rw [foldl_cons] at isMin
        have order : bars.older head start = decide (h < s) := by
          unfold older
          rw [isHead, isStart]
        by_cases less : h < s
        · rw [order, decide_eq_true less, if_pos rfl] at isMin
          have atHead := hind head head (.inl rfl) d h isMin isHead
          rcases member with rfl | member
          · rw [isStart] at held
            cases held
            omega
          · rcases mem_cons.mp member with rfl | member
            · rw [isHead] at held
              cases held
              exact atHead
            · exact hind head b (.inr member) d d' isMin held
        · rw [order, decide_eq_false less, if_neg Bool.false_ne_true] at isMin
          have atStart := hind start start (.inl rfl) d s isMin isStart
          rcases member with rfl | member
          · rw [isStart] at held
            cases held
            exact atStart
          · rcases mem_cons.mp member with rfl | member
            · rw [isHead] at held
              cases held
              omega
            · exact hind start b (.inr member) d d' isMin held
  have all : ∀ b : Fin 6, b = 0 ∨ b ∈ ([1, 2, 3, 4, 5] : List (Fin 6)) := by decide
  exact fold [1, 2, 3, 4, 5] 0 bar (all bar) dep dep' isOldest held

theorem getBarForDep_spec (bars : BarAlloc) (dep : Nat) :
    (∃ bar, bars.getBarForDep dep = some bar ∧ bars bar = some dep) ∨
      bars.getBarForDep dep = none ∧ ∀ bar, bars bar ≠ some dep := by
  cases found : bars.getBarForDep dep with
  | some bar =>
      have held := List.find?_some found
      exact .inl ⟨bar, rfl, of_decide_eq_true held⟩
  | none =>
      refine .inr ⟨rfl, ?_⟩
      intro bar held
      have none := List.find?_eq_none.mp found bar (mem_finRange bar)
      exact none (decide_eq_true held)

end BarAlloc

/-- Waiting frees the barriers of the dependencies. -/
theorem waitBars_spec : ∀ (waits : List Nat) (bars : BarAlloc) (mask : Nat), bars.Injective →
    (∀ bar : Fin 6, (waitBars waits bars mask).1.testBit bar.val = true ↔
      mask.testBit bar.val = true ∨ ∃ dep ∈ waits, bars bar = some dep) ∧
    (∀ bar dep, (waitBars waits bars mask).2 bar = some dep ↔
      bars bar = some dep ∧ dep ∉ waits) ∧
    (waitBars waits bars mask).2.Injective := by
  intro waits
  induction waits with
  | nil =>
      intro bars mask injective
      simp [waitBars, injective]
  | cons dep waits hind =>
      intro bars mask injective
      rw [waitBars]
      rcases BarAlloc.getBarForDep_spec bars dep with ⟨bar, found, held⟩ | ⟨found, free⟩
      · rw [found]
        rcases hind (bars.freeBar bar) (mask ||| 1 <<< bar.val) (injective.freeBar bar) with
          ⟨masked, kept, injective'⟩
        refine ⟨?_, ?_, injective'⟩
        · intro b
          refine (masked b).trans ?_
          rw [InstrDeps.testBit_or_one, or_assoc]
          apply or_congr_right
          by_cases same : b = bar
          · subst same
            exact ⟨fun _ => ⟨dep, mem_cons_self, held⟩, fun _ => .inl rfl⟩
          · rw [BarAlloc.freeBar, update_of_ne same]
            constructor
            · rintro (equal | ⟨d, member, isHeld⟩)
              · exact absurd equal same
              · exact ⟨d, mem_cons_of_mem _ member, isHeld⟩
            · rintro ⟨d, member, isHeld⟩
              rcases mem_cons.mp member with rfl | member
              · exact absurd (injective b bar d isHeld held) same
              · exact .inr ⟨d, member, isHeld⟩
        · intro b d
          refine (kept b d).trans ?_
          rw [mem_cons, not_or]
          by_cases same : b = bar
          · subst same
            rw [BarAlloc.freeBar, update_self, held]
            constructor
            · rintro ⟨never, _⟩
              cases never
            · rintro ⟨equal, other, _⟩
              cases equal
              exact absurd rfl other
          · rw [BarAlloc.freeBar, update_of_ne same]
            constructor
            · rintro ⟨isHeld, later⟩
              refine ⟨isHeld, ?_, later⟩
              rintro rfl
              exact same (injective b bar d isHeld held)
            · rintro ⟨isHeld, _, later⟩
              exact ⟨isHeld, later⟩
      · rw [found]
        rcases hind bars mask injective with ⟨masked, kept, injective'⟩
        refine ⟨?_, ?_, injective'⟩
        · intro b
          refine (masked b).trans (or_congr_right ?_)
          constructor
          · rintro ⟨d, member, isHeld⟩
            exact ⟨d, mem_cons_of_mem _ member, isHeld⟩
          · rintro ⟨d, member, isHeld⟩
            rcases mem_cons.mp member with rfl | member
            · exact absurd isHeld (free b)
            · exact ⟨d, member, isHeld⟩
        · intro b d
          refine (kept b d).trans ?_
          rw [mem_cons, not_or]
          constructor
          · rintro ⟨isHeld, later⟩
            refine ⟨isHeld, ?_, later⟩
            rintro rfl
            exact free b isHeld
          · rintro ⟨isHeld, _, later⟩
            exact ⟨isHeld, later⟩

/-- A barrier that is not free is waited on when it is taken, and then it is the oldest. -/
theorem takeBar_spec {bars bars' : BarAlloc} {deps deps' : InstrDeps} {bar : Fin 6}
    (taken : takeBar bars deps = .ok (bar, bars', deps')) :
    bars' = bars ∧ bars bar = none ∧ deps' = deps ∨
    bars' = bars.freeBar bar ∧ (∃ dep, bars bar = some dep ∧
        ∀ b, ∃ dep', bars b = some dep' ∧ dep ≤ dep') ∧
      deps' = { deps with wtBarMask := deps.wtBarMask ||| 1 <<< bar.val } := by
  rw [takeBar] at taken
  cases found : bars.tryFindFreeBar with
  | some free =>
      rw [found] at taken
      cases taken
      have isFree := List.find?_some found
      rw [Option.isNone_iff_eq_none] at isFree
      exact .inl ⟨rfl, isFree, rfl⟩
  | none =>
      rw [found] at taken
      rcases bind_eq_ok.mp taken with ⟨waiting, added, returned⟩
      cases returned
      have full : ∀ b, bars b ≠ none := by
        intro b free
        exact List.find?_eq_none.mp found b (mem_finRange b) (by rw [free]; rfl)
      rcases Option.ne_none_iff_exists'.mp (full bars.oldestBar) with ⟨dep, isOldest⟩
      refine .inr ⟨rfl, ⟨dep, isOldest, ?_⟩, InstrDeps.addWtBarMask_eq added⟩
      intro b
      rcases Option.ne_none_iff_exists'.mp (full b) with ⟨dep', held⟩
      exact ⟨dep', held, BarAlloc.oldestBar_le full isOldest held⟩

/-- What the barriers are after the waits of an instruction, and while it takes its own: against
those before the instruction. -/
structure Taking (graph : DepGraph) (p : Point) (bars : BarAlloc) (state : BarAlloc × InstrDeps) :
    Prop where
  waits : ∀ bar dep, bars bar = some dep → dep ∈ graph.instrWaits p → state.2.WaitsOn bar.val
  kept : ∀ bar dep, bars bar = some dep →
    state.2.WaitsOn bar.val ∨ state.1 bar = some dep ∧ ¬state.2.Sets bar.val
  held : ∀ bar dep, state.1 bar = some dep →
    bars bar = some dep ∧ dep ∉ graph.instrWaits p ∨
      graph.Owns p dep ∧ graph.depIsWaitedAfter dep p = true
  injective : state.1.Injective

/-- The barrier of a dependency that is waited on later. -/
def Takes (graph : DepGraph) (p : Point) (dep : Nat) (bars : BarAlloc) (set : Option Nat) : Prop :=
  graph.depIsWaitedAfter dep p = true →
    ∃ bar : Fin 6, set = some bar.val ∧ bars bar = some dep

section

variable {graph : DepGraph} {p : Point} {bars : BarAlloc}

theorem taking_waitBars (injective : bars.Injective) {deps : InstrDeps}
    (mask : deps.wtBarMask = (waitBars (graph.instrWaits p) bars 0).1)
    (unset : ∀ bar, ¬deps.Sets bar) :
    Taking graph p bars ((waitBars (graph.instrWaits p) bars 0).2, deps) := by
  rcases waitBars_spec (graph.instrWaits p) bars 0 injective with ⟨masked, kept, injective'⟩
  have waits : ∀ bar dep, bars bar = some dep → dep ∈ graph.instrWaits p →
      deps.WaitsOn bar.val := by
    intro bar dep held member
    rw [InstrDeps.WaitsOn, mask]
    exact (masked bar).mpr (.inr ⟨dep, member, held⟩)
  constructor
  · exact waits
  · intro bar dep held
    by_cases member : dep ∈ graph.instrWaits p
    · exact .inl (waits bar dep held member)
    · exact .inr ⟨(kept bar dep).mpr ⟨held, member⟩, unset bar.val⟩
  · intro bar dep held
    exact .inl ((kept bar dep).mp held)
  · exact injective'

/-- A barrier is taken, and signalled with `setBar`. -/
theorem Taking.assignBar {state state' : BarAlloc × InstrDeps} {dep : Nat}
    {setBar : InstrDeps → Nat → Except Fault InstrDeps} (taking : Taking graph p bars state)
    (owns : graph.Owns p dep) (new : ∀ b, state.1 b ≠ some dep)
    (sets : ∀ {deps deps' : InstrDeps} {bar : Nat}, setBar deps bar = .ok deps' →
      deps'.wtBarMask = deps.wtBarMask ∧ ∀ b, deps'.Sets b → deps.Sets b ∨ b = bar)
    (assigned : assignBar graph p dep setBar state = .ok state') :
    Taking graph p bars state' ∧
      (graph.depIsWaitedAfter dep p = false → state' = state) ∧
      (graph.depIsWaitedAfter dep p = true → ∃ (bar : Fin 6) (deps : InstrDeps),
        setBar deps bar.val = .ok state'.2 ∧ deps.rdBar = state.2.rdBar ∧
        state'.1 = state.1.setBarDep bar dep ∧
        ∀ d, state.1 bar = some d → ∀ b, ∃ d', state.1 b = some d' ∧ d ≤ d') := by
  rw [AssignBarriers.assignBar] at assigned
  cases after : graph.depIsWaitedAfter dep p with
  | false =>
      rw [after] at assigned
      cases assigned
      exact ⟨taking, fun _ => rfl, (fun never => nomatch never)⟩
  | true =>
      rw [after, if_pos rfl] at assigned
      rcases bind_eq_ok.mp assigned with ⟨⟨bar, freed, deps⟩, taken, assigned⟩
      rcases bind_eq_ok.mp assigned with ⟨set, isSet, returned⟩
      cases returned
      have same : freed.setBarDep bar dep = state.1.setBarDep bar dep ∧
          deps.rdBar = state.2.rdBar ∧ (∀ b, deps.Sets b ↔ state.2.Sets b) ∧
          (∀ b : Fin 6, state.2.WaitsOn b.val → deps.WaitsOn b.val) ∧
          (∀ d, state.1 bar = some d →
            deps.WaitsOn bar.val ∧ ∀ b, ∃ d', state.1 b = some d' ∧ d ≤ d') := by
        rcases takeBar_spec taken with ⟨rfl, free, rfl⟩ | ⟨rfl, ⟨d, held, oldest⟩, rfl⟩
        · refine ⟨rfl, rfl, fun _ => Iff.rfl, fun _ waits => waits, ?_⟩
          intro d held
          rw [free] at held
          cases held
        · refine ⟨?_, rfl, fun _ => Iff.rfl, ?_, ?_⟩
          · funext b
            unfold BarAlloc.setBarDep BarAlloc.freeBar
            by_cases same : b = bar
            · subst same
              rw [update_self, update_self]
            · rw [update_of_ne same, update_of_ne same, update_of_ne same]
          · intro b waits
            exact (InstrDeps.testBit_or_one _ bar b).mpr (.inl waits)
          · intro d' held'
            rw [held] at held'
            cases held'
            exact ⟨(InstrDeps.testBit_or_one _ bar bar).mpr (.inr rfl), oldest⟩
      rcases same with ⟨isSame, rdBar, signals, waits, full⟩
      have atBar : state.1.setBarDep bar dep bar = some dep := update_self ..
      have off : ∀ {b}, b ≠ bar → state.1.setBarDep bar dep b = state.1 b :=
        fun other => update_of_ne other ..
      have mask : ∀ b : Fin 6, deps.WaitsOn b.val → set.WaitsOn b.val := by
        intro b isWait
        rw [InstrDeps.WaitsOn, (sets isSet).1]
        exact isWait
      rw [isSame]
      refine ⟨⟨?_, ?_, ?_, ?_⟩, (fun never => nomatch never),
        fun _ => ⟨bar, deps, isSet, rdBar, rfl, fun d held => (full d held).2⟩⟩
      · intro b d held member
        exact mask b (waits b (taking.waits b d held member))
      · intro b d held
        rcases taking.kept b d held with waited | ⟨still, unset⟩
        · exact .inl (mask b (waits b waited))
        · by_cases same : b = bar
          · subst same
            exact .inl (mask b (full d still).1)
          · refine .inr ⟨(off same).trans still, ?_⟩
            intro isSet'
            rcases (sets isSet).2 b.val isSet' with before | equal
            · exact unset ((signals b.val).mp before)
            · exact same (Fin.ext equal)
      · intro b d held
        change state.1.setBarDep bar dep b = some d at held
        by_cases same : b = bar
        · subst same
          rw [atBar] at held
          cases held
          exact .inr ⟨owns, after⟩
        · rw [off same] at held
          exact taking.held b d held
      · exact taking.injective.setBarDep bar new

/-- One instruction. -/
theorem barInstr_spec {sm : ShaderModel} {points : List Point} {instr : Instr} {out : DepInstr}
    {bars' : BarAlloc} (numbered : graph.Numbered points) (injective : bars.Injective)
    (earlier : ∀ bar dep, bars bar = some dep → ∃ q, graph.Owns q dep ∧ q.Before p)
    (unowned : sm.opNeedsScoreboard instr.op = false → graph.instrDeps p = none)
    (returned : barInstr sm graph bars (p, instr) = .ok (out, bars')) :
    out.toInstr = instr ∧ Taking graph p bars (bars', out.deps) ∧
      (sm.opNeedsScoreboard instr.op = true → graph.instrDeps p ≠ none) ∧
      ∀ rd wr, graph.instrDeps p = some (rd, wr) →
        Takes graph p rd bars' out.deps.rdBar ∧ Takes graph p wr bars' out.deps.wrBar := by
  rw [barInstr] at returned
  rcases bind_eq_ok.mp returned with ⟨deps, added, returned⟩
  have isDeps := InstrDeps.addWtBarMask_eq added
  have first : Taking graph p bars ((waitBars (graph.instrWaits p) bars 0).2,
      if instr.op.needsYield then deps.setYield true else deps) := by
    subst isDeps
    apply taking_waitBars injective
    · by_cases yields : instr.op.needsYield = true
      · rw [if_pos yields]
        exact Nat.zero_or _
      · rw [if_neg yields]
        exact Nat.zero_or _
    · rintro bar (never | never)
      · by_cases yields : instr.op.needsYield = true
        · rw [if_pos yields] at never
          cases never
        · rw [if_neg yields] at never
          cases never
      · by_cases yields : instr.op.needsYield = true
        · rw [if_pos yields] at never
          cases never
        · rw [if_neg yields] at never
          cases never
  dsimp only at returned
  by_cases needs : sm.opNeedsScoreboard instr.op = true
  · rw [if_pos needs] at returned
    rcases bind_eq_ok.mp returned with ⟨⟨rd, wr⟩, isPair, returned⟩
    rw [expect_eq_ok] at isPair
    rcases bind_eq_ok.mp returned with ⟨middle, readAssigned, returned⟩
    rcases bind_eq_ok.mp returned with ⟨⟨last, deps'⟩, writeAssigned, returned⟩
    cases returned
    have below := (numbered.pair p rd wr isPair).1
    have ownsRd : graph.Owns p rd := ⟨rd, wr, isPair, .inl rfl⟩
    have ownsWr : graph.Owns p wr := ⟨rd, wr, isPair, .inr rfl⟩
    have before : ∀ bar dep, (waitBars (graph.instrWaits p) bars 0).2 bar = some dep → dep < rd := by
      intro bar dep held
      have kept := (waitBars_spec (graph.instrWaits p) bars 0 injective).2.1 bar dep
      rcases earlier bar dep (kept.mp held).1 with ⟨q, owns, isBefore⟩
      exact numbered.ordered q p dep rd owns ownsRd isBefore
    rcases first.assignBar ownsRd
      (fun b held => Nat.lt_irrefl rd (before b rd held))
      (fun isSet => by
        cases InstrDeps.setRdBar_eq isSet
        refine ⟨rfl, ?_⟩
        rintro b (isRd | isWr)
        · cases isRd
          exact .inr rfl
        · exact .inl (.inr isWr)) readAssigned with ⟨second, readIdle, readTaken⟩
    have newWr : ∀ b, middle.1 b ≠ some wr := by
      intro b held
      cases after : graph.depIsWaitedAfter rd p with
      | false =>
          rw [readIdle after] at held
          exact Nat.lt_asymm below (before b wr held)
      | true =>
          rcases readTaken after with ⟨bar, _, _, _, isMiddle, _⟩
          rw [isMiddle, BarAlloc.setBarDep] at held
          by_cases same : b = bar
          · subst same
            rw [update_self] at held
            cases held
            exact Nat.lt_irrefl _ below
          · rw [update_of_ne same] at held
            exact Nat.lt_asymm below (before b wr held)
    rcases second.assignBar ownsWr newWr
      (fun isSet => by
        cases InstrDeps.setWrBar_eq isSet
        refine ⟨rfl, ?_⟩
        rintro b (isRd | isWr)
        · exact .inl (.inl isRd)
        · cases isWr
          exact .inr rfl) writeAssigned with ⟨third, writeIdle, writeTaken⟩
    refine ⟨rfl, third, fun _ => by simp [isPair], ?_⟩
    intro rd' wr' isPair'
    rw [isPair] at isPair'
    cases isPair'
    constructor
    · intro after
      rcases readTaken after with ⟨bar, deps₁, isSet, _, isMiddle, _⟩
      have atBar : middle.1 bar = some rd := by
        rw [isMiddle]
        exact update_self ..
      have signalled : middle.2.rdBar = some bar.val := by rw [InstrDeps.setRdBar_eq isSet]
      cases writes : graph.depIsWaitedAfter wr p with
      | false =>
          have isLast := writeIdle writes
          rw [← isLast] at atBar signalled
          exact ⟨bar, signalled, atBar⟩
      | true =>
          rcases writeTaken writes with ⟨bar', deps₂, isSet', rdBar, isLast, oldest⟩
          -- the barrier just taken is not the oldest of six
          have apart : bar ≠ bar' := by
            rintro rfl
            rcases oldest rd atBar (if bar = 0 then 1 else 0) with ⟨d', held, notBelow⟩
            have other : (if bar = 0 then 1 else 0) ≠ bar := by
              by_cases isZero : bar = 0
              · rw [if_pos isZero, isZero]
                decide
              · rw [if_neg isZero]
                exact fun equal => isZero equal.symm
            rw [isMiddle, BarAlloc.setBarDep, update_of_ne other] at held
            exact Nat.not_lt.mpr notBelow (before _ d' held)
          refine ⟨bar, ?_, ?_⟩
          · have isDeps' : deps' = { deps₂ with wrBar := some bar'.val } :=
              InstrDeps.setWrBar_eq isSet'
            rw [isDeps']
            exact rdBar.trans signalled
          · rw [isLast, BarAlloc.setBarDep, update_of_ne apart, atBar]
    · intro after
      rcases writeTaken after with ⟨bar, deps₁, isSet, _, isLast, _⟩
      refine ⟨bar, ?_, ?_⟩
      · have isDeps' : deps' = { deps₁ with wrBar := some bar.val } :=
          InstrDeps.setWrBar_eq isSet
        rw [isDeps']
      · rw [isLast]
        exact update_self ..
  · rw [if_neg needs] at returned
    cases returned
    refine ⟨rfl, first, fun isNeeded => absurd isNeeded needs, ?_⟩
    intro rd wr isPair
    rw [unowned (by simpa using needs)] at isPair
    cases isPair

end

/-!
## Barriers are kept

Until the first wait on a dependency its barrier is not given away, or whoever takes it waits on it.
-/

/-- A wait on the barrier after one point and up to another, with no signal of it before. -/
def Settled (out : List (Point × DepInstr)) (p q : Point) (bar : Nat) : Prop :=
  ∃ r c, (r, c) ∈ out ∧ p.Before r ∧ ¬q.Before r ∧ c.deps.WaitsOn bar ∧
    ∀ m e, (m, e) ∈ out → p.Before m → m.Before r → ¬e.deps.Sets bar

/-- A dependency keeps its barrier, or its barrier has been waited on. -/
def Kept (graph : DepGraph) (out : List (Point × DepInstr)) (bars : BarAlloc) (p : Point)
    (dep : Nat) (bar : Fin 6) : Prop :=
  ∀ q, graph.firstWait dep = some q →
    bars bar = some dep ∧ q ∉ out.map Prod.fst ∧
        (∀ m e, (m, e) ∈ out → p.Before m → ¬e.deps.Sets bar.val) ∨
      Settled out p q bar.val

/-- The barriers after some instructions. -/
structure Barred (graph : DepGraph) (out : List (Point × DepInstr)) (bars : BarAlloc) : Prop where
  injective : bars.Injective
  held : ∀ bar dep, bars bar = some dep → ∃ p ∈ out.map Prod.fst, graph.Owns p dep ∧
    ∃ q, graph.firstWait dep = some q ∧ q ∉ out.map Prod.fst
  reads : ∀ p c rd wr, (p, c) ∈ out → graph.instrDeps p = some (rd, wr) →
    (∃ q, graph.firstWait rd = some q) →
      ∃ bar : Fin 6, c.deps.rdBar = some bar.val ∧ Kept graph out bars p rd bar
  writes : ∀ p c rd wr, (p, c) ∈ out → graph.instrDeps p = some (rd, wr) →
    (∃ q, graph.firstWait wr = some q) →
      ∃ bar : Fin 6, c.deps.wrBar = some bar.val ∧ Kept graph out bars p wr bar

theorem barred_nil (graph : DepGraph) : Barred graph [] fun _ => none := by
  constructor
  · intro _ _ _ never
    cases never
  · intro _ _ never
    cases never
  · intro _ _ _ _ never
    cases never
  · intro _ _ _ _ never
    cases never

variable {graph : DepGraph} {points : List Point} {out : List (Point × DepInstr)} {p : Point}
  {bars bars' : BarAlloc} {c : DepInstr}

theorem Settled.append {q r : Point} {bar : Nat} (settled : Settled out p q bar)
    (next : ∀ m ∈ out.map Prod.fst, m.Before r) : Settled (out ++ [(r, c)]) p q bar := by
  rcases settled with ⟨k, e, member, after, upTo, waits, clear⟩
  refine ⟨k, e, mem_append_left _ member, after, upTo, waits, ?_⟩
  intro m e' member' above below
  rcases mem_append.mp member' with old | new
  · exact clear m e' old above below
  · cases mem_singleton.mp new
    exact absurd (next k (mem_map_of_mem member)) below.asymm

/-- One more instruction that takes barriers. -/
theorem Kept.step {q : Point} {dep : Nat} {bar : Fin 6} (kept : Kept graph out bars q dep bar)
    (taking : Taking graph p bars (bars', c.deps)) (numbered : graph.Numbered points)
    (next : ∀ m ∈ out.map Prod.fst, m.Before p) (isOld : q ∈ out.map Prod.fst)
    (all : ∀ m ∈ points, m.Before p → m ∈ out.map Prod.fst) :
    Kept graph (out ++ [(p, c)]) bars' q dep bar := by
  intro w waited
  rcases kept w waited with ⟨held, ahead, clear⟩ | settled
  · have notBefore : ¬w.Before p := fun before =>
      ahead (all w (numbered.later dep w waited).1 before)
    have settles : c.deps.WaitsOn bar.val → Settled (out ++ [(p, c)]) q w bar.val := by
      intro waits
      refine ⟨p, c, by simp, next q isOld, notBefore, waits, ?_⟩
      intro m e member above below
      rcases mem_append.mp member with old | new
      · exact clear m e old above
      · cases mem_singleton.mp new
        exact absurd below (Point.Before.irrefl _)
    rcases taking.kept bar dep held with waits | ⟨still, unset⟩
    · exact .inr (settles waits)
    · by_cases here : w = p
      · subst here
        exact .inr (settles (taking.waits bar dep held ((numbered.waits dep w).mp waited)))
      · refine .inl ⟨still, ?_, ?_⟩
        · rw [map_append, mem_append, not_or]
          exact ⟨ahead, fun new => here (mem_singleton.mp new)⟩
        · intro m e member above
          rcases mem_append.mp member with old | new
          · exact clear m e old above
          · cases mem_singleton.mp new
            exact unset
  · exact .inr (settled.append next)

theorem depIsWaitedAfter_iff {dep : Nat} :
    graph.depIsWaitedAfter dep p = true ↔ ∃ q, graph.firstWait dep = some q ∧ p.Before q := by
  rw [depIsWaitedAfter, Option.any_eq_true]
  simp only [decide_eq_true_eq, firstWait]

theorem Barred.step (barred : Barred graph out bars) (numbered : graph.Numbered points)
    (next : ∀ m ∈ out.map Prod.fst, m.Before p)
    (all : ∀ m ∈ points, m.Before p → m ∈ out.map Prod.fst)
    (taking : Taking graph p bars (bars', c.deps))
    (takes : ∀ rd wr, graph.instrDeps p = some (rd, wr) →
      Takes graph p rd bars' c.deps.rdBar ∧ Takes graph p wr bars' c.deps.wrBar) :
    Barred graph (out ++ [(p, c)]) bars' := by
  have notBefore : ∀ {q : Point}, p.Before q → q ∉ (out ++ [(p, c)]).map Prod.fst := by
    intro q before
    rw [map_append, mem_append, not_or]
    constructor
    · exact fun old => (next q old).asymm before
    · intro new
      rw [mem_singleton.mp new] at before
      exact Point.Before.irrefl p before
  have fresh : ∀ {dep : Nat} {set : Option Nat}, graph.Owns p dep → Takes graph p dep bars' set →
      (∃ q, graph.firstWait dep = some q) →
        ∃ bar : Fin 6, set = some bar.val ∧ Kept graph (out ++ [(p, c)]) bars' p dep bar := by
    rintro dep set owns taken ⟨q, waited⟩
    have before := (numbered.later dep q waited).2 p owns
    rcases taken (depIsWaitedAfter_iff.mpr ⟨q, waited, before⟩) with ⟨bar, isSet, held⟩
    refine ⟨bar, isSet, ?_⟩
    intro w waited'
    rw [waited] at waited'
    cases waited'
    refine .inl ⟨held, notBefore before, ?_⟩
    intro m e member above
    exact absurd (mem_map_of_mem member) (notBefore above)
  constructor
  · exact taking.injective
  · intro bar dep held
    rcases taking.held bar dep held with ⟨old, unwaited⟩ | ⟨owns, after⟩
    · rcases barred.held bar dep old with ⟨q, isOld, owns, w, waited, ahead⟩
      refine ⟨q, ?_, owns, w, waited, ?_⟩
      · rw [map_append]
        exact mem_append_left _ isOld
      · rw [map_append, mem_append, not_or]
        refine ⟨ahead, ?_⟩
        intro new
        rw [mem_singleton.mp new] at waited
        exact unwaited ((numbered.waits dep p).mp waited)
    · rcases depIsWaitedAfter_iff.mp after with ⟨q, waited, before⟩
      exact ⟨p, by simp, owns, q, waited, notBefore before⟩
  · intro q e rd wr member isPair waited
    rcases mem_append.mp member with old | new
    · rcases barred.reads q e rd wr old isPair waited with ⟨bar, isSet, kept⟩
      exact ⟨bar, isSet, kept.step taking numbered next (mem_map_of_mem old) all⟩
    · cases mem_singleton.mp new
      exact fresh ⟨rd, wr, isPair, .inl rfl⟩ (takes rd wr isPair).1 waited
  · intro q e rd wr member isPair waited
    rcases mem_append.mp member with old | new
    · rcases barred.writes q e rd wr old isPair waited with ⟨bar, isSet, kept⟩
      exact ⟨bar, isSet, kept.step taking numbered next (mem_map_of_mem old) all⟩
    · cases mem_singleton.mp new
      exact fresh ⟨rd, wr, isPair, .inr rfl⟩ (takes rd wr isPair).2 waited

/-- The second loop over the instructions with their places. -/
def barAll (sm : ShaderModel) (graph : DepGraph) :
    List (Point × Instr) → BarAlloc → Except Fault (List (Point × DepInstr) × BarAlloc) :=
  mapAccumM fun bars entry => do
    let (out, bars) ← barInstr sm graph bars entry
    return ((entry.1, out), bars)

theorem barred_all {sm : ShaderModel} {entries : List (Point × Instr)}
    (numbered : graph.Numbered (entries.map Prod.fst))
    (unowned : ∀ entry ∈ entries, sm.opNeedsScoreboard entry.2.op = false →
      graph.instrDeps entry.1 = none) :
    ∀ (rest done : List (Point × Instr)) {out rest' : List (Point × DepInstr)} {bars final : BarAlloc},
    entries = done ++ rest → entries.Pairwise (fun a b => a.1.Before b.1) →
    out.map (fun e => (e.1, e.2.toInstr)) = done → Barred graph out bars →
    barAll sm graph rest bars = .ok (rest', final) →
    Barred graph (out ++ rest') final ∧
      (out ++ rest').map (fun e => (e.1, e.2.toInstr)) = entries ∧
      ∀ entry ∈ rest, sm.opNeedsScoreboard entry.2.op = true → graph.instrDeps entry.1 ≠ none := by
  intro rest
  induction rest with
  | nil =>
      intro done out rest' bars final whole _ same barred returned
      cases returned
      rw [append_nil] at *
      exact ⟨barred, same.trans whole.symm, fun _ never => nomatch never⟩
  | cons entry rest hind =>
      intro done out rest' bars final whole sorted same barred returned
      rw [barAll, mapAccumM] at returned
      rcases bind_eq_ok.mp returned with ⟨⟨placed, bars'⟩, first, returned⟩
      rcases bind_eq_ok.mp first with ⟨⟨c, bars''⟩, stepped, isPlaced⟩
      cases isPlaced
      rcases bind_eq_ok.mp returned with ⟨⟨rest'', final'⟩, continued, returned⟩
      cases returned
      rcases entry with ⟨p, instr⟩
      have points : out.map Prod.fst = done.map Prod.fst := by
        rw [← same, map_map]
        rfl
      rw [whole] at sorted
      have next : ∀ m ∈ out.map Prod.fst, m.Before p := by
        intro m member
        rw [points] at member
        rcases mem_map.mp member with ⟨earlier, isEarlier, rfl⟩
        exact (pairwise_append.mp sorted).2.2 earlier isEarlier (p, instr) mem_cons_self
      have all : ∀ m ∈ entries.map Prod.fst, m.Before p → m ∈ out.map Prod.fst := by
        intro m member before
        rw [points]
        rw [whole, map_append, mem_append] at member
        rcases member with old | new
        · exact old
        · exfalso
          rcases mem_cons.mp new with rfl | later
          · exact Point.Before.irrefl _ before
          · rcases mem_map.mp later with ⟨entry, isEntry, rfl⟩
            have after := (pairwise_cons.mp (pairwise_append.mp sorted).2.1).1
            exact (after entry isEntry).asymm before
      rcases barInstr_spec numbered barred.injective
        (fun bar dep held => by
          rcases barred.held bar dep held with ⟨q, isOld, owns, _⟩
          exact ⟨q, owns, next q isOld⟩)
        (unowned (p, instr) (by rw [whole]; simp)) stepped with
        ⟨isInstr, taking, owned, takes⟩
      have both : out ++ (p, c) :: rest'' = out ++ [(p, c)] ++ rest'' := by simp
      rw [both]
      have same' : (out ++ [(p, c)]).map (fun e => (e.1, e.2.toInstr)) = done ++ [(p, instr)] := by
        rw [map_append, same, map_cons, map_nil, isInstr]
      rcases hind (done ++ [(p, instr)]) (by rw [whole]; simp) (whole ▸ sorted) same'
        (barred.step numbered next all taking takes) continued with ⟨barred', whole', others⟩
      refine ⟨barred', whole', ?_⟩
      intro entry member
      rcases mem_cons.mp member with rfl | later
      · exact owned
      · exact others entry later

end AssignBarriers

end CoralReef
