import CoralReef.Codegen.Ir.AluProgram

/-!
# Passes over ALU functions

Strict SSA form and runs of an ALU function, and the passes that go through its instructions in the
order of the layout with a state of their own. A pass that records facts about names as it goes may
use a fact wherever its name is available.
-/

open List

namespace CoralReef

namespace AluFunction

variable {f : AluFunction} {instr : AluInstr} {p : Place} {history : List Place}
  {blocks : List (List AluInstr)}

/-- A place of a function: a block, and a number of instructions of it. -/
abbrev Place := Nat × Nat

def instrs (f : AluFunction) (b : Nat) : List AluInstr :=
  (f.blocks.blocks[b]?.map AluBlock.instrs).getD []

/-- The instruction that is executed when a place is left; none at the end of a block. -/
def instrAt (f : AluFunction) (p : Place) : Option AluInstr := (f.instrs p.1)[p.2]?

/-- From a place to the next in its block, or from the end of a block along an edge. -/
def Next (f : AluFunction) (p q : Place) : Prop :=
  (p.2 < (f.instrs p.1).length ∧ q = (p.1, p.2 + 1)) ∨
    (p.2 = (f.instrs p.1).length ∧ (p.1, q.1) ∈ f.blocks.edges ∧ q.2 = 0)

def usesAt (f : AluFunction) (p : Place) : List SSAValue :=
  ((f.instrAt p).map AluInstr.ssaUses).getD []

def defsAt (f : AluFunction) (p : Place) : List SSAValue :=
  ((f.instrAt p).map AluInstr.ssaDefs).getD []

/-- The places left on a path from the entry. -/
abbrev Path (f : AluFunction) : List Place → Place → Prop := SsaFacts.Walk f.Next (0, 0)

/-- Every path to the place has defined the name. -/
abbrev Available (f : AluFunction) (x : SSAValue) (p : Place) : Prop :=
  SsaFacts.Available f.Next (0, 0) f.defsAt x p

/-- No name has two definitions, and the definition of a name lies on every path to its uses. -/
structure StrictSsa (f : AluFunction) : Prop where
  once : SsaFacts.DefinedOnce f.defsAt
  nodup : ∀ p, (f.defsAt p).Nodup
  dominated : ∀ p, ∀ x ∈ f.usesAt p, f.Available x p

variable {E : Type}

def machine (f : AluFunction) (interp : AluInterp E) :
    SsaFacts.Machine Place SSAValue (AluState E) (BitVec 32) where
  leave p state := match f.instrAt p with
    | some instr => interp.step state instr
    | none => state
  val := AluState.vals

/-- The state after the places of a path have been left. -/
def run (f : AluFunction) (interp : AluInterp E) (history : List Place) (state : AluState E) :
    AluState E :=
  (f.machine interp).run history state

/-- No instruction of a kind was switched off by its guard in a run. -/
def GuardsOn (f : AluFunction) (kind : AluOp → Bool) (interp : AluInterp E) (state : AluState E)
    (history : List Place) : Prop :=
  ∀ before p after instr, history = before ++ p :: after → f.instrAt p = some instr →
    kind instr.op = true → interp.guard (f.run interp before state).vals instr.pred = true

/-- No op of a kind reads its own result, be it through others of the kind. In strict SSA form this
can only be so in code that no path reaches. -/
def Grounded (f : AluFunction) (kind : AluOp → Bool) : Prop :=
  ∃ rank : SSAValue → Nat, ∀ p instr, f.instrAt p = some instr → kind instr.op = true →
    ∀ x ∈ instr.ssaDefs, ∀ z ∈ instr.op.srcs.flatMap Src.iterSsa, rank z < rank x

/-- All the names that ops read. -/
def sources (f : AluFunction) : List SSAValue :=
  f.blocks.blocks.flatMap fun bb => bb.instrs.flatMap fun instr => instr.op.srcs.flatMap Src.iterSsa

/-- What holds of every instruction holds wherever one stands. -/
theorem forall_instrAt (holds : AluInstr → Prop)
    (each : ∀ bb ∈ f.blocks.blocks, ∀ instr ∈ bb.instrs, holds instr)
    (atP : f.instrAt p = some instr) : holds instr := by
  rw [instrAt, instrs] at atP
  cases isBlock : f.blocks.blocks[p.1]? with
  | none => simp [isBlock] at atP
  | some bb =>
    have isInstr : bb.instrs[p.2]? = some instr := by simpa [isBlock] using atP
    exact each bb (mem_of_getElem? isBlock) instr (mem_of_getElem? isInstr)

theorem mem_sources (f : AluFunction) (atP : f.instrAt p = some instr) :
    ∀ z ∈ instr.op.srcs.flatMap Src.iterSsa, z ∈ f.sources := by
  refine forall_instrAt (fun instr => ∀ z ∈ instr.op.srcs.flatMap Src.iterSsa, z ∈ f.sources)
    ?_ atP
  intro bb isBlock instr isInstr z isUse
  exact mem_flatMap.mpr ⟨bb, isBlock, mem_flatMap.mpr ⟨instr, isInstr, isUse⟩⟩

/-- A pass over the instructions of a function. -/
def mapInstrs {σ : Type} (step : σ → AluInstr → Except Fault (AluInstr × σ)) (pass : σ)
    (f : AluFunction) : Except Fault AluFunction := do
  let (blocks, _) ← mapAccumM (fun pass (bb : AluBlock) => do
    let (instrs, pass) ← mapAccumM step bb.instrs pass
    return ({ bb with instrs }, pass)) f.blocks.blocks pass
  return { f with blocks := { f.blocks with blocks } }

theorem defsAt_eq (atP : f.instrAt p = some instr) :
    f.defsAt p = instr.ssaDefs := by
  rw [defsAt, atP]
  rfl

theorem usesAt_eq (atP : f.instrAt p = some instr) :
    f.usesAt p = instr.ssaUses := by
  rw [usesAt, atP]
  rfl

theorem leave_eq (atP : f.instrAt p = some instr) (interp : AluInterp E) (state : AluState E) :
    (f.machine interp).leave p state = interp.step state instr := by
  simp only [machine, atP]

theorem run_snoc (atP : f.instrAt p = some instr) (interp : AluInterp E) (state : AluState E)
    (history : List Place) :
    f.run interp (history ++ [p]) state = interp.step (f.run interp history state) instr := by
  rw [run, SsaFacts.Machine.run_snoc, leave_eq atP]
  rfl

theorem frames (f : AluFunction) (interp : AluInterp E) : (f.machine interp).Frames f.defsAt := by
  intro p state x fresh
  cases atP : f.instrAt p with
  | none => simp only [machine, atP]
  | some instr =>
    rw [defsAt_eq atP] at fresh
    rw [leave_eq atP]
    exact interp.step_frame state fresh

theorem GuardsOn.cut {kind : AluOp → Bool} {interp : AluInterp E} {state : AluState E}
    (first second : List Place) (on : f.GuardsOn kind interp state (first ++ second)) :
    f.GuardsOn kind interp state first := by
  intro before p after instr split
  refine on before p (after ++ second) instr ?_
  rw [split, append_assoc]
  rfl

/-- The last instruction of a run was executed. -/
theorem GuardsOn.last {kind : AluOp → Bool} {interp : AluInterp E} {state : AluState E}
    (on : f.GuardsOn kind interp state (history ++ [p])) (atP : f.instrAt p = some instr)
    (isKind : kind instr.op = true) :
    interp.guard (f.run interp history state).vals instr.pred = true :=
  on history p [] instr rfl atP isKind

/-- All the definitions of a function. -/
def allDefs (f : AluFunction) : List SSAValue :=
  f.blocks.blocks.flatMap fun bb => bb.instrs.flatMap AluInstr.ssaDefs

/-- Items of a list whose images are disjoint stand in one place if their images meet. -/
theorem index_eq {α β : Type} {l : List α} {g : α → List β} (nodup : (l.flatMap g).Nodup)
    {i j : Nat} {a a' : α} (atI : l[i]? = some a) (atJ : l[j]? = some a') {x : β} (isIn : x ∈ g a)
    (isIn' : x ∈ g a') : i = j := by
  have apart := pairwise_iff_getElem.mp (nodup_flatMap.mp nodup).2
  rcases List.getElem?_eq_some_iff.mp atI with ⟨insideI, rfl⟩
  rcases List.getElem?_eq_some_iff.mp atJ with ⟨insideJ, rfl⟩
  rcases Nat.lt_trichotomy i j with less | same | less
  · exact absurd isIn' (apart i j insideI insideJ less isIn)
  · exact same
  · exact absurd isIn (apart j i insideJ insideI less isIn')

theorem exists_block {x : SSAValue} (isDef : x ∈ f.defsAt p) :
    ∃ bb instr, f.blocks.blocks[p.1]? = some bb ∧ bb.instrs[p.2]? = some instr ∧
      x ∈ instr.ssaDefs := by
  cases atP : f.instrAt p with
  | none => simp [defsAt, atP] at isDef
  | some instr =>
    rw [defsAt_eq atP] at isDef
    rw [instrAt, instrs] at atP
    cases isBlock : f.blocks.blocks[p.1]? with
    | none => simp [isBlock] at atP
    | some bb => exact ⟨bb, instr, rfl, by simpa [isBlock] using atP, isDef⟩

theorem definedOnce_of_nodup (nodup : f.allDefs.Nodup) :
    SsaFacts.DefinedOnce f.defsAt := by
  intro x p q isDef isDef'
  rcases exists_block isDef with ⟨bb, instr, atB, atK, isIn⟩
  rcases exists_block isDef' with ⟨bb', instr', atB', atK', isIn'⟩
  have sameBlock : p.1 = q.1 := index_eq nodup atB atB'
    (mem_flatMap.mpr ⟨instr, mem_of_getElem? atK, isIn⟩)
    (mem_flatMap.mpr ⟨instr', mem_of_getElem? atK', isIn'⟩)
  rw [sameBlock, atB'] at atB
  cases atB
  have inBlock := (nodup_flatMap.mp nodup).1 bb (mem_of_getElem? atB')
  exact Prod.ext sameBlock (index_eq inBlock atK atK' isIn isIn')

/-- A function whose blocks no edge joins: only the first block can be reached. -/
def apart (blocks : List (List AluInstr)) : AluFunction :=
  { blocks := { blocks := blocks.map fun instrs => { label := ⟨0⟩, instrs } } }

theorem path_apart (path : (apart blocks).Path history p) :
    p.1 = 0 ∧ history = (List.range p.2).map (Prod.mk 0) := by
  induction path with
  | refl => exact ⟨rfl, rfl⟩
  | @leave history p q _ edge ih =>
    rcases edge with ⟨_, rfl⟩ | ⟨_, never, _⟩
    · refine ⟨ih.1, ?_⟩
      rw [range_succ, map_append, ← ih.2, map_singleton]
      exact congrArg (fun b => history ++ [(b, p.2)]) ih.1
    · cases never

theorem apart_path {instrs : List AluInstr} :
    ∀ {k : Nat}, k ≤ instrs.length →
      (apart (instrs :: blocks)).Path ((List.range k).map (Prod.mk 0)) (0, k) := by
  intro k
  induction k with
  | zero => exact fun _ => .refl
  | succ k ih =>
    intro le
    rw [range_succ, map_append, map_singleton]
    exact .leave (ih (Nat.le_of_succ_le le)) (.inl ⟨le, rfl⟩)

/-- Such a function is in strict SSA form when its names differ and, in the first block, are
defined before they are used. -/
theorem apart_strictSsa (nodup : (apart blocks).allDefs.Nodup)
    (dominated : ∀ k < ((apart blocks).instrs 0).length, ∀ x ∈ (apart blocks).usesAt (0, k),
      ∃ j < k, x ∈ (apart blocks).defsAt (0, j)) : (apart blocks).StrictSsa where
  once := definedOnce_of_nodup nodup
  nodup := by
    intro p
    cases atP : (apart blocks).instrAt p with
    | none => simp [defsAt, atP]
    | some instr =>
      rw [defsAt_eq atP]
      rw [instrAt, instrs] at atP
      cases isBlock : (apart blocks).blocks.blocks[p.1]? with
      | none => simp [isBlock] at atP
      | some bb =>
        have isInstr : bb.instrs[p.2]? = some instr := by simpa [isBlock] using atP
        have inBlock := (nodup_flatMap.mp nodup).1 bb (mem_of_getElem? isBlock)
        exact (nodup_flatMap.mp inBlock).1 instr (mem_of_getElem? isInstr)
  dominated := by
    intro p x isUse history path
    rcases path_apart path with ⟨isZero, isRange⟩
    have isFirst : p = (0, p.2) := Prod.ext isZero rfl
    rw [isFirst] at isUse
    have inside : p.2 < ((apart blocks).instrs 0).length := by
      by_contra beyond
      rw [usesAt, instrAt, List.getElem?_eq_none (Nat.le_of_not_lt beyond)] at isUse
      cases isUse
    rcases dominated p.2 inside x isUse with ⟨j, less, isDef⟩
    exact ⟨(0, j), by rw [isRange]; simpa using less, isDef⟩

/-- A pass that does not fail at any instruction makes a function of the same shape. -/
theorem mapInstrs_ok {σ : Type} {step : σ → AluInstr → Except Fault (AluInstr × σ)} (inv : σ → Prop)
    (rel : Place → AluInstr → AluInstr → Prop) {pass : σ} (holds : inv pass)
    (each : ∀ p instr pass, f.instrAt p = some instr → inv pass →
      ∃ instr' pass', step pass instr = .ok (instr', pass') ∧ inv pass' ∧ rel p instr instr') :
    ∃ f', f.mapInstrs step pass = .ok f' ∧ f'.Next = f.Next ∧
      ∀ p, (f.instrAt p = none → f'.instrAt p = none) ∧ ∀ instr, f.instrAt p = some instr →
        ∃ instr', f'.instrAt p = some instr' ∧ rel p instr instr' := by
  have all := mapAccumM_ok (fun pass (bb : AluBlock) => do
      let (instrs, pass) ← mapAccumM step bb.instrs pass
      return ({ bb with instrs }, pass)) inv f.blocks.blocks
    (fun b bb bb' => bb'.instrs.length = bb.instrs.length ∧ ∀ k instr,
      bb.instrs[k]? = some instr → ∃ instr', bb'.instrs[k]? = some instr' ∧ rel (b, k) instr instr')
    pass holds ?_
  · rcases all with ⟨blocks, pass', returned, _, length, at'⟩
    have atBlock : ∀ b, ((blocks[b]?.map AluBlock.instrs).getD []).length = (f.instrs b).length ∧
        ∀ k instr, (f.instrs b)[k]? = some instr →
          ∃ instr', ((blocks[b]?.map AluBlock.instrs).getD [])[k]? = some instr' ∧
            rel (b, k) instr instr' := by
      intro b
      cases isBlock : f.blocks.blocks[b]? with
      | none =>
        have isBlock' : blocks[b]? = none := by
          rw [List.getElem?_eq_none_iff] at isBlock ⊢
          omega
        simp [instrs, isBlock, isBlock']
      | some bb =>
        rcases at' b bb isBlock with ⟨bb', isBlock', same, places⟩
        simp only [instrs, isBlock, isBlock', Option.map_some, Option.getD_some]
        exact ⟨same, places⟩
    refine ⟨{ f with blocks := { f.blocks with blocks } }, ?_, ?_, ?_⟩
    · rw [mapInstrs, returned, ok_bind]
      rfl
    · funext p q
      simp only [Next, instrs] at atBlock ⊢
      rw [(atBlock p.1).1]
    · intro p
      refine ⟨?_, (atBlock p.1).2 p.2⟩
      intro atEnd
      rw [instrAt, List.getElem?_eq_none_iff] at atEnd ⊢
      exact (atBlock p.1).1.trans_le atEnd
  · intro b bb pass isBlock holds
    have here := mapAccumM_ok step inv bb.instrs (fun k => rel (b, k)) pass holds ?_
    · rcases here with ⟨instrs, pass', returned, holds', length, places⟩
      refine ⟨{ bb with instrs }, pass', ?_, holds', length, places⟩
      rw [returned]
      rfl
    · intro k instr pass isInstr holds
      refine each (b, k) instr pass ?_ holds
      rw [instrAt, AluFunction.instrs, isBlock]
      exact isInstr

/-- A pass that fails at a block that no path reaches fails. -/
theorem mapInstrs_apart_error {σ : Type} {step : σ → AluInstr → Except Fault (AluInstr × σ)}
    {pass : σ} {instrs : List AluInstr} {fault : Fault}
    (block : mapAccumM step instrs pass = .error fault) :
    (apart [[], instrs]).mapInstrs step pass = .error fault := by
  simp only [mapInstrs, apart, map_cons, map_nil, mapAccumM, ok_bind, block, error_bind,
    pure, Except.pure]

/-- Two instructions do the same whenever a place is reached. -/
def StepsAlike (f : AluFunction) (kind : AluOp → Bool) (p : Place) (instr instr' : AluInstr) : Prop :=
  ∀ {E : Type} (interp : AluInterp E) (state : AluState E) (history : List Place),
    f.Path history p → f.GuardsOn kind interp state (history ++ [p]) →
      interp.step (f.run interp history state) instr' = interp.step (f.run interp history state) instr

/-- A pass whose instructions do the same wherever they are reached leaves every run as it is. -/
theorem mapInstrs_run {σ : Type} {step : σ → AluInstr → Except Fault (AluInstr × σ)}
    (inv : σ → Prop) {kind : AluOp → Bool} {pass : σ} (holds : inv pass)
    (each : ∀ p instr pass, f.instrAt p = some instr → inv pass →
      ∃ instr' pass', step pass instr = .ok (instr', pass') ∧ inv pass' ∧
        f.StepsAlike kind p instr instr') :
    ∃ f', f.mapInstrs step pass = .ok f' ∧ f'.Next = f.Next ∧
      ∀ {E : Type} (interp : AluInterp E) (state : AluState E) (history : List Place) (q : Place),
        f.Path history q → f.GuardsOn kind interp state history →
          f'.run interp history state = f.run interp history state := by
  rcases mapInstrs_ok inv (f.StepsAlike kind) holds each with ⟨f', returned, next, places⟩
  refine ⟨f', returned, next, ?_⟩
  intro E interp state history q path on
  refine SsaFacts.Machine.run_congr (f.GuardsOn kind interp state) GuardsOn.cut ?_ path on
  intro history p path on
  cases atP : f.instrAt p with
  | none => simp only [machine, atP, (places p).1 atP]
  | some instr =>
    rcases (places p).2 instr atP with ⟨instr', atP', alike⟩
    rw [leave_eq atP, leave_eq atP']
    exact alike interp state history path on

/-- A name that is available where it would be defined: no path gets there. -/
theorem StrictSsa.not_available (strict : f.StrictSsa) {x : SSAValue} (path : f.Path history p)
    (isDef : x ∈ f.defsAt p) :
    ¬ f.Available x p := by
  intro available
  rcases SsaFacts.exists_rank f.Next (0, 0) strict.once with ⟨rank, less⟩
  exact Nat.lt_irrefl _ (less x x p isDef ⟨history, path⟩ available)

/-- An instruction leaves the names available before it as they are. -/
theorem StrictSsa.step_available (strict : f.StrictSsa) (atP : f.instrAt p = some instr)
    (path : f.Path history p) {z : SSAValue} (available : f.Available z p) (interp : AluInterp E)
    (state : AluState E) : (interp.step state instr).vals z = state.vals z := by
  apply interp.step_frame
  intro isDef
  rw [← defsAt_eq atP] at isDef
  exact strict.not_available path isDef available

end AluFunction

/-- An instruction that leaves any word in a name. -/
def undefined (x : SSAValue) : AluInstr := { op := .base (.undef (.ofSsa x)) }

/-- A machine on which every other op leaves zero. -/
def quietInterp : AluInterp Unit where
  bound _ _ := 0
  bindless _ _ _ := 0
  bindlessReg _ _ := 0
  reg _ := 0
  permute _ _ := 0
  base rest _ _ := (rest, fun _ => 0)

/-- A kind of fact about a name that speaks of the values of other names. -/
structure Facts (Entry : Type) where
  names : Entry → List SSAValue
  Means : {E : Type} → AluInterp E → (SSAValue → BitVec 32) → SSAValue → Entry → Prop
  onNames : ∀ {E : Type} (interp : AluInterp E) (vals vals' : SSAValue → BitVec 32) (x : SSAValue)
    (entry : Entry), vals x = vals' x → (∀ z ∈ names entry, vals z = vals' z) →
      Means interp vals x entry → Means interp vals' x entry

namespace Facts

variable {Entry : Type} (facts : Facts Entry)

/-- The fact speaks of names available at the definition of `x`, and holds after it. -/
def Recorded (f : AluFunction) (kind : AluOp → Bool) (x : SSAValue) (entry : Entry) : Prop :=
  ∃ p, x ∈ f.defsAt p ∧ (∀ z ∈ facts.names entry, f.Available z p) ∧
    ∀ {E : Type} (interp : AluInterp E) (state : AluState E) (history : List AluFunction.Place),
      f.Path history p → f.GuardsOn kind interp state (history ++ [p]) →
        facts.Means interp (f.run interp (history ++ [p]) state).vals x entry

variable {facts} {f : AluFunction} {kind : AluOp → Bool} {x : SSAValue} {entry : Entry}

/-- A recorded fact holds wherever its name is available. -/
theorem Recorded.holds (recorded : facts.Recorded f kind x entry) (strict : f.StrictSsa)
    {q : AluFunction.Place} (available : f.Available x q) {E : Type} (interp : AluInterp E)
    (state : AluState E) {history : List AluFunction.Place} (path : f.Path history q)
    (on : f.GuardsOn kind interp state history) :
    facts.Means interp (f.run interp history state).vals x entry := by
  rcases recorded with ⟨p, isDef, atDef, established⟩
  refine SsaFacts.Machine.fact (f.frames interp) strict.once (f.GuardsOn kind interp state)
    AluFunction.GuardsOn.cut isDef (fun z => z = x ∨ z ∈ facts.names entry)
    (fun vals => facts.Means interp vals x entry) ?_ ?_ ?_ available path on
  · intro vals vals' same means
    exact facts.onNames interp vals vals' x entry (same x (.inl rfl))
      (fun z isName => same z (.inr isName)) means
  · intro z isName
    rcases isName with rfl | isName
    · exact .inl rfl
    · exact .inr (atDef z isName)
  · exact fun history path on => established interp state history path on

/-- The names of a recorded fact are available wherever its name is. -/
theorem Recorded.available (recorded : facts.Recorded f kind x entry) (strict : f.StrictSsa)
    {q : AluFunction.Place} (here : f.Available x q) : ∀ z ∈ facts.names entry, f.Available z q := by
  rcases recorded with ⟨p, isDef, atDef, _⟩
  exact fun z isName => SsaFacts.Available.trans strict.once isDef (atDef z isName) here

end Facts

end CoralReef
