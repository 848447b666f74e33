import CoralReef.Codegen.LowerParCopies.Proofs.Moves

/-!
# The two phases of the lowering

The ready loop ends with a graph of cycles only; the second phase empties those.
-/

open List
open Function (update update_comm update_idem update_of_ne update_self)

namespace CoralReef.LowerParCopy

open ParallelMove CopyGraph

variable {pc : OpParCopy} {vals : List SrcRef} {size : Nat}
variable {original : Nat → Option Nat}

/-- The node at the head of an edge or at its tail is an operand. -/
structure Covers (pc : OpParCopy) (vals : List SrcRef) (src : Nat → Option Nat) : Prop where
  dst : ∀ i j, src i = some j → i < pc.dstsSrcs.length
  val : ∀ i j, src i = some j → ∃ val, vals[j]? = some val

/-- The invariant of the ready loop: what is ready is unread, and what is unread and pending is
ready. -/
structure ReadyInv (original : Nat → Option Nat) (graph : CopyGraph) (ready : List Nat)
    (size : Nat) : Prop where
  ok : graph.Ok size
  sub : ∀ i j, graph.src i = some j → original i = some j
  unread : ∀ i ∈ ready, ∀ k, graph.src k ≠ some i
  complete : ∀ i, (graph.src i).isSome → (∀ k, graph.src k ≠ some i) → i ∈ ready

theorem ReadyInv.skip {graph : CopyGraph} {i : Nat} {ready : List Nat}
    (inv : ReadyInv original graph (i :: ready) size) (done : graph.src i = none) :
    ReadyInv original graph ready size where
  ok := inv.ok
  sub := inv.sub
  unread := fun k member => inv.unread k (mem_cons_of_mem i member)
  complete := by
    intro k isPending unread
    rcases mem_cons.mp (inv.complete k isPending unread) with rfl | member
    · rw [done] at isPending
      cases isPending
    · exact member

theorem ReadyInv.move {graph result : CopyGraph} {i j : Nat} {ready : List Nat} {flag : Bool}
    (inv : ReadyInv original graph (i :: ready) size) (edge : graph.src i = some j)
    (ok : result.Ok size) (removed : result.src = update graph.src i none)
    (last : flag = true ↔ ∀ k, result.src k ≠ some j) :
    ReadyInv original result (if flag then j :: ready else ready) size := by
  have old : ∀ k l, result.src k = some l → k ≠ i ∧ graph.src k = some l := by
    intro k l h
    by_cases same : k = i
    · subst same
      rw [removed, update_self] at h
      cases h
    · exact ⟨same, by rwa [removed, update_of_ne same] at h⟩
  have stillUnread : ∀ k ∈ ready, ∀ l, result.src l ≠ some k := fun k member l h =>
    inv.unread k (mem_cons_of_mem i member) l (old l k h).2
  refine ⟨ok, fun k l h => inv.sub k l (old k l h).2, ?_, ?_⟩
  · intro k member
    split at member
    · rename_i isLast
      rcases mem_cons.mp member with rfl | member
      · exact last.mp isLast
      · exact stillUnread k member
    · exact stillUnread k member
  · intro k isPending unread
    obtain ⟨l, read⟩ := Option.isSome_iff_exists.mp isPending
    obtain ⟨away, oldRead⟩ := old k l read
    by_cases before : ∀ m, graph.src m ≠ some k
    · have member : k ∈ i :: ready := inv.complete k (by simp [oldRead]) before
      have member : k ∈ ready := (mem_cons.mp member).resolve_left away
      split
      · exact mem_cons_of_mem j member
      · exact member
    · -- the only edge into `k` is the one just removed
      have target : k = j := by
        by_contra other
        apply before
        intro m h
        by_cases mi : m = i
        · subst mi
          rw [edge] at h
          exact other (Option.some.inj h).symm
        · exact unread m (by rw [removed, update_of_ne mi]; exact h)
      subst target
      rw [if_pos (last.mpr unread)]
      exact mem_cons_self

/-- The ready loop returns, carries the operands, and leaves no pending node unread. -/
theorem readyLoop_ok (placed : Placed pc vals) (covers : Covers pc vals original)
    (tmp : ∀ (i j : Nat) dst val, original i = some j → vals[i]? = some (.reg dst) →
      vals[j]? = some val → copyNeedsTmp dst val → pc.tmp.isSome) :
    ∀ (fuel : Nat) (graph : CopyGraph) (ready : List Nat),
      ReadyInv original graph ready size →
      (pending graph.src size).card + ready.length ≤ fuel →
      ∃ result copies, readyLoop pc vals fuel graph ready = .ok (result, copies) ∧
        ReadyInv original result [] size ∧ Carries pc vals graph.src result.src copies := by
  intro fuel
  induction fuel with
  | zero =>
    intro graph ready inv bound
    have empty : ready = [] := length_eq_zero_iff.mp (by omega)
    subst empty
    exact ⟨graph, [], rfl, inv, Carries.refl _⟩
  | succ fuel ih =>
    intro graph ready inv bound
    cases ready with
    | nil => exact ⟨graph, [], rfl, inv, Carries.refl _⟩
    | cons i ready =>
      rw [length_cons] at bound
      cases edge : graph.src i with
      | none =>
        obtain ⟨result, copies, returned, inv', carries⟩ :=
          ih graph ready (inv.skip edge) (by omega)
        refine ⟨result, copies, ?_, inv', carries⟩
        simp only [readyLoop, edge]
        exact returned
      | some j =>
        have isEdge := inv.sub i j edge
        obtain ⟨dst, atI⟩ := placed.dst i (covers.dst i j isEdge)
        obtain ⟨val, atJ⟩ := covers.val i j isEdge
        obtain ⟨first, emitted⟩ := emitCopy_ok dst val (tmp i j dst val isEdge atI atJ)
        obtain ⟨next, flag, deleted, ok, removed, last⟩ := inv.ok.delEdge edge
        have inside := (inv.ok.bounds i j edge).1
        have fewer := pending_update_none inside edge
        rw [← removed] at fewer
        have shorter : (if flag then j :: ready else ready).length ≤ ready.length + 1 := by
          split <;> simp
        obtain ⟨result, rest, returned, inv', carries⟩ :=
          ih next _ (inv.move edge ok removed last) (by omega)
        refine ⟨result, first ++ rest, ?_, inv', ?_⟩
        · simp only [readyLoop, edge, regAt, atI, Option.bind_some, SrcRef.asReg, expect_some,
            ok_bind, atJ, emitted, deleted, returned]
          rfl
        · have unread := inv.unread i mem_cons_self
          have move := Carries.copy placed emitted atI atJ edge unread
          rw [← removed] at move
          exact move.trans carries

/-- What the cycles of `src` need to be broken: each stays in one file, and the temporary is one
that its file can use. -/
structure Breakable (pc : OpParCopy) (vals : List SrcRef) (src : Nat → Option Nat) : Prop where
  file : ∀ (i j : Nat) a b, src i = some j → vals[i]? = some (.reg a) → vals[j]? = some (.reg b) →
    a.file = b.file
  gpr : ∀ (i : Nat) a tmp, (src i).isSome → vals[i]? = some (.reg a) → a.file = .gpr →
    pc.tmp = some tmp → tmp.file = .gpr
  mem : ∀ (i : Nat) a, (src i).isSome → vals[i]? = some (.reg a) → a.file = .bar ∨ a.file = .mem →
    ∃ tmp single, pc.tmp = some tmp ∧ tmp.comp 1 = .ok single

/-- The invariant of the second phase. -/
structure CycleInv (pc : OpParCopy) (vals : List SrcRef) (src : Nat → Option Nat) : Prop where
  dst : ∀ i j, src i = some j → i < pc.dstsSrcs.length
  breakable : Breakable pc vals src

theorem CycleInv.sub {src src' : Nat → Option Nat} (inv : CycleInv pc vals src)
    (sub : ∀ i j, src' i = some j → src i = some j) : CycleInv pc vals src' := by
  have some : ∀ i, (src' i).isSome → (src i).isSome := by
    intro i isPending
    obtain ⟨j, edge⟩ := Option.isSome_iff_exists.mp isPending
    simp [sub i j edge]
  refine ⟨fun i j edge => inv.dst i j (sub i j edge), ?_, ?_, ?_⟩
  · exact fun i j a b edge => inv.breakable.file i j a b (sub i j edge)
  · exact fun i a tmp isPending => inv.breakable.gpr i a tmp (some i isPending)
  · exact fun i a isPending => inv.breakable.mem i a (some i isPending)

theorem update_none_sub {src : Nat → Option Nat} (node : Nat) :
    ∀ i j, update src node none i = some j → src i = some j := by
  intro i j edge
  by_cases same : i = node
  · subst same
    simp at edge
  · rwa [update_of_ne same] at edge

/-- Taking the middle node out of `i → j → k` keeps the invariant of the second phase. -/
theorem CycleInv.swap (placed : Placed pc vals) {src : Nat → Option Nat}
    (inv : CycleInv pc vals src) {i j k : Nat} (first : src i = some j) (second : src j = some k) :
    CycleInv pc vals
      (update (update src j none) i (if i = k then none else some k)) := by
  have pendingI : (src i).isSome := by simp [first]
  have edges : ∀ a b,
      update (update src j none) i (if i = k then none else some k) a = some b →
        a = i ∧ b = k ∨ src a = some b := by
    intro a b edge
    by_cases same : a = i
    · subst same
      rw [update_self] at edge
      split at edge
      · cases edge
      · cases edge
        exact Or.inl ⟨rfl, rfl⟩
    · rw [update_of_ne same] at edge
      exact Or.inr (update_none_sub j a b edge)
  have some : ∀ a,
      (update (update src j none) i (if i = k then none else some k) a).isSome →
        (src a).isSome := by
    intro a isPending
    obtain ⟨b, edge⟩ := Option.isSome_iff_exists.mp isPending
    rcases edges a b edge with ⟨rfl, -⟩ | old
    · exact pendingI
    · simp [old]
  refine ⟨?_, ?_, ?_, ?_⟩
  · intro a b edge
    rcases edges a b edge with ⟨rfl, -⟩ | old
    · exact inv.dst a j first
    · exact inv.dst a b old
  · intro a b x y edge atA atB
    rcases edges a b edge with ⟨rfl, rfl⟩ | old
    · obtain ⟨z, atJ⟩ := placed.dst j (inv.dst j b second)
      exact (inv.breakable.file a j x z first atA atJ).trans
        (inv.breakable.file j b z y second atJ atB)
    · exact inv.breakable.file a b x y old atA atB
  · exact fun a x tmp isPending => inv.breakable.gpr a x tmp (some a isPending)
  · exact fun a x isPending => inv.breakable.mem a x (some a isPending)

/-- The loop that breaks one cycle by swaps returns, and takes its first node out. -/
theorem swapLoop_ok (placed : Placed pc vals) (i : Nat) :
    ∀ (fuel : Nat) (graph : CopyGraph), graph.Ok size → Cyclic graph.src →
      CycleInv pc vals graph.src → (graph.src i).isSome → (pending graph.src size).card ≤ fuel →
      ∃ result swaps, swapLoop vals i fuel graph = .ok (result, swaps) ∧ result.Ok size ∧
        Cyclic result.src ∧ CycleInv pc vals result.src ∧ result.src i = none ∧
        Carries pc vals graph.src result.src swaps := by
  intro fuel
  induction fuel with
  | zero =>
    intro graph ok _ _ isPending bound
    have member : i ∈ pending graph.src size := (mem_pending ok i).mpr isPending
    have positive := Finset.card_pos.mpr ⟨i, member⟩
    omega
  | succ fuel ih =>
    intro graph ok cyclic inv isPending bound
    obtain ⟨j, first⟩ := Option.isSome_iff_exists.mp isPending
    obtain ⟨k, second⟩ :=
      Option.isSome_iff_exists.mp ((cyclic.pending i j first).resolve_right id)
    obtain ⟨l, third⟩ :=
      Option.isSome_iff_exists.mp ((cyclic.pending j k second).resolve_right id)
    have ij := (ok.bounds i j first).2.2
    have jk := (ok.bounds j k second).2.2
    obtain ⟨x, atJ⟩ := placed.dst j (inv.dst j k second)
    obtain ⟨y, atK⟩ := placed.dst k (inv.dst k l third)
    have swapped := swapRegs_eq (inv.breakable.file j k x y second atJ atK)
    obtain ⟨mid, flag, deleted, okMid, removed, -⟩ := ok.delEdge first
    have secondMid : mid.src j = some k := by rw [removed, update_of_ne ij.symm, second]
    obtain ⟨low, flag', deleted', okLow, removedMid, -⟩ := okMid.delEdge secondMid
    have removed' := removedMid
    rw [removed] at removed'
    have cyclic' := cyclic.swap first second jk
    have inv' := inv.swap placed first second
    have carries := Carries.swap placed cyclic first second jk atJ atK
    by_cases closes : i = k
    · have result : low.src =
          update (update graph.src j none) i (if i = k then none else some k) := by
        rw [removed', if_pos closes, update_comm ij.symm]
      rw [← result] at cyclic' inv' carries
      refine ⟨low, [.new (.swap (.reg x) (.reg y) (.ofReg y) (.ofReg x))], ?_, okLow, cyclic', inv',
        ?_, carries⟩
      · simp only [swapLoop, first, second, regAt, atJ, atK, Option.bind_some, SrcRef.asReg,
          expect_some, ok_bind, swapped, deleted, deleted', if_pos closes]
        rfl
      · rw [removed', update_of_ne ij, update_self]
    · have free : low.src i = none := by
        rw [removed', update_of_ne ij, update_self]
      obtain ⟨next, added, okNext, extended⟩ :=
        okLow.addEdge (ok.bounds i j first).1 (ok.bounds j k second).2.1 closes free
      have result : next.src =
          update (update graph.src j none) i (if i = k then none else some k) := by
        rw [extended, removed', if_neg closes, update_comm ij, update_idem]
      have fewer := pending_update_none (ok.bounds i j first).1 first
      have fewer' : (pending (update mid.src j none) size).card + 1 = _ :=
        pending_update_none (ok.bounds j k second).1 secondMid
      rw [← removed] at fewer
      rw [← removedMid] at fewer'
      have more : (pending next.src size).card ≤ (pending low.src size).card + 1 := by
        rw [← Finset.card_insert_of_notMem (s := pending low.src size) (a := i)
          (by simp [pending, free]), extended]
        apply Finset.card_le_card
        intro m member
        by_cases same : m = i
        · subst same
          exact Finset.mem_insert_self m _
        · apply Finset.mem_insert_of_mem
          simpa [pending, update_of_ne same] using member
      rw [← result] at cyclic' inv' carries
      have isPending' : (next.src i).isSome := by simp [extended]
      obtain ⟨last, rest, returned, okLast, cyclicLast, invLast, out, carriesLast⟩ :=
        ih next okNext cyclic' inv' isPending' (by omega)
      refine ⟨last, _ :: rest, ?_, okLast, cyclicLast, invLast, out, carries.trans carriesLast⟩
      simp only [swapLoop, first, second, regAt, atJ, atK, Option.bind_some, SrcRef.asReg,
        expect_some, ok_bind, swapped, deleted, deleted', if_neg closes, added, returned]
      rfl

/-- The walk around one cycle returns, and takes the node it starts at out. -/
theorem walkLoop_ok (placed : Placed pc vals) {pcTmp tmp : RegRef} {file : RegFile} {i : Nat}
    (present : pc.tmp = some pcTmp) (component : pcTmp.comp 0 = .ok tmp)
    (second : file = .bar ∨ file = .mem → ∃ single, pcTmp.comp 1 = .ok single) :
    ∀ (fuel : Nat) (graph : CopyGraph) (p : Nat) (pReg : RegRef), graph.Ok size →
      Walking graph.src i p → CycleInv pc vals graph.src → (graph.src p).isSome →
      vals[p]? = some (.reg pReg) → pReg.file = file → (pending graph.src size).card ≤ fuel →
      ∃ result copies, walkLoop vals pcTmp tmp file i fuel graph p pReg = .ok (result, copies) ∧
        result.Ok size ∧ Cyclic result.src ∧ CycleInv pc vals result.src ∧ result.src p = none ∧
        CarriesFrom pc vals graph.src result.src i tmp copies := by
  intro fuel
  induction fuel with
  | zero =>
    intro graph p pReg ok _ _ isPending _ _ bound
    have member : p ∈ pending graph.src size := (mem_pending ok p).mpr isPending
    have positive := Finset.card_pos.mpr ⟨p, member⟩
    omega
  | succ fuel ih =>
    intro graph p pReg ok walking inv isPending atP isFile bound
    obtain ⟨j, edge⟩ := Option.isSome_iff_exists.mp isPending
    obtain ⟨next, flag, deleted, okNext, removed, -⟩ := ok.delEdge edge
    have invNext : CycleInv pc vals next.src := by
      rw [removed]
      exact inv.sub (update_none_sub p)
    have out : next.src p = none := by rw [removed, update_self]
    by_cases back : j = i
    · subst back
      have cyclic := walking.restore edge
      have carries : CarriesFrom pc vals _ _ _ tmp _ :=
        CarriesFrom.restore placed walking edge atP
      rw [← removed] at cyclic carries
      refine ⟨next, [copyTo pReg (.reg tmp)], ?_, okNext, cyclic, invNext, out, carries⟩
      simp only [walkLoop, edge, expect_some, ok_bind, ↓reduceIte, deleted]
      rfl
    · have jPending := (walking.pending p j edge).resolve_right back
      obtain ⟨k, edge'⟩ := Option.isSome_iff_exists.mp jPending
      obtain ⟨jReg, atJ⟩ := placed.dst j (inv.dst j k edge')
      have sameFile : jReg.file = file :=
        (inv.breakable.file p j pReg jReg edge atP atJ).symm.trans isFile
      obtain ⟨step, emitted⟩ := emitStep_ok second pReg jReg
      have walkingNext := walking.move edge
      have jp : j ≠ p := (ok.bounds p j edge).2.2.symm
      have jPendingNext : (next.src j).isSome := by
        rw [removed, update_of_ne jp]
        exact jPending
      have fewer := pending_update_none (ok.bounds p j edge).1 edge
      rw [← removed] at walkingNext fewer
      obtain ⟨last, rest, returned, okLast, cyclic, invLast, -, carries⟩ :=
        ih next j jReg okNext walkingNext invNext jPendingNext atJ sameFile (by omega)
      have outLast : last.src p = none := by
        by_contra still
        have := carries.fewer p (Option.ne_none_iff_isSome.mp still)
        rw [out] at this
        cases this
      rw [removed] at carries
      refine ⟨last, step ++ rest, ?_, okLast, cyclic, invLast, outLast,
        CarriesFrom.move placed present component emitted atP atJ walking edge back carries⟩
      simp only [walkLoop, edge, expect_some, ok_bind, if_neg back, regAt, atJ, Option.bind_some,
        SrcRef.asReg, sameFile, decide_true, assertThat_true, emitted, deleted, returned]
      rfl

/-- The body of the second phase returns, carries the operands, and takes `i` out. -/
theorem breakCycle_ok (placed : Placed pc vals) {fuel i : Nat} {graph : CopyGraph}
    (ok : graph.Ok size) (cyclic : Cyclic graph.src) (inv : CycleInv pc vals graph.src)
    (bound : (pending graph.src size).card ≤ fuel) :
    ∃ result instrs, breakCycle pc vals fuel graph i = .ok (result, instrs) ∧ result.Ok size ∧
      Cyclic result.src ∧ CycleInv pc vals result.src ∧ result.src i = none ∧
      Carries pc vals graph.src result.src instrs := by
  cases edge : graph.src i with
  | none =>
    have unread : graph.numReads i = 0 := by
      rw [numReads_eq_zero ok]
      intro k read
      have := (cyclic.pending k i read).resolve_right id
      rw [edge] at this
      cases this
    refine ⟨graph, [], ?_, ok, cyclic, inv, edge, Carries.refl _⟩
    simp only [breakCycle, edge, unread, decide_true, assertThat_true, ok_bind]
    rfl
  | some j =>
    have isPending : (graph.src i).isSome := by simp [edge]
    obtain ⟨iReg, atI⟩ := placed.dst i (inv.dst i j edge)
    -- the temporary is used for the files that have one; the others are swapped
    have choice : cycleUseSwap pc iReg.file = .ok true ∨
        cycleUseSwap pc iReg.file = .ok false ∧ ∃ pcTmp, pc.tmp = some pcTmp ∧
          (iReg.file = .bar ∨ iReg.file = .mem → ∃ single, pcTmp.comp 1 = .ok single) := by
      have special : iReg.file = .bar ∨ iReg.file = .mem →
          ∃ pcTmp single, pc.tmp = some pcTmp ∧ pcTmp.comp 1 = .ok single ∧ 2 ≤ pcTmp.comps := by
        intro isSpecial
        obtain ⟨pcTmp, single, present, component⟩ :=
          inv.breakable.mem i iReg isPending atI isSpecial
        exact ⟨pcTmp, single, present, component, (RegRef.comp_eq_ok.mp component).1⟩
      cases isFile : iReg.file with
      | gpr =>
        cases present : pc.tmp with
        | none =>
          left
          simp only [cycleUseSwap, present]
          rfl
        | some pcTmp =>
          have isGpr := inv.breakable.gpr i iReg pcTmp isPending atI isFile present
          refine Or.inr ⟨?_, pcTmp, rfl, by simp⟩
          simp only [cycleUseSwap, present, isGpr, decide_true, assertThat_true, ok_bind]
          rfl
      | bar | mem =>
        obtain ⟨pcTmp, single, present, component, two⟩ := special (by simp [isFile])
        refine Or.inr ⟨?_, pcTmp, present, fun _ => ⟨single, component⟩⟩
        simp only [cycleUseSwap, present, expect_some, two, decide_true, assertThat_true, ok_bind]
        rfl
      | ugpr | pred | upred | carry => exact Or.inl rfl
    rcases choice with useSwap | ⟨useTmp, pcTmp, present, second⟩
    · obtain ⟨result, swaps, returned, rest⟩ :=
        swapLoop_ok placed i fuel graph ok cyclic inv isPending bound
      refine ⟨result, swaps, ?_, rest⟩
      simp only [breakCycle, edge, regAt, atI, Option.bind_some, SrcRef.asReg, expect_some,
        ok_bind, useSwap, ↓reduceIte]
      exact returned
    · have first : ∃ tmp, pcTmp.comp 0 = .ok tmp := by
        have base := pcTmp.base_le
        have comps := pcTmp.comps_range.1
        simp [RegRef.comp, RegRef.new, base, comps]
      obtain ⟨tmp, component⟩ := first
      obtain ⟨result, copies, returned, okR, cyclicR, invR, out, carries⟩ :=
        walkLoop_ok placed present component second fuel graph i iReg ok (cyclic.walk i) inv
          isPending atI rfl bound
      refine ⟨result, copyTo tmp (.reg iReg) :: copies, ?_, okR, cyclicR, invR, out,
        carries.save placed (IsTmp.comp present component) atI⟩
      simp only [breakCycle, edge, regAt, atI, Option.bind_some, SrcRef.asReg, expect_some,
        ok_bind, useTmp, Bool.false_eq_true, ↓reduceIte, present, component, returned]
      rfl

/-- The second phase returns and takes every node of `nodes` out. -/
theorem cycleLoop_ok (placed : Placed pc vals) (fuel : Nat) :
    ∀ (nodes : List Nat) (graph : CopyGraph), graph.Ok size → Cyclic graph.src →
      CycleInv pc vals graph.src → (pending graph.src size).card ≤ fuel →
      ∃ result instrs, cycleLoop pc vals fuel nodes graph = .ok (result, instrs) ∧
        (∀ i ∈ nodes, result.src i = none) ∧ Carries pc vals graph.src result.src instrs := by
  intro nodes
  induction nodes with
  | nil =>
    intro graph _ _ _ _
    exact ⟨graph, [], rfl, by simp, Carries.refl _⟩
  | cons i nodes ih =>
    intro graph ok cyclic inv bound
    obtain ⟨next, first, broke, okNext, cyclicNext, invNext, out, carries⟩ :=
      breakCycle_ok (i := i) placed ok cyclic inv bound
    have fewer : (pending next.src size).card ≤ (pending graph.src size).card := by
      apply Finset.card_le_card
      intro k member
      exact (mem_pending ok k).mpr (carries.fewer k ((mem_pending okNext k).mp member))
    obtain ⟨result, later, returned, outs, carriesLater⟩ :=
      ih next okNext cyclicNext invNext (by omega)
    refine ⟨result, first ++ later, ?_, ?_, carries.trans carriesLater⟩
    · simp only [cycleLoop, broke, ok_bind, returned]
      rfl
    · intro k member
      rcases mem_cons.mp member with rfl | member
      · by_contra still
        have := carriesLater.fewer k (Option.ne_none_iff_isSome.mp still)
        rw [out] at this
        cases this
      · exact outs k member

end CoralReef.LowerParCopy
