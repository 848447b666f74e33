import CoralReef.Codegen.CalcInstrDeps.Proofs.Bars
import CoralReef.Codegen.CalcInstrDeps.Proofs.Correct
import CoralReef.Codegen.CalcInstrDeps.Proofs.Tracks

/-!
# Hazards are separated by waits

Between two branches a run goes through the instructions in the order of the blocks, and a branch
waits on whatever is signalled before it. So what holds in this order holds on every run.
-/

open List

namespace CoralReef

open Postpass

/-! ## Places -/

section Places

variable {α : Type}

/-- The entries of some rows with their places, from the row `k` on. -/
def placesFrom (k : Nat) : List (List α) → List (Point × α)
  | [] => []
  | row :: rows => (row.zipIdx.map fun (a, ip) => (⟨k, ip⟩, a)) ++ placesFrom (k + 1) rows

theorem mem_placesFrom {p : Point} {a : α} : ∀ {rows : List (List α)} {k : Nat},
    (p, a) ∈ placesFrom k rows ↔
      k ≤ p.block ∧ (rows[p.block - k]?.bind fun row => row[p.ip]?) = some a := by
  intro rows
  induction rows with
  | nil => simp [placesFrom]
  | cons row rows hind =>
      intro k
      rw [placesFrom, mem_append, hind, mem_map]
      constructor
      · rintro (⟨⟨a', ip⟩, member, placed⟩ | ⟨above, found⟩)
        · cases placed
          refine ⟨Nat.le_refl k, ?_⟩
          rw [Nat.sub_self]
          exact mem_zipIdx_iff_getElem?.mp member
        · refine ⟨by omega, ?_⟩
          have shift : p.block - k = p.block - (k + 1) + 1 := by omega
          rw [shift, List.getElem?_cons_succ, found]
      · rintro ⟨above, found⟩
        by_cases same : p.block = k
        · left
          rw [same, Nat.sub_self, List.getElem?_cons_zero] at found
          refine ⟨(a, p.ip), mem_zipIdx_iff_getElem?.mpr found, ?_⟩
          rw [← same]
        · right
          refine ⟨by omega, ?_⟩
          have shift : p.block - k = p.block - (k + 1) + 1 := by omega
          rwa [shift, List.getElem?_cons_succ] at found

theorem placesFrom_sorted : ∀ (rows : List (List α)) (k : Nat),
    (placesFrom k rows).Pairwise fun a b => a.1.Before b.1 := by
  intro rows
  induction rows with
  | nil => exact fun _ => .nil
  | cons row rows hind =>
      intro k
      rw [placesFrom, pairwise_append]
      refine ⟨?_, hind (k + 1), ?_⟩
      · rw [pairwise_map, pairwise_iff_getElem]
        intro i j inside inside' less
        rw [getElem_zipIdx, getElem_zipIdx]
        exact .inr ⟨rfl, by simpa using less⟩
      · rintro _ first ⟨q, b⟩ second
        rcases mem_map.mp first with ⟨_, _, rfl⟩
        exact .inl (mem_placesFrom.mp second).1

end Places

theorem instrPoints_eq (blocks : List BasicBlock) :
    instrPoints blocks = placesFrom 0 (blocks.map BasicBlock.instrs) := by
  have from_k : ∀ (blocks : List BasicBlock) (k : Nat),
      ((blocks.zipIdx k).flatMap fun block =>
        block.1.instrs.zipIdx.map fun instr => ((⟨block.2, instr.2⟩ : Point), instr.1)) =
      placesFrom k (blocks.map BasicBlock.instrs) := by
    intro blocks
    induction blocks with
    | nil => exact fun _ => rfl
    | cons block blocks hind =>
        intro k
        rw [zipIdx_cons, flatMap_cons, hind (k + 1)]
        rfl
  exact from_k blocks 0

theorem instrAt_iff {blocks : List DepBlock} {p : Point} {instr : DepInstr} :
    instrAt blocks p = some instr ↔ (p, instr) ∈ placesFrom 0 (blocks.map DepBlock.instrs) := by
  rw [mem_placesFrom, instrAt, List.getElem?_map, Nat.sub_zero, Option.bind_map]
  exact (and_iff_right (Nat.zero_le _)).symm

namespace AssignBarriers

theorem barAll_cons {sm : ShaderModel} {graph : DepGraph} {p : Point} {instr : Instr}
    {rest : List (Point × Instr)} {c : DepInstr} {out : List (Point × DepInstr)}
    {bars bars' final : BarAlloc} (first : barInstr sm graph bars (p, instr) = .ok (c, bars'))
    (later : barAll sm graph rest bars' = .ok (out, final)) :
    barAll sm graph ((p, instr) :: rest) bars = .ok ((p, c) :: out, final) := by
  unfold barAll at later ⊢
  rw [mapAccumM, first]
  simp only [ok_bind]
  change (mapAccumM _ rest bars' >>= _) = _
  rw [later]
  rfl

/-- The second loop goes through the places. -/
theorem barBlocks_places {sm : ShaderModel} {graph : DepGraph} :
    ∀ (blocks : List BasicBlock) (k : Nat) {out : List DepBlock} {bars final : BarAlloc},
      mapAccumM (barBlock sm graph) (blocks.zipIdx k) bars = .ok (out, final) →
      barAll sm graph (placesFrom k (blocks.map BasicBlock.instrs)) bars =
        .ok (placesFrom k (out.map DepBlock.instrs), final) := by
  have row : ∀ (b : Nat) (instrs : List (Instr × Nat)) {out : List DepInstr} {n : Nat}
      {bars final : BarAlloc}, (∀ i entry, instrs[i]? = some entry → entry.2 = n + i) →
      mapAccumM (fun bars instr => barInstr sm graph bars (⟨b, instr.2⟩, instr.1)) instrs bars =
        .ok (out, final) →
      barAll sm graph (instrs.map fun instr => (⟨b, instr.2⟩, instr.1)) bars =
        .ok ((out.zipIdx n).map fun instr => (⟨b, instr.2⟩, instr.1), final) := by
    intro b instrs
    induction instrs with
    | nil =>
        intro out n bars final _ returned
        cases returned
        rfl
    | cons entry instrs hind =>
        intro out n bars final numbered returned
        rw [mapAccumM] at returned
        rcases bind_eq_ok.mp returned with ⟨⟨c, bars'⟩, stepped, returned⟩
        rcases bind_eq_ok.mp returned with ⟨⟨rest, final'⟩, continued, returned⟩
        cases returned
        rcases entry with ⟨instr, ip⟩
        have first : ip = n := numbered 0 (instr, ip) rfl
        dsimp only at stepped
        have later := hind (n := n + 1) (fun i entry' found => by
          rw [numbered (i + 1) entry' found]
          omega) continued
        rw [map_cons, zipIdx_cons, map_cons, ← first]
        rw [← first] at later
        exact barAll_cons stepped later
  intro blocks
  induction blocks with
  | nil =>
      intro k out bars final returned
      cases returned
      rfl
  | cons block blocks hind =>
      intro k out bars final returned
      rw [zipIdx_cons, mapAccumM] at returned
      rcases bind_eq_ok.mp returned with ⟨⟨placed, bars'⟩, stepped, returned⟩
      rcases bind_eq_ok.mp returned with ⟨⟨rest, final'⟩, continued, returned⟩
      cases returned
      rcases bind_eq_ok.mp stepped with ⟨⟨instrs, bars''⟩, inBlock, isPlaced⟩
      cases isPlaced
      have first := row k block.instrs.zipIdx (n := 0) (fun i entry found => by
        rw [List.getElem?_zipIdx] at found
        rcases Option.map_eq_some_iff.mp found with ⟨_, _, rfl⟩
        rfl) inBlock
      exact mapAccumM_append (hind (k + 1) continued) first

end AssignBarriers

/-! ## Runs between branches -/

section

variable {blocks : List DepBlock} {run : List Point}

theorem Point.Before.total {p q : Point} (differ : p ≠ q) : p.Before q ∨ q.Before p := by
  have apart : p.block ≠ q.block ∨ p.ip ≠ q.ip := by
    by_contra equal
    push Not at equal
    exact differ (by cases p; cases q; simp_all)
  unfold Before
  omega

/-- No instruction lies between the head of a block and where control enters. -/
theorem Enters.first {b : Nat} {q : Point} (enters : Enters blocks b q) :
    b ≤ q.block ∧ ∀ r c, instrAt blocks r = some c → b ≤ r.block → ¬r.Before q := by
  induction enters with
  | here _ =>
      refine ⟨Nat.le_refl _, ?_⟩
      intro r c _ above before
      unfold Point.Before at before
      dsimp only at before
      omega
  | @skip b block q isBlock empty _ hind =>
      refine ⟨by omega, ?_⟩
      intro r c isInstr above
      by_cases same : r.block = b
      · rw [instrAt, same, isBlock, Option.bind_some, empty] at isInstr
        cases isInstr
      · exact hind.2 r c isInstr (by omega)

/-- Control passes an instruction that is no branch to the next one in the order of the blocks. -/
theorem Flow.linear {p q : Point} (flow : Flow blocks p q)
    (passes : ∀ c, instrAt blocks p = some c → c.isBranch = false) :
    p.Before q ∧ ∀ r c, instrAt blocks r = some c → p.Before r → ¬r.Before q := by
  cases flow with
  | next =>
      unfold Point.Before
      dsimp only
      refine ⟨by omega, ?_⟩
      intro r c _ above
      omega
  | branch here isTarget =>
      rw [Op.target_eq_none (passes _ here)] at isTarget
      cases isTarget
  | fall here _ last enters =>
      rcases enters.first with ⟨above, first⟩
      refine ⟨.inl (by omega), ?_⟩
      intro r c isInstr after
      apply first r c isInstr
      rcases after with less | ⟨same, less⟩
      · omega
      · exfalso
        rw [instrAt, ← same] at isInstr
        rw [instrAt] at last
        rcases Option.bind_eq_some_iff.mp isInstr with ⟨block, isBlock, inBlock⟩
        rw [isBlock, Option.bind_some, List.getElem?_eq_none_iff] at last
        dsimp only at last
        have inside := (List.getElem?_eq_some_iff.mp inBlock).1
        omega

/-- While no branch is executed, a run goes through every instruction in between. -/
theorem Run.linear (isRun : Run blocks run) {i : Nat} {p : Point} (here : run[i]? = some p) :
    ∀ (n : Nat) {q : Point}, run[i + n]? = some q →
      (∀ k r c, i ≤ k → k < i + n → run[k]? = some r → instrAt blocks r = some c →
        c.isBranch = false) →
      (0 < n → p.Before q) ∧ ∀ r c, instrAt blocks r = some c → p.Before r → ¬q.Before r →
        ∃ k, i < k ∧ k ≤ i + n ∧ run[k]? = some r := by
  intro n
  induction n with
  | zero =>
      intro q there _
      rw [Nat.add_zero, here] at there
      cases there
      exact ⟨fun never => absurd never (Nat.lt_irrefl 0),
        fun r c _ after notAfter => absurd after notAfter⟩
  | succ n hind =>
      intro q there straight
      have inside : i + n + 1 < run.length := (List.getElem?_eq_some_iff.mp there).1
      rcases (⟨_, List.getElem?_eq_getElem (by omega)⟩ : ∃ r, run[i + n]? = some r) with
        ⟨last, isLast⟩
      rcases hind isLast fun k r c above below => straight k r c above (by omega) with
        ⟨sofar, visited⟩
      rcases (isRun.flow isLast there).linear
        (fun c isC => straight (i + n) last c (by omega) (by omega) isLast isC) with ⟨step, adjacent⟩
      constructor
      · intro _
        rcases Nat.eq_zero_or_pos n with rfl | positive
        · rw [Nat.add_zero, here] at isLast
          cases isLast
          exact step
        · exact (sofar positive).trans step
      · intro r c isC after notAfter
        by_cases later : last.Before r
        · have same : r = q := by
            by_contra differ
            rcases Point.Before.total differ with before | before
            · exact adjacent r c isC later before
            · exact notAfter before
          exact ⟨i + (n + 1), by omega, Nat.le_refl _, same ▸ there⟩
        · rcases visited r c isC after later with ⟨k, above, upTo, atK⟩
          exact ⟨k, above, by omega, atK⟩

end

/-- After step `i` and up to step `j` of a run, an instruction waits on the barrier, and no
instruction in between signals it. -/
def SeparatedBy (blocks : List DepBlock) (run : List Point) (i j bar : Nat) : Prop :=
  ∃ k p instr, i < k ∧ k ≤ j ∧ run[k]? = some p ∧ instrAt blocks p = some instr ∧
    instr.deps.WaitsOn bar ∧ ∀ m q between, i < m → m < k → run[m]? = some q →
      instrAt blocks q = some between → ¬between.deps.Sets bar

namespace AssignBarriers

open CoralReef.AssignBarriers.DepGraph

section

variable {blocks : List DepBlock} {run : List Point}

/-- What is settled in the order of the blocks is settled on a run without branches. -/
theorem Settled.separatedBy {p q : Point} {bar i n : Nat} (isRun : Run blocks run)
    (settled : Settled (placesFrom 0 (blocks.map DepBlock.instrs)) p q bar)
    (here : run[i]? = some p) (there : run[i + n]? = some q)
    (straight : ∀ k r c, i ≤ k → k < i + n → run[k]? = some r → instrAt blocks r = some c →
      c.isBranch = false) : SeparatedBy blocks run i (i + n) bar := by
  rcases settled with ⟨r, c, member, after, upTo, waits, clear⟩
  have isC := instrAt_iff.mpr member
  rcases (isRun.linear here n there straight).2 r c isC after upTo with ⟨k, above, below, atK⟩
  refine ⟨k, r, c, above, below, atK, isC, waits, ?_⟩
  intro m s e aboveM belowM atM isE
  have fromI : i + (m - i) = m := by omega
  have toK : m + (k - m) = k := by omega
  apply clear s e (instrAt_iff.mp isE)
  · apply (isRun.linear here (m - i) (by rw [fromI]; exact atM) ?_).1 (by omega)
    exact fun k' r' c' first last => straight k' r' c' first (by omega)
  · apply (isRun.linear atM (k - m) (by rw [toK]; exact atK) ?_).1 (by omega)
    exact fun k' r' c' first last => straight k' r' c' (by omega) (by omega)

/-- The first branch after a step, or the last step. -/
theorem exists_stop (blocks : List DepBlock) (run : List Point) (i : Nat) : ∀ (n : Nat),
    ∃ m ≤ n, (m = n ∨ ∃ r c, run[i + 1 + m]? = some r ∧ instrAt blocks r = some c ∧
        c.isBranch = true) ∧
      ∀ k r c, i + 1 ≤ k → k < i + 1 + m → run[k]? = some r → instrAt blocks r = some c →
        c.isBranch = false := by
  intro n
  induction n with
  | zero => exact ⟨0, Nat.le_refl 0, .inl rfl, fun k _ _ above below => absurd below (by omega)⟩
  | succ n hind =>
      rcases hind with ⟨m, upTo, stops, straight⟩
      by_cases branch : ∃ r c, run[i + 1 + m]? = some r ∧ instrAt blocks r = some c ∧
          c.isBranch = true
      · exact ⟨m, by omega, .inr branch, straight⟩
      · have isEnd : m = n := stops.resolve_right branch
        refine ⟨n + 1, Nat.le_refl _, .inl rfl, ?_⟩
        intro k r c above below atK isC
        by_cases last : k = i + 1 + m
        · by_contra isBranch
          exact branch ⟨r, c, last ▸ atK, isC, by simpa using isBranch⟩
        · exact straight k r c above (by omega) atK isC

end

/-- The two loops over the blocks of a function, which become `out`. -/
structure Placed (sm : ShaderModel) (out : List DepBlock) (graph : DepGraph) (bars : BarAlloc) :
    Prop where
  numbered : graph.Numbered ((placesFrom 0 (out.map DepBlock.instrs)).map Prod.fst)
  pair : ∀ p a, instrAt out p = some a → sm.opNeedsScoreboard a.op = true →
    ∃ rd wr, graph.instrDeps p = some (rd, wr) ∧ a.isBranch = false
  apart : ∀ p q a b rd wr, instrAt out p = some a → instrAt out q = some b → p.Before q →
    graph.instrDeps p = some (rd, wr) → Apart graph rd wr q a.toInstr b.toInstr
  barred : Barred graph (placesFrom 0 (out.map DepBlock.instrs)) bars

theorem assignBarriers_placed {sm : ShaderModel} {blocks : List BasicBlock} {out : List DepBlock}
    (once : ∀ block ∈ blocks, ∀ instr ∈ block.instrs, instr.writes.Nodup)
    (assigned : assignBarriers sm blocks = .ok out) :
    ∃ graph bars, Placed sm out graph bars := by
  rcases bind_eq_ok.mp assigned with ⟨state, tracked, assigned⟩
  rcases bind_eq_ok.mp assigned with ⟨⟨out', final⟩, barred, returned⟩
  cases returned
  have sorted := placesFrom_sorted (blocks.map BasicBlock.instrs) 0
  have once' : ∀ entry ∈ placesFrom 0 (blocks.map BasicBlock.instrs), entry.2.writes.Nodup := by
    rintro ⟨p, instr⟩ member
    rcases Option.bind_eq_some_iff.mp (mem_placesFrom.mp member).2 with ⟨row, isRow, inRow⟩
    rcases mem_map.mp (mem_of_getElem? isRow) with ⟨block, isBlock, rfl⟩
    exact once block isBlock instr (mem_of_getElem? inRow)
  rw [instrPoints_eq] at tracked
  have tracks := tracks_all _ [] (tracks_nil sm) sorted once' tracked
  rw [nil_append] at tracks
  have unowned : ∀ entry ∈ placesFrom 0 (blocks.map BasicBlock.instrs),
      sm.opNeedsScoreboard entry.2.op = false → state.deps.instrDeps entry.1 = none := by
    rintro ⟨p, instr⟩ member fixed
    rw [Option.eq_none_iff_forall_ne_some]
    rintro ⟨rd, wr⟩ isPair
    rw [(tracks.owners p instr rd wr member isPair).2] at fixed
    cases fixed
  rcases barred_all tracks.numbered unowned _ [] rfl sorted rfl (barred_nil state.deps)
    (barBlocks_places blocks 0 barred) with ⟨kept, same, owned⟩
  rw [nil_append] at kept same
  have source : ∀ {r : Point} {c : DepInstr}, instrAt out r = some c →
      (r, c.toInstr) ∈ placesFrom 0 (blocks.map BasicBlock.instrs) := by
    intro r c isC
    rw [← same]
    exact mem_map_of_mem (f := fun e : Point × DepInstr => (e.1, e.2.toInstr))
      (instrAt_iff.mp isC)
  refine ⟨state.deps, final, ⟨?_, ?_, ?_, kept⟩⟩
  · have numbered := tracks.numbered
    rw [← same, map_map] at numbered
    exact numbered
  · intro p a isA needs
    rcases Option.ne_none_iff_exists'.mp (owned _ (source isA) needs) with ⟨⟨rd, wr⟩, isPair⟩
    exact ⟨rd, wr, isPair, (tracks.owners p a.toInstr rd wr (source isA) isPair).1⟩
  · intro p q a b rd wr isA isB before isPair
    exact tracks.apart p a.toInstr rd wr q b.toInstr (source isA) (source isB) before isPair

section

variable {sm : ShaderModel} {out : List DepBlock} {graph : DepGraph} {bars : BarAlloc}
  {p q : Point} {a : DepInstr} {rd wr dep : Nat}

/-- After everything is done, a barrier that is kept has been waited on. -/
theorem Placed.settled (placed : Placed sm out graph bars) {bar : Fin 6} {w : Point}
    (kept : Kept graph (placesFrom 0 (out.map DepBlock.instrs)) bars p dep bar)
    (waited : graph.firstWait dep = some w) (notLater : ¬q.Before w) :
    Settled (placesFrom 0 (out.map DepBlock.instrs)) p q bar.val := by
  rcases kept w waited with ⟨_, ahead, _⟩ | ⟨s, c, member, after, notAfter, waits, clear⟩
  · exact absurd (placed.numbered.later dep w waited).1 ahead
  · refine ⟨s, c, member, after, ?_, waits, clear⟩
    intro late
    by_cases equal : w = s
    · exact notLater (equal ▸ late)
    · exact notLater (late.trans ((Point.Before.total equal).resolve_left notAfter))

theorem Placed.writes (placed : Placed sm out graph bars) (isA : instrAt out p = some a)
    (isPair : graph.instrDeps p = some (rd, wr)) (done : graph.DoneBy q wr) :
    ∃ bar, a.deps.wrBar = some bar ∧
      Settled (placesFrom 0 (out.map DepBlock.instrs)) p q bar := by
  rcases done with ⟨w, waited, notLater⟩ | ⟨v, w, reads, _⟩
  · rcases placed.barred.writes p a rd wr (instrAt_iff.mp isA) isPair ⟨w, waited⟩ with
      ⟨bar, isSet, kept⟩
    exact ⟨bar.val, isSet, placed.settled kept waited notLater⟩
  · exact absurd reads
      (placed.numbered.paired wr rd (placed.numbered.pair p rd wr isPair).2.2.2 v)

theorem Placed.reads (placed : Placed sm out graph bars) (isA : instrAt out p = some a)
    (isPair : graph.instrDeps p = some (rd, wr)) (done : graph.DoneBy q rd) :
    ∃ bar, (a.deps.rdBar = some bar ∨ a.deps.wrBar = some bar) ∧
      Settled (placesFrom 0 (out.map DepBlock.instrs)) p q bar := by
  rcases done with ⟨w, waited, notLater⟩ | ⟨v, w, reads, waited, notLater⟩
  · rcases placed.barred.reads p a rd wr (instrAt_iff.mp isA) isPair ⟨w, waited⟩ with
      ⟨bar, isSet, kept⟩
    exact ⟨bar.val, .inl isSet, placed.settled kept waited notLater⟩
  · -- the writes of the same instruction are waited on
    have isWr : v = wr := by
      rcases placed.numbered.reader v rd reads with ⟨p', isPair'⟩
      by_cases equal : p' = p
      · subst equal
        rw [isPair] at isPair'
        cases isPair'
        rfl
      · have owns : graph.Owns p rd := ⟨rd, wr, isPair, .inl rfl⟩
        have owns' : graph.Owns p' rd := ⟨rd, v, isPair', .inl rfl⟩
        rcases Point.Before.total equal with less | less
        · exact absurd (placed.numbered.ordered p' p rd rd owns' owns less) (Nat.lt_irrefl rd)
        · exact absurd (placed.numbered.ordered p p' rd rd owns owns' less) (Nat.lt_irrefl rd)
    subst isWr
    rcases placed.writes isA isPair (.inl ⟨w, waited, notLater⟩) with ⟨bar, isSet, settled⟩
    exact ⟨bar, .inr isSet, settled⟩

end

end AssignBarriers

open AssignBarriers in
/-- Where no instruction names a register in two destinations, every access that has to wait for an
instruction of variable latency waits on a barrier that this instruction signals, on every run, and
the barrier is not signalled for another one before. Guards are read at once. -/
theorem assignBarriers_separates {sm : ShaderModel} {blocks : List BasicBlock}
    {out : List DepBlock}
    (once : ∀ block ∈ blocks, ∀ instr ∈ block.instrs, instr.writes.Nodup)
    (assigned : assignBarriers sm blocks = .ok out) {run : List Point} (isRun : Run out run)
    {i j : Nat} {p q : Point} {a b : DepInstr} (order : i < j) (atI : run[i]? = some p)
    (atJ : run[j]? = some q) (isA : instrAt out p = some a) (isB : instrAt out q = some b)
    (needs : sm.opNeedsScoreboard a.op = true) :
    (a.WriteHazard b.toInstr →
      ∃ bar, a.deps.wrBar = some bar ∧ SeparatedBy out run i j bar) ∧
    (a.SourceHazard b.toInstr →
      ∃ bar, (a.deps.rdBar = some bar ∨ a.deps.wrBar = some bar) ∧
        SeparatedBy out run i j bar) := by
  rcases assignBarriers_placed once assigned with ⟨graph, bars, placed⟩
  rcases placed.pair p a isA needs with ⟨rd, wr, isPair, passes⟩
  rcases exists_stop out run i (j - (i + 1)) with ⟨m, upTo, stops, straight⟩
  have inside : j < run.length := (List.getElem?_eq_some_iff.mp atJ).1
  rcases (⟨_, List.getElem?_eq_getElem (by omega)⟩ : ∃ r, run[i + (1 + m)]? = some r) with
    ⟨r, atR⟩
  have straight' : ∀ k s c, i ≤ k → k < i + (1 + m) → run[k]? = some s →
      instrAt out s = some c → c.isBranch = false := by
    intro k s c above below atK isC
    by_cases first : k = i
    · subst first
      rw [atI] at atK
      cases atK
      rw [isA] at isC
      cases isC
      exact passes
    · exact straight k s c (by omega) (by omega) atK isC
  have before := (isRun.linear atI (1 + m) atR straight').1 (by omega)
  -- up to the stop the run follows the order of the blocks
  have separated : ∀ {bar : Nat}, Settled (placesFrom 0 (out.map DepBlock.instrs)) p r bar →
      SeparatedBy out run i j bar := by
    intro bar settled
    rcases settled.separatedBy isRun atI atR straight' with ⟨k, s, c, above, below, rest⟩
    exact ⟨k, s, c, above, by omega, rest⟩
  have write : graph.DoneBy r wr →
      ∃ bar, a.deps.wrBar = some bar ∧ SeparatedBy out run i j bar := by
    intro done
    rcases placed.writes isA isPair done with ⟨bar, isSet, settled⟩
    exact ⟨bar, isSet, separated settled⟩
  have read : graph.DoneBy r rd →
      ∃ bar, (a.deps.rdBar = some bar ∨ a.deps.wrBar = some bar) ∧
        SeparatedBy out run i j bar := by
    intro done
    rcases placed.reads isA isPair done with ⟨bar, isSet, settled⟩
    exact ⟨bar, isSet, separated settled⟩
  by_cases branch : ∃ r c, run[i + 1 + m]? = some r ∧ instrAt out r = some c ∧ c.isBranch = true
  · rcases branch with ⟨r', c, atR', isC, isBranch⟩
    rw [Nat.add_assoc, atR] at atR'
    cases atR'
    have apart := (placed.apart p r a c rd wr isA isC before isPair).2 isBranch
    constructor
    · rintro ⟨slot, written, _⟩
      exact write (apart.1 (List.ne_nil_of_mem written))
    · rintro ⟨slot, _, isRead⟩
      exact read (apart.2 (List.ne_nil_of_mem isRead))
  · have isEnd : m = j - (i + 1) := stops.resolve_right branch
    have isJ : i + (1 + m) = j := by omega
    rw [isJ, atJ] at atR
    cases atR
    have notBranch : b.isBranch = false := by
      by_contra isBranch
      apply branch
      refine ⟨q, b, ?_, isB, by simpa using isBranch⟩
      rw [Nat.add_assoc, isJ]
      exact atJ
    have apart := (placed.apart p q a b rd wr isA isB before isPair).1 notBranch
    exact ⟨fun hazard => write (apart.1 hazard), fun hazard => read (apart.2 hazard)⟩

/-- The load and its use. -/
def loadThenUse : List BasicBlock :=
  [{ label := ⟨0⟩, instrs := [loadInstr.toInstr, addInstr.toInstr, exitInstr.toInstr] }]

def loadThenUseBarred : List DepBlock :=
  [{ label := ⟨0⟩, instrs := [
    { toInstr := loadInstr.toInstr, deps := { wrBar := some 0 } },
    { toInstr := addInstr.toInstr, deps := { wtBarMask := 1 } }, exitInstr] }]

/-- The use waits on the barrier that the load signals. -/
theorem assignBarriers_separates_loadThenUse :
    AssignBarriers.assignBarriers shaderModel50 loadThenUse = .ok loadThenUseBarred ∧
      Run loadThenUseBarred [⟨0, 0⟩, ⟨0, 1⟩] ∧
      ∃ bar, some 0 = some bar ∧ SeparatedBy loadThenUseBarred [⟨0, 0⟩, ⟨0, 1⟩] 0 1 bar := by
  have isOut : AssignBarriers.assignBarriers shaderModel50 loadThenUse = .ok loadThenUseBarred := by
    decide +kernel
  have isRun : Run loadThenUseBarred [⟨0, 0⟩, ⟨0, 1⟩] := by
    constructor
    · intro p first
      cases first
      exact .here rfl
    · exact .cons_cons (.next rfl rfl rfl) (.singleton _)
  have once : ∀ block ∈ loadThenUse, ∀ instr ∈ block.instrs, instr.writes.Nodup := by decide
  exact ⟨isOut, isRun, (assignBarriers_separates once isOut isRun Nat.zero_lt_one rfl rfl rfl rfl
    rfl).1 ⟨(.gpr, 0), by decide, .inr (.inl (by decide))⟩⟩

/-- Every hazard with an instruction of variable latency, whichever of the two it is. -/
def Separates (sm : ShaderModel) (out : List DepBlock) : Prop :=
  ∀ run, Run out run → ∀ i j p q a b, i < j → run[i]? = some p → run[j]? = some q →
    instrAt out p = some a → instrAt out q = some b →
    sm.opNeedsScoreboard a.op = true ∨ sm.opNeedsScoreboard b.op = true →
    a.WriteHazard b.toInstr ∨ a.ReadHazard b.toInstr →
      ∃ bar, a.deps.Sets bar ∧ SeparatedBy out run i j bar

theorem not_separates {sm : ShaderModel} {out : List DepBlock} {a b : DepInstr}
    (isA : instrAt out ⟨0, 0⟩ = some a) (isB : instrAt out ⟨0, 1⟩ = some b)
    (passes : a.isBranchAlwaysTaken = false)
    (variable_latency : sm.opNeedsScoreboard a.op = true ∨ sm.opNeedsScoreboard b.op = true)
    (hazard : a.WriteHazard b.toInstr ∨ a.ReadHazard b.toInstr)
    (idle : b.deps.wtBarMask = 0) : ¬Separates sm out := by
  intro separates
  have isRun : Run out [⟨0, 0⟩, ⟨0, 1⟩] := by
    constructor
    · intro p first
      cases first
      exact .here isA
    · exact .cons_cons (.next isA passes isB) (.singleton _)
  rcases separates _ isRun 0 1 _ _ a b Nat.zero_lt_one rfl rfl isA isB variable_latency hazard with
    ⟨bar, _, k, p, c, above, upTo, atK, isC, waits, _⟩
  have isOne : k = 1 := by omega
  subst isOne
  cases atK
  rw [isB] at isC
  cases isC
  rw [InstrDeps.WaitsOn, idle, Nat.zero_testBit] at waits
  cases waits

/-- `@p0 ld r0 [r2]` and `isetp p0 r3` -/
def guardedLoad : List BasicBlock :=
  [{ label := ⟨0⟩, instrs := [
    { loadInstr.toInstr with pred := { predicate := .reg (oneReg .pred 0) } },
    .new (.other ⟨"ISetP", true⟩ [.reg (oneReg .pred 0)] [.ofReg (oneReg .gpr 3)]),
    exitInstr.toInstr] }]

def guardedLoadBarred : List DepBlock :=
  [{ label := ⟨0⟩, instrs := [
    { toInstr := { loadInstr.toInstr with pred := { predicate := .reg (oneReg .pred 0) } }
      deps := { wrBar := some 0 } },
    { toInstr := .new (.other ⟨"ISetP", true⟩ [.reg (oneReg .pred 0)] [.ofReg (oneReg .gpr 3)]) },
    { toInstr := exitInstr.toInstr, deps := { wtBarMask := 1 } }] }]

/-- The load overwrites what the addition reads. -/
def addThenLoad : List BasicBlock :=
  [{ label := ⟨0⟩, instrs := [addInstr.toInstr, loadInstr.toInstr, exitInstr.toInstr] }]

def addThenLoadBarred : List DepBlock :=
  [{ label := ⟨0⟩, instrs := [
    { toInstr := addInstr.toInstr },
    { toInstr := loadInstr.toInstr, deps := { wrBar := some 0 } },
    { toInstr := exitInstr.toInstr, deps := { wtBarMask := 1 } }] }]

/-- `ld r0 r0 [r2]` -/
def loadTwiceInstr : Instr :=
  .new (.other ⟨"Ld", true⟩ [.reg (oneReg .gpr 0), .reg (oneReg .gpr 0)] [.ofReg (oneReg .gpr 2)])

/-- It is used right after. -/
def loadTwice : List BasicBlock :=
  [{ label := ⟨0⟩, instrs := [loadTwiceInstr, addInstr.toInstr, exitInstr.toInstr] }]

def loadTwiceBarred : List DepBlock :=
  [{ label := ⟨0⟩, instrs := [
    { toInstr := loadTwiceInstr }, { toInstr := addInstr.toInstr },
    { toInstr := exitInstr.toInstr }] }]

/-- No one waits for the guard of a load, for what an instruction of fixed latency reads, or for a
register that a load names in two destinations. -/
theorem assignBarriers_not_separates :
    (AssignBarriers.assignBarriers shaderModel50 guardedLoad = .ok guardedLoadBarred ∧
      ¬Separates shaderModel50 guardedLoadBarred) ∧
    (AssignBarriers.assignBarriers shaderModel50 addThenLoad = .ok addThenLoadBarred ∧
      ¬Separates shaderModel50 addThenLoadBarred) ∧
    AssignBarriers.assignBarriers shaderModel50 loadTwice = .ok loadTwiceBarred ∧
      ¬Separates shaderModel50 loadTwiceBarred := by
  refine ⟨⟨by decide +kernel, ?_⟩, ⟨by decide +kernel, ?_⟩, by decide +kernel, ?_⟩
  · apply not_separates rfl rfl rfl (.inl rfl) (.inr ?_) rfl
    exact ⟨(.pred, 0), by decide, .inr (by decide)⟩
  · apply not_separates rfl rfl rfl (.inr rfl) (.inr ?_) rfl
    exact ⟨(.gpr, 0), by decide, .inl (by decide)⟩
  · apply not_separates rfl rfl rfl (.inl rfl) (.inl ?_) rfl
    exact ⟨(.gpr, 0), by decide, .inr (.inl (by decide))⟩

end CoralReef
