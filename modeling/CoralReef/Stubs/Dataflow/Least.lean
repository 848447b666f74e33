import CoralReef.Misc.ChaoticIteration
import CoralReef.Stubs.Cfg.Order
import CoralReef.Stubs.Dataflow
import Mathlib.Data.Fintype.Order
import Mathlib.Data.List.GetD
import Mathlib.Order.CompletePartialOrder

/-!
# The solvers find the least solution

A sweep over lists of states is a sweep of chaotic iteration. The states ascend from the bottom, so
the solvers return wherever no chain ascends for ever, and what they return does not depend on the
order of the blocks.
-/

namespace CoralReef.Dataflow

open List ChaoticIteration

variable {T A B : Type} [PartialOrder A] [OrderBot A] [Preorder B]

/-- The state of a block, bottom past the end of the list. -/
def stateAt (states : List A) (b : Nat) : A := states.getD b ⊥

theorem stateAt_replicate (n b : Nat) : stateAt (List.replicate n (⊥ : A)) b = ⊥ := by
  rw [stateAt, getD_eq_getElem?_getD, List.getElem?_replicate]
  split <;> rfl

theorem stateAt_set {states : List A} {b : Nat} (inside : b < states.length) (a : A) :
    stateAt (states.set b a) = Function.update (stateAt states) b a := by
  funext c
  unfold stateAt
  rw [getD_eq_getElem?_getD, List.getElem?_set]
  by_cases same : b = c
  · subst same
    simp [inside]
  · rw [if_neg same, Function.update_of_ne (Ne.symm same), getD_eq_getElem?_getD]

/-- The join of the states of a list of blocks. -/
def joinOf (join : B → A → B) (empty : B) (nodes : List Nat) (states : Nat → A) : B :=
  nodes.foldl (fun output node => join output (states node)) empty

omit [Preorder B] in
theorem joinAll_ok {join : B → A → B} {moved : List A} : ∀ {nodes : List Nat} (output : B),
    (∀ node ∈ nodes, node < moved.length) →
      joinAll join moved output nodes = .ok (joinOf join output nodes (stateAt moved)) := by
  intro nodes
  induction nodes with
  | nil => exact fun _ _ => rfl
  | cons node nodes ih =>
    intro output inside
    have here := inside node mem_cons_self
    have read : stateAt moved node = moved[node] := getD_eq_getElem _ _ here
    unfold joinAll at ih ⊢
    rw [foldlM_cons, List.getElem?_eq_getElem here, expect_some]
    show (nodes.foldlM _ (join output moved[node])) = _
    rw [ih _ fun other member => inside other (mem_cons_of_mem node member), ← read]
    rfl

omit [OrderBot A] in
theorem joinOf_mono {join : B → A → B} (mono : ∀ {x y : B} {a c : A}, x ≤ y → a ≤ c →
    join x a ≤ join y c) {states states' : Nat → A} (more : states ≤ states') :
    ∀ (nodes : List Nat) {x y : B}, x ≤ y →
      joinOf join x nodes states ≤ joinOf join y nodes states' := by
  intro nodes
  induction nodes with
  | nil => exact fun le => le
  | cons node nodes ih => exact fun le => ih (mono le (more node))

/-- The equations: the transfer of a block applied to what is joined next to it. -/
def equation (neighbours : Nat → List Nat) (empty : B) (join : B → A → B) (moves : Nat → B → A)
    (states : Nat → A) (b : Nat) : A := moves b (joinOf join empty (neighbours b) states)

/-- What the callbacks of a runner do: both are monotone, and the transfer writes what the block
makes of the joined state where it holds less, and tells whether it did. -/
structure Lawful (cfg : CFG T) (join : B → A → B) (transfer : Nat → T → A → B → A × Bool)
    (moves : Nat → B → A) : Prop where
  joinMono : ∀ {x y : B} {a c : A}, x ≤ y → a ≤ c → join x a ≤ join y c
  movesMono : ∀ b, Monotone (moves b)
  writes : ∀ (b : Nat) (block : T) (a : A) (x : B), cfg.blocks[b]? = some block → a ≤ moves b x →
    (transfer b block a x).1 = moves b x ∧ ((transfer b block a x).2 = true ↔ a ≠ moves b x)

section Sweeps

variable {cfg : CFG T} {neighbours : Nat → List Nat} {empty : B} {join : B → A → B}
  {transfer : Nat → T → A → B → A × Bool} {moves : Nat → B → A} {order : List Nat}

omit [OrderBot A] in
theorem Lawful.monotone (lawful : Lawful cfg join transfer moves) :
    Monotone (equation neighbours empty join moves) :=
  fun _ _ more b => lawful.movesMono b (joinOf_mono lawful.joinMono more _ le_rfl)

/-- A run has a state for every block. -/
structure Sized (cfg : CFG T) (run : Run A B) : Prop where
  moved : run.moved.length = cfg.len
  joined : run.joined.length = cfg.len

theorem visit_ok (lawful : Lawful cfg join transfer moves)
    (inside : ∀ b, ∀ c ∈ neighbours b, c < cfg.len) {run : Run A B} (sized : Sized cfg run)
    {node : Nat} (isBlock : node < cfg.len)
    (below : stateAt run.moved node ≤
      equation neighbours empty join moves (stateAt run.moved) node) :
    ∃ run', visit cfg neighbours empty join transfer run node = .ok run' ∧ Sized cfg run' ∧
      stateAt run'.moved =
        recompute (equation neighbours empty join moves) (stateAt run.moved) node ∧
      run'.joined = run.joined.set node
        (joinOf join empty (neighbours node) (stateAt run.moved)) ∧
      (run'.changed = true ↔ run.changed = true ∨ stateAt run.moved node ≠
        equation neighbours empty join moves (stateAt run.moved) node) := by
  have here : node < run.moved.length := by rw [sized.moved]; exact isBlock
  have read : stateAt run.moved node = run.moved[node] := getD_eq_getElem _ _ here
  obtain ⟨block, isBlock'⟩ : ∃ block, cfg.blocks[node]? = some block :=
    ⟨_, List.getElem?_eq_getElem isBlock⟩
  obtain ⟨written, flag⟩ := lawful.writes node block (stateAt run.moved node)
    (joinOf join empty (neighbours node) (stateAt run.moved)) isBlock' below
  refine ⟨{
    moved := run.moved.set node (equation neighbours empty join moves (stateAt run.moved) node)
    joined := run.joined.set node (joinOf join empty (neighbours node) (stateAt run.moved))
    changed := run.changed || (transfer node block (stateAt run.moved node)
      (joinOf join empty (neighbours node) (stateAt run.moved))).2 }, ?_, ?_, ?_, rfl, ?_⟩
  · have known : decide (node < run.joined.length) = true := by
      rw [sized.joined]
      exact decide_eq_true isBlock
    unfold visit
    rw [isBlock', expect_some, ok_bind,
      joinAll_ok _ fun c member => by rw [sized.moved]; exact inside node c member, ok_bind, known,
      assertThat_true, ok_bind, List.getElem?_eq_getElem here, expect_some, ok_bind, ← read]
    show Except.ok _ = _
    rw [written]
    rfl
  · exact ⟨by rw [length_set]; exact sized.moved, by rw [length_set]; exact sized.joined⟩
  · exact stateAt_set here _
  · rw [Bool.or_eq_true, flag]
    rfl

/-- One sweep over a list of blocks. It says that it changed something exactly when it did, and
what it leaves joined is what the last visit of each block joined. -/
theorem sweep_ok (lawful : Lawful cfg join transfer moves)
    (inside : ∀ b, ∀ c ∈ neighbours b, c < cfg.len) : ∀ {order : List Nat},
      (∀ b ∈ order, b < cfg.len) → ∀ {run : Run A B}, Sized cfg run →
      Ascending (equation neighbours empty join moves) (stateAt run.moved) →
      ∃ run', order.foldlM (visit cfg neighbours empty join transfer) run = .ok run' ∧
        Sized cfg run' ∧
        stateAt run'.moved =
          sweep (equation neighbours empty join moves) order (stateAt run.moved) ∧
        (run'.changed = true ↔ run.changed = true ∨ stateAt run'.moved ≠ stateAt run.moved) ∧
        (stateAt run'.moved = stateAt run.moved → ∀ b, run'.joined[b]? =
          if b ∈ order then some (joinOf join empty (neighbours b) (stateAt run.moved))
          else run.joined[b]?) ∧
        ∀ b, b ∉ order → run'.joined[b]? = run.joined[b]? := by
  intro order
  induction order with
  | nil => exact fun _ run sized _ => ⟨run, rfl, sized, rfl, by simp, by simp, fun _ _ => rfl⟩
  | cons node order ih =>
    intro blocks run sized ascending
    obtain ⟨mid, visited, sizedMid, moved, joined, flag⟩ :=
      visit_ok lawful inside sized (blocks node mem_cons_self) (ascending node)
    have ascendingMid := ascending.recompute lawful.monotone node
    rw [← moved] at ascendingMid
    obtain ⟨run', swept, sized', moved', flag', joined', others⟩ :=
      ih (fun b member => blocks b (mem_cons_of_mem node member)) sizedMid ascendingMid
    have up : stateAt run.moved ≤ stateAt mid.moved := by
      rw [moved]
      exact ascending.le_recompute node
    have up' : stateAt mid.moved ≤ stateAt run'.moved := by
      rw [moved']
      exact (ascendingMid.sweep lawful.monotone order).2
    have same : stateAt run'.moved = stateAt run.moved →
        stateAt mid.moved = stateAt run.moved ∧ stateAt run'.moved = stateAt mid.moved := by
      intro same
      have first : stateAt mid.moved = stateAt run.moved := le_antisymm (up'.trans_eq same) up
      exact ⟨first, same.trans first.symm⟩
    have here : stateAt mid.moved = stateAt run.moved ↔ stateAt run.moved node =
        equation neighbours empty join moves (stateAt run.moved) node := by
      rw [moved, recompute, Function.update_eq_self_iff]
      exact eq_comm
    have untouched : ∀ b, b ∉ node :: order → mid.joined[b]? = run.joined[b]? := by
      intro b absent
      rw [mem_cons, not_or] at absent
      rw [joined, List.getElem?_set_ne (Ne.symm absent.1)]
    refine ⟨run', ?_, sized', ?_, ?_, ?_, ?_⟩
    · rw [foldlM_cons, visited]
      exact swept
    · rw [moved', moved]
      rfl
    · have changes : stateAt run.moved node ≠
          equation neighbours empty join moves (stateAt run.moved) node ↔
            stateAt mid.moved ≠ stateAt run.moved := not_congr here.symm
      rw [flag', flag, changes, or_assoc]
      refine or_congr_right ?_
      constructor
      · rintro (differs | differs) equal
        · exact differs (same equal).1
        · exact differs (same equal).2
      · intro differs
        by_cases first : stateAt mid.moved = stateAt run.moved
        · exact .inr fun second => differs (second.trans first)
        · exact .inl first
    · intro equal b
      obtain ⟨first, second⟩ := same equal
      rw [joined' second b, first]
      by_cases later : b ∈ order
      · rw [if_pos later, if_pos (mem_cons_of_mem node later)]
      · rw [if_neg later, joined, List.getElem?_set]
        by_cases isNode : node = b
        · subst isNode
          have : node < run.joined.length := by
            rw [sized.joined]
            exact blocks node mem_cons_self
          rw [if_pos rfl, if_pos this, if_pos mem_cons_self]
        · have absent : b ∉ node :: order := by
            rw [mem_cons, not_or]
            exact ⟨Ne.symm isNode, later⟩
          rw [if_neg isNode, if_neg absent]
    · intro b absent
      rw [others b fun later => absent (mem_cons_of_mem node later), untouched b absent]

/-- What a run ends with: the solution on the blocks of `order` that lies below all others, and
the states from before elsewhere. -/
structure Ends (cfg : CFG T) (neighbours : Nat → List Nat) (empty : B) (join : B → A → B)
    (moves : Nat → B → A) (order : List Nat) (start run : Run A B) : Prop where
  sized : Sized cfg run
  unchanged : run.changed = false
  moved : ∀ b ∈ order, equation neighbours empty join moves (stateAt run.moved) b =
    stateAt run.moved b
  joined : ∀ b, run.joined[b]? = if b ∈ order then
    some (joinOf join empty (neighbours b) (stateAt run.moved)) else start.joined[b]?
  least : ∀ states : Nat → A, (∀ b ∈ order, equation neighbours empty join moves states b ≤ states b) →
    stateAt start.moved ≤ states → stateAt run.moved ≤ states
  kept : ∀ b, b ∉ order → stateAt run.moved b = stateAt start.moved b

/-- The loop ends, and with what every transfer keeps. -/
theorem sweeps_ends {Q : Nat → A → Prop} [∀ b, WellFoundedGT {a // Q b a}]
    (closed : ∀ states : Nat → A, (∀ b, Q b (states b)) →
      ∀ b, Q b (equation neighbours empty join moves states b)) (lawful : Lawful cfg join transfer moves)
    (inside : ∀ b, ∀ c ∈ neighbours b, c < cfg.len) (blocks : ∀ b ∈ order, b < cfg.len)
    {start : Run A B} (sized : Sized cfg start) (holds : ∀ b, Q b (stateAt start.moved b))
    (ascending : Ascending (equation neighbours empty join moves) (stateAt start.moved)) :
    ∃ run, (∃ enough, ∀ fuel ≥ enough,
        sweeps cfg neighbours empty join transfer order fuel start = .ok run) ∧
      (∀ b, Q b (stateAt run.moved b)) ∧
      Ends cfg neighbours empty join moves order start run := by
  have mono : Monotone (equation neighbours empty join moves) := lawful.monotone
  have all := sweep_induction mono closed order
    (P := fun s => ∀ start : Run A B, Sized cfg start → stateAt start.moved = s →
      ∃ run, (∃ enough, ∀ fuel ≥ enough,
          sweeps cfg neighbours empty join transfer order fuel start = .ok run) ∧
        (∀ b, Q b (stateAt run.moved b)) ∧
        Ends cfg neighbours empty join moves order start run)
  refine all ?_ ?_ _ holds ascending start sized rfl
  · rintro _ holds ascending still start sized rfl
    obtain ⟨run, swept, sized', moved, flag, joined, others⟩ :=
      sweep_ok lawful inside blocks
        (⟨sized.moved, sized.joined⟩ : Sized cfg { start with changed := false }) ascending
    have same : stateAt run.moved = stateAt start.moved := moved.trans still
    have unchanged : run.changed = false := by
      rw [← Bool.not_eq_true, flag]
      simp [same]
    refine ⟨run, ⟨1, ?_⟩, ?_, sized', unchanged, ?_, ?_, ?_, ?_⟩
    · intro fuel enough
      obtain ⟨fuel, rfl⟩ := Nat.exists_eq_add_of_le' enough
      rw [sweeps, swept, ok_bind, unchanged]
      rfl
    · rwa [same]
    · rw [same]
      exact ascending.solved lawful.monotone still
    · rw [same]
      exact joined same
    · intro states _ below
      rwa [same]
    · intro b _
      rw [same]
  · rintro _ ascending more ih start sized rfl
    obtain ⟨mid, swept, sizedMid, moved, flag, -, others⟩ :=
      sweep_ok lawful inside blocks
        (⟨sized.moved, sized.joined⟩ : Sized cfg { start with changed := false }) ascending
    have changed : mid.changed = true := by
      rw [flag, moved]
      exact .inr more
    obtain ⟨run, ⟨enough, returns⟩, holds, ends⟩ := ih mid sizedMid moved
    refine ⟨run, ⟨enough + 1, ?_⟩, holds, ends.sized, ends.unchanged, ends.moved, ?_, ?_, ?_⟩
    · intro fuel large
      obtain ⟨fuel, rfl⟩ : ∃ k, fuel = k + 1 := ⟨fuel - 1, by omega⟩
      rw [sweeps, swept, ok_bind, changed, if_pos rfl]
      exact returns fuel (by omega)
    · intro b
      rw [ends.joined b]
      split
      · rfl
      next absent => exact others b absent
    · intro states solution below
      apply ends.least states solution
      rw [moved]
      exact sweep_le lawful.monotone solution below
    · intro b absent
      rw [ends.kept b absent, moved]
      exact sweep_of_notMem absent _

end Sweeps

/-! ## Least solutions -/

/-- The order visits the blocks that can be reached from the entry. -/
def Enumerates (cfg : CFG T) (order : List Nat) : Prop :=
  ∀ b, b ∈ order ↔ b < cfg.len ∧ cfg.Reached b

theorem enumerates_reversePostOrder (cfg : CFG T) : Enumerates cfg cfg.reversePostOrder := by
  intro b
  rcases Nat.eq_zero_or_pos cfg.len with none | nonempty
  · rw [CFG.reversePostOrder, if_pos none]
    simp [none]
  · have order := cfg.isOrder_reversePostOrder nonempty
    rw [order.mem, iff_and_self]
    exact fun reached => order.inside b ((order.mem b).mpr reached)

theorem Enumerates.reverse {cfg : CFG T} {order : List Nat} (enumerates : Enumerates cfg order) :
    Enumerates cfg order.reverse := fun b => mem_reverse.trans (enumerates b)

/-- States that satisfy the equations of the blocks that can be reached: what is joined is the join
of the neighbours' states, and a block moves it to its own state. -/
structure Solves (cfg : CFG T) (neighbours : Nat → List Nat) (empty : B) (join : B → A → B)
    (moves : Nat → B → A) (moved : List A) (joined : List B) : Prop where
  lengths : moved.length = cfg.len ∧ joined.length = cfg.len
  joins : ∀ b < cfg.len, cfg.Reached b →
    joined[b]? = some (joinOf join empty (neighbours b) (stateAt moved))
  transfers : ∀ b < cfg.len, cfg.Reached b →
    ∃ x, joined[b]? = some x ∧ moved[b]? = some (moves b x)

/-- The solution that lies below all others. -/
structure SolvesLeast (cfg : CFG T) (neighbours : Nat → List Nat) (empty : B) (join : B → A → B)
    (moves : Nat → B → A) (moved : List A) (joined : List B) : Prop where
  solves : Solves cfg neighbours empty join moves moved joined
  least : ∀ moved' joined', Solves cfg neighbours empty join moves moved' joined' →
    (∀ b, stateAt moved b ≤ stateAt moved' b) ∧
      ∀ b < cfg.len, cfg.Reached b → ∃ x x', joined[b]? = some x ∧ joined'[b]? = some x' ∧ x ≤ x'

/-- A solver returns one and the same result with enough fuel, whatever the order of the blocks that
can be reached. -/
def Returns {R : Type} (cfg : CFG T) (solver : List Nat → Nat → Except Fault R)
    (right : R → Prop) : Prop :=
  ∃ result, right result ∧ ∀ order, Enumerates cfg order →
    ∃ enough, ∀ fuel ≥ enough, solver order fuel = .ok result

theorem stateAt_eq {states : List A} {b : Nat} {a : A} (here : states[b]? = some a) :
    stateAt states b = a := by
  rw [stateAt, getD_eq_getElem?_getD, here]
  rfl

/-- Lists of one length with the same states are the same. -/
theorem eq_of_stateAt {states states' : List A} (length : states.length = states'.length)
    (same : stateAt states = stateAt states') : states = states' := by
  refine ext_getElem length ?_
  intro b inside inside'
  have := congrFun same b
  rwa [stateAt, stateAt, getD_eq_getElem _ _ inside, getD_eq_getElem _ _ inside'] at this

section Runners

variable {cfg : CFG T} {neighbours : Nat → List Nat} {empty : B} {join : B → A → B}
  {transfer : Nat → T → A → B → A × Bool} {moves : Nat → B → A}

variable (empty) in
/-- From the bottom every solver ends with the least solution. -/
theorem sweeps_least [WellFoundedGT A] (lawful : Lawful cfg join transfer moves)
    (inside : ∀ b, ∀ c ∈ neighbours b, c < cfg.len) {blockIn : List B}
    (sized : blockIn.length = cfg.len) :
    Returns cfg (fun order fuel => sweeps cfg neighbours empty join transfer order fuel
        { moved := List.replicate cfg.len ⊥, joined := blockIn })
      fun run => SolvesLeast cfg neighbours empty join moves run.moved run.joined := by
  let start : Run A B := { moved := List.replicate cfg.len ⊥, joined := blockIn }
  have bottom : ∀ b, stateAt start.moved b = ⊥ := stateAt_replicate cfg.len
  have sizedStart : Sized cfg start := ⟨length_replicate, sized⟩
  have ascending : Ascending (equation neighbours empty join moves) (stateAt start.moved) := by
    intro b
    rw [bottom]
    exact bot_le
  have ends : ∀ order, Enumerates cfg order → ∃ run, (∃ enough, ∀ fuel ≥ enough,
      sweeps cfg neighbours empty join transfer order fuel start = .ok run) ∧
        Ends cfg neighbours empty join moves order start run :=
    fun order enumerates =>
      have ⟨run, returns, _, ends⟩ := sweeps_ends (Q := fun _ _ => True) (fun _ _ _ => trivial)
        lawful inside (fun b member => ((enumerates b).mp member).1) sizedStart (fun _ => trivial)
        ascending
      ⟨run, returns, ends⟩
  have below : ∀ order, Enumerates cfg order → ∀ run,
      Ends cfg neighbours empty join moves order start run → ∀ states : Nat → A,
        (∀ b < cfg.len, cfg.Reached b → equation neighbours empty join moves states b ≤ states b) →
          stateAt run.moved ≤ states := by
    intro order enumerates run ends states solution
    apply ends.least states
    · exact fun b member =>
        solution b ((enumerates b).mp member).1 ((enumerates b).mp member).2
    · intro b
      rw [bottom]
      exact bot_le
  obtain ⟨run, -, final⟩ := ends _ (enumerates_reversePostOrder cfg)
  have equations : ∀ b < cfg.len, cfg.Reached b →
      equation neighbours empty join moves (stateAt run.moved) b = stateAt run.moved b :=
    fun b isBlock reached =>
      final.moved b ((enumerates_reversePostOrder cfg b).mpr ⟨isBlock, reached⟩)
  have joined : ∀ b < cfg.len, cfg.Reached b →
      run.joined[b]? = some (joinOf join empty (neighbours b) (stateAt run.moved)) := by
    intro b isBlock reached
    rw [final.joined, if_pos ((enumerates_reversePostOrder cfg b).mpr ⟨isBlock, reached⟩)]
  refine ⟨run, ⟨⟨⟨final.sized.moved, final.sized.joined⟩, joined, ?_⟩, ?_⟩, ?_⟩
  · intro b isBlock reached
    refine ⟨_, joined b isBlock reached, ?_⟩
    have here : b < run.moved.length := by rw [final.sized.moved]; exact isBlock
    have value : stateAt run.moved b = run.moved[b] := getD_eq_getElem _ _ here
    rw [List.getElem?_eq_getElem here, ← value, ← equations b isBlock reached]
    rfl
  · intro moved' joined' other
    have less := below _ (enumerates_reversePostOrder cfg) run final (stateAt moved') (by
      intro b isBlock reached
      obtain ⟨x, isJoined, isMoved⟩ := other.transfers b isBlock reached
      rw [other.joins b isBlock reached, Option.some_inj] at isJoined
      rw [stateAt_eq isMoved, ← isJoined]
      exact le_rfl)
    exact ⟨less, fun b isBlock reached => ⟨_, _, joined b isBlock reached,
      other.joins b isBlock reached, joinOf_mono lawful.joinMono less _ le_rfl⟩⟩
  · intro order enumerates
    obtain ⟨run', ⟨enough, returns⟩, final'⟩ := ends order enumerates
    have equations' : ∀ b < cfg.len, cfg.Reached b →
        equation neighbours empty join moves (stateAt run'.moved) b = stateAt run'.moved b :=
      fun b isBlock reached => final'.moved b ((enumerates b).mpr ⟨isBlock, reached⟩)
    have same : stateAt run'.moved = stateAt run.moved := by
      apply le_antisymm
      · exact below order enumerates run' final' _ fun b isBlock reached =>
          (equations b isBlock reached).le
      · exact below _ (enumerates_reversePostOrder cfg) run final _ fun b isBlock reached =>
          (equations' b isBlock reached).le
    have sameMoved : run'.moved = run.moved :=
      eq_of_stateAt (final'.sized.moved.trans final.sized.moved.symm) same
    have sameJoined : run'.joined = run.joined := by
      apply ext_getElem?
      intro b
      have listed : b ∈ order ↔ b ∈ cfg.reversePostOrder :=
        (enumerates b).trans (enumerates_reversePostOrder cfg b).symm
      rw [final'.joined, final.joined, same]
      simp only [listed]
    refine ⟨enough, ?_⟩
    intro fuel large
    have whole : run' = run := by
      rcases run with ⟨moved, joined, changed⟩
      rcases run' with ⟨moved', joined', changed'⟩
      have still : changed = false := final.unchanged
      have still' : changed' = false := final'.unchanged
      subst still still' sameMoved sameJoined
      rfl
    rw [← whole]
    exact returns fuel large

end Runners

/-! ## The solvers -/

/-- A solver returns one result, in the order of the source and in every other. -/
def Solver {R : Type} (cfg : CFG T) (solve : Nat → Except Fault R)
    (solveIn : List Nat → Nat → Except Fault R) (right : R → Prop) : Prop :=
  ∃ result, right result ∧ (∃ enough, ∀ fuel ≥ enough, solve fuel = .ok result) ∧
    ∀ order, Enumerates cfg order → ∃ enough, ∀ fuel ≥ enough, solveIn order fuel = .ok result

theorem Returns.solver {R R' : Type} {cfg : CFG T} {solver : List Nat → Nat → Except Fault R}
    {right : R → Prop} (returns : Returns cfg solver right) {right' : R' → Prop} (read : R → R')
    (reads : ∀ result, right result → right' (read result)) {order : List Nat}
    (enumerates : Enumerates cfg order) :
    Solver cfg (fun fuel => (solver order fuel).map read)
      (fun order fuel => (solver order fuel).map read) right' := by
  obtain ⟨result, isRight, every⟩ := returns
  have all : ∀ order, Enumerates cfg order →
      ∃ enough, ∀ fuel ≥ enough, (solver order fuel).map read = .ok (read result) := by
    intro order enumerates
    obtain ⟨enough, returned⟩ := every order enumerates
    refine ⟨enough, ?_⟩
    intro fuel large
    rw [returned fuel large]
    rfl
  exact ⟨read result, reads result isRight, all order enumerates, all⟩

section Lattice

variable {S : Type} [SemilatticeSup S] [OrderBot S]

/-- What the analysis of a block makes of a joined state. -/
def moveBlock (cfg : CFG T) (transfer : T → S → S) (b : Nat) (joined : S) : S :=
  cfg.blocks[b]?.elim ⊥ (transfer · joined)

theorem lawful_replace [DecidableEq S] (cfg : CFG T) {transfer : T → S → S}
    (mono : ∀ block, Monotone (transfer block)) :
    Lawful cfg (· ⊔ ·) (replace transfer) (moveBlock cfg transfer) := by
  constructor
  · exact fun le le' => sup_le_sup le le'
  · intro b
    unfold moveBlock
    cases cfg.blocks[b]? with
    | none => exact monotone_const
    | some block => exact mono block
  · intro b block a x isBlock _
    have moved : moveBlock cfg transfer b x = transfer block x := by rw [moveBlock, isBlock]; rfl
    rw [moved, replace]
    by_cases same : transfer block x = a
    · simp [same]
    · simp [same, Ne.symm same]

/-- The two functions over an analysis return no states for a graph without blocks. -/
theorem Returns.solver_zip {cfg : CFG T} {neighbours : Nat → List Nat} {moves : Nat → S → S}
    {solver : List Nat → Nat → Except Fault (Run S S)}
    (returns : Returns cfg solver fun run =>
      SolvesLeast cfg neighbours ⊥ (· ⊔ ·) moves run.moved run.joined)
    (read : Run S S → List (S × S)) (moved joined : S × S → S)
    (readMoved : ∀ run : Run S S, run.moved.length = run.joined.length →
      (read run).map moved = run.moved ∧ (read run).map joined = run.joined)
    {order : List Nat} (enumerates : Enumerates cfg order) :
    Solver cfg
      (fun fuel => if cfg.len = 0 then return [] else (solver order fuel).map read)
      (fun order fuel => if cfg.len = 0 then return [] else (solver order fuel).map read)
      fun states => SolvesLeast cfg neighbours ⊥ (· ⊔ ·) moves (states.map moved)
        (states.map joined) := by
  rcases eq_or_ne cfg.len 0 with none | some
  · refine ⟨[], ⟨⟨⟨by simp [none], by simp [none]⟩, ?_, ?_⟩, ?_⟩, ⟨0, ?_⟩, fun _ _ => ⟨0, ?_⟩⟩
    · intro b isBlock
      omega
    · intro b isBlock
      omega
    · intro moved' joined' _
      exact ⟨fun b => bot_le, fun b isBlock => by omega⟩
    · exact fun fuel _ => if_pos none
    · exact fun fuel _ => if_pos none
  · simp only [if_neg some]
    apply returns.solver read ?_ enumerates
    intro run least
    obtain ⟨sameMoved, sameJoined⟩ := readMoved run
      (least.solves.lengths.1.trans least.solves.lengths.2.symm)
    rwa [sameMoved, sameJoined]

/-- The solvers over an analysis end with the least solution of the equations of the blocks that
can be reached, and so do the runners with callbacks. -/
theorem solve_least [DecidableEq S] [WellFoundedGT S] (cfg : CFG T) (edgesIn : cfg.EdgesIn)
    (transfer : T → S → S) (mono : ∀ block, Monotone (transfer block)) :
    Solver cfg (solveForward transfer cfg) (solveForwardIn transfer cfg) (fun states =>
      SolvesLeast cfg cfg.predecessors ⊥ (· ⊔ ·) (moveBlock cfg transfer)
        (states.map Prod.snd) (states.map Prod.fst)) ∧
    Solver cfg (solveBackward transfer cfg) (solveBackwardIn transfer cfg) (fun states =>
      SolvesLeast cfg cfg.successors ⊥ (· ⊔ ·) (moveBlock cfg transfer)
        (states.map Prod.fst) (states.map Prod.snd)) ∧
    (∀ (callback : Nat → T → S → S → S × Bool) (join : S → S → S) (moves : Nat → S → S),
      Lawful cfg join callback moves → ∀ blockIn : List S, blockIn.length = cfg.len →
        let df : ForwardDataflow T S := {
          cfg, blockIn, blockOut := List.replicate cfg.len ⊥, transfer := callback, join }
        Solver cfg (fun fuel => df.solve ⊥ fuel) (fun order fuel => df.solveIn ⊥ order fuel)
          fun df => SolvesLeast cfg cfg.predecessors ⊥ join moves df.blockOut df.blockIn) ∧
    ∀ (SOut : Type) (_ : PartialOrder SOut) (_ : OrderBot SOut)
      (callback : Nat → T → S → SOut → S × Bool) (join : SOut → S → SOut) (moves : Nat → SOut → S),
      Lawful cfg join callback moves → ∀ blockOut : List SOut, blockOut.length = cfg.len →
        let df : BackwardDataflowBi T S SOut := {
          cfg, blockIn := List.replicate cfg.len ⊥, blockOut, transfer := callback, join }
        Solver cfg (fun fuel => df.solve ⊥ fuel) (fun order fuel => df.solveIn ⊥ order fuel)
          fun df => SolvesLeast cfg cfg.successors ⊥ join moves df.blockIn df.blockOut := by
  have before : ∀ b, ∀ c ∈ cfg.predecessors b, c < cfg.len :=
    fun b c member => (edgesIn _ (CFG.mem_predecessors.mp member)).1
  have after : ∀ b, ∀ c ∈ cfg.successors b, c < cfg.len :=
    fun b c member => (edgesIn _ (CFG.mem_successors.mp member)).2
  have forward : Enumerates cfg cfg.reversePostOrder := enumerates_reversePostOrder cfg
  refine ⟨?_, ?_, ?_, ?_⟩
  · apply (sweeps_least ⊥ (lawful_replace cfg mono) before List.length_replicate).solver_zip
      (fun run => run.joined.zip run.moved) Prod.snd Prod.fst ?_ forward
    intro run lengths
    exact ⟨List.map_snd_zip lengths.le, List.map_fst_zip lengths.ge⟩
  · apply (sweeps_least ⊥ (lawful_replace cfg mono) after List.length_replicate).solver_zip
      (fun run => run.moved.zip run.joined) Prod.fst Prod.snd ?_ forward.reverse
    intro run lengths
    exact ⟨List.map_fst_zip lengths.le, List.map_snd_zip lengths.ge⟩
  · intro callback join moves lawful blockIn sized df
    have returns := sweeps_least ⊥ lawful before sized
    exact returns.solver
      (fun run => ({ df with blockIn := run.joined, blockOut := run.moved } : ForwardDataflow T S))
      (fun _ right => right) forward
  · intro SOut _ _ callback join moves lawful blockOut sized df
    have returns := sweeps_least ⊥ lawful after sized
    exact returns.solver
      (fun run =>
        ({ df with blockIn := run.moved, blockOut := run.joined } : BackwardDataflowBi T S SOut))
      (fun _ right => right) forward.reverse

end Lattice

/-- A block that loops after one that sets the state. -/
def loop : CFG Bool where
  blocks := [true, false]
  edges := [(0, 1), (1, 1)]

/-- A loop with two blocks whose states are truth values. -/
theorem solve_least_loop :
    Solver loop (solveForward (fun set joined => set || joined) loop)
      (solveForwardIn (fun set joined => set || joined) loop) fun states =>
        SolvesLeast loop loop.predecessors ⊥ (· ⊔ ·) (moveBlock loop fun set joined => set || joined)
          (states.map Prod.snd) (states.map Prod.fst) :=
  (solve_least loop (by unfold CFG.EdgesIn; decide) _ fun block => by
    cases block <;> decide).1

end CoralReef.Dataflow
