import CoralReef.Codegen.Liveness.NextUse
import Mathlib.Data.List.Sort

/-!
# Choosing what to spill

`SpillChooser` of `codegen/spill_values/types.rs`: a heap that keeps the candidates whose next use
is furthest away. The debug assertion on its size is checked, as in a debug build.
-/

open List

namespace CoralReef

structure SSANextUse where
  ssa : SSAValue
  nextUse : Nat

/-- `Ord for SSANextUse`. -/
def SSANextUse.le (x y : SSANextUse) : Prop :=
  x.nextUse < y.nextUse ∨ x.nextUse = y.nextUse ∧ x.ssa.idx ≤ y.ssa.idx

instance : DecidableRel SSANextUse.le :=
  fun x y => inferInstanceAs (Decidable (x.nextUse < y.nextUse ∨
    x.nextUse = y.nextUse ∧ x.ssa.idx ≤ y.ssa.idx))

instance : Std.Total SSANextUse.le where
  total x y := by
    unfold SSANextUse.le
    omega

instance : IsTrans SSANextUse SSANextUse.le where
  trans x y z := by
    unfold SSANextUse.le
    omega

/-- `spills` is a heap of reversed elements, here in the order in which `pop` takes them. -/
structure SpillChooser where
  bl : NextUseBlockLiveness
  pinned : List SSAValue
  ip : Nat
  count : Nat
  spills : List SSANextUse := []
  minNextUse : Nat

namespace SpillChooser

/-- `SpillChooser::new`. -/
def new (bl : NextUseBlockLiveness) (pinned : List SSAValue) (ip count : Nat) : SpillChooser where
  bl := bl
  pinned := pinned
  ip := ip
  count := count
  minNextUse := ip + 1

/-- The end of `add_candidate`, for a candidate that is pushed: the heap may lose its least. -/
def push (chooser : SpillChooser) (candidate : SSANextUse) : Except Fault SpillChooser :=
  let spills := chooser.spills.orderedInsert SSANextUse.le candidate
  if spills.length > chooser.count then
    match spills with
    | [] => .error (.panic "heap non-empty after len check")
    | old :: spills => do
      assertThat (spills.length = chooser.count) "self.spills.len() == self.count"
      return { chooser with spills, minNextUse := max chooser.minNextUse old.nextUse }
  else return { chooser with spills }

/-- `SpillChooser::add_candidate`. -/
def addCandidate (chooser : SpillChooser) (ssa : SSAValue) : Except Fault SpillChooser :=
  if ssa ∈ chooser.pinned then return chooser
  else do
    let nextUse ← expect (chooser.bl.nextUseAfterOrAtIp ssa chooser.ip)
      "spill candidate SSA must have a next use"
    if nextUse < chooser.minNextUse then return chooser else chooser.push ⟨ssa, nextUse⟩

/-- What `SpillChoiceIter` yields. -/
def choices (chooser : SpillChooser) : List SSAValue := chooser.spills.map SSANextUse.ssa

/-- The candidates offered one after the other, and what is chosen of them. -/
def choose (bl : NextUseBlockLiveness) (pinned : List SSAValue) (ip count : Nat)
    (candidates : List SSAValue) : Except Fault (List SSAValue) := do
  let chooser ← candidates.foldlM addCandidate (new bl pinned ip count)
  return chooser.choices

/-- The next use of a value is `use`, and it lies after the instruction. -/
def UsedLater (bl : NextUseBlockLiveness) (ip : Nat) (ssa : SSAValue) (use : Nat) : Prop :=
  bl.nextUseAfterOrAtIp ssa ip = some use ∧ ip < use

/-- What may be spilled: a value that is not pinned and whose next use lies after the
instruction. -/
def eligible (bl : NextUseBlockLiveness) (pinned : List SSAValue) (ip : Nat) (ssa : SSAValue) :
    Bool :=
  ssa ∉ pinned && (bl.nextUseAfterOrAtIp ssa ip).any (ip < ·)

theorem eligible_iff {bl : NextUseBlockLiveness} {pinned : List SSAValue} {ip : Nat}
    {ssa : SSAValue} :
    eligible bl pinned ip ssa = true ↔ ssa ∉ pinned ∧ ∃ use, UsedLater bl ip ssa use := by
  unfold eligible UsedLater
  cases bl.nextUseAfterOrAtIp ssa ip <;> simp

/-- What a chooser has made of the candidates so far: the heap and the values left out are the
eligible ones, none of those left out is used later than `minNextUse` or one in the heap, and there
are some only where the heap is full. -/
structure Holds (bl : NextUseBlockLiveness) (pinned : List SSAValue) (ip count : Nat)
    (candidates left : List SSAValue) (chooser : SpillChooser) : Prop where
  same : chooser.bl = bl ∧ chooser.pinned = pinned ∧ chooser.ip = ip ∧ chooser.count = count
  split : (chooser.choices ++ left).Perm (candidates.filter (eligible bl pinned ip))
  used : ∀ spill ∈ chooser.spills, UsedLater bl ip spill.ssa spill.nextUse
  sorted : chooser.spills.Pairwise SSANextUse.le
  above : ∀ spill ∈ chooser.spills, chooser.minNextUse ≤ spill.nextUse
  below : ∀ ssa ∈ left, ∀ use, UsedLater bl ip ssa use → use ≤ chooser.minNextUse
  full : chooser.spills.length ≤ count
  start : ip < chooser.minNextUse
  room : chooser.spills.length < count → left = [] ∧ chooser.minNextUse = ip + 1

section Steps

variable {bl : NextUseBlockLiveness} {pinned : List SSAValue} {ip count : Nat}
  {candidates left : List SSAValue} {chooser : SpillChooser}

variable {ssa : SSAValue}

theorem Holds.new : Holds bl pinned ip count [] [] (new bl pinned ip count) where
  same := ⟨rfl, rfl, rfl, rfl⟩
  split := List.Perm.refl _
  used := by
    intro spill member
    cases member
  sorted := List.Pairwise.nil
  above := by
    intro spill member
    cases member
  below := by
    intro ssa member
    cases member
  full := Nat.zero_le _
  start := Nat.lt_succ_self _
  room := fun _ => ⟨rfl, rfl⟩

/-- A candidate that is not eligible changes nothing. -/
theorem Holds.ignore (holds : Holds bl pinned ip count candidates left chooser)
    (not : eligible bl pinned ip ssa = false) :
    Holds bl pinned ip count (candidates ++ [ssa]) left chooser :=
  { holds with
    split := by
      rw [filter_append, filter_cons_of_neg (by simp [not]), filter_nil,
        append_nil]
      exact holds.split }

/-- A candidate that is used sooner than one left out before is left out. -/
theorem Holds.reject (holds : Holds bl pinned ip count candidates left chooser) {use : Nat}
    (free : ssa ∉ pinned) (later : UsedLater bl ip ssa use) (sooner : use < chooser.minNextUse) :
    Holds bl pinned ip count (candidates ++ [ssa]) (ssa :: left) chooser :=
  { holds with
    split := by
      rw [filter_append, filter_cons_of_pos (eligible_iff.mpr ⟨free, use, later⟩),
        filter_nil]
      exact perm_middle.trans ((holds.split.cons ssa).trans (perm_append_singleton _ _).symm)
    below := by
      intro other member use' later'
      rcases mem_cons.mp member with rfl | before
      · have same : use' = use := Option.some_inj.mp (later'.1.symm.trans later.1)
        omega
      · exact holds.below other before use' later'
    room := by
      intro space
      have := (holds.room space).2
      have := later.2
      omega }

/-- A candidate that is pushed, and the least of the heap where that is full. -/
theorem Holds.push (holds : Holds bl pinned ip count candidates left chooser) {use : Nat}
    (free : ssa ∉ pinned) (later : UsedLater bl ip ssa use) (notSooner : chooser.minNextUse ≤ use) :
    ∃ left' chooser', chooser.push ⟨ssa, use⟩ = .ok chooser' ∧
      Holds bl pinned ip count (candidates ++ [ssa]) left' chooser' := by
  have isEligible : eligible bl pinned ip ssa = true := eligible_iff.mpr ⟨free, use, later⟩
  set spills := chooser.spills.orderedInsert SSANextUse.le ⟨ssa, use⟩ with spillsDef
  have perm : spills.Perm (⟨ssa, use⟩ :: chooser.spills) := perm_orderedInsert ..
  have length : spills.length = chooser.spills.length + 1 := perm.length_eq
  have sorted : spills.Pairwise SSANextUse.le := holds.sorted.orderedInsert _ _
  have members : ∀ spill ∈ spills,
      UsedLater bl ip spill.ssa spill.nextUse ∧ chooser.minNextUse ≤ spill.nextUse := by
    intro spill member
    rcases mem_cons.mp (perm.mem_iff.mp member) with rfl | old
    · exact ⟨later, notSooner⟩
    · exact ⟨holds.used spill old, holds.above spill old⟩
  have split : (spills.map SSANextUse.ssa ++ left).Perm
      ((candidates ++ [ssa]).filter (eligible bl pinned ip)) := by
    rw [filter_append, filter_cons_of_pos isEligible, filter_nil]
    exact ((perm.map _).append_right left).trans
      ((holds.split.cons ssa).trans (perm_append_singleton _ _).symm)
  obtain ⟨sameBl, samePinned, sameIp, sameCount⟩ := holds.same
  by_cases overfull : spills.length > chooser.count
  · cases heap : spills with
    | nil =>
      rw [heap] at length
      cases length
    | cons old rest =>
      rw [heap] at length sorted members split overfull
      have restLength : rest.length = count := by
        have := holds.full
        simp only [length_cons, sameCount] at length overfull
        omega
      refine ⟨old.ssa :: left,
        { chooser with spills := rest, minNextUse := max chooser.minNextUse old.nextUse }, ?_, ?_⟩
      · unfold SpillChooser.push
        rw [← spillsDef, heap, if_pos overfull]
        dsimp only
        rw [sameCount, decide_eq_true restLength]
        rfl
      have least := (pairwise_cons.mp sorted).1
      refine ⟨⟨sameBl, samePinned, sameIp, sameCount⟩, ?_, ?_, (pairwise_cons.mp sorted).2,
        ?_, ?_, restLength.le, lt_of_lt_of_le holds.start (le_max_left _ _), ?_⟩
      · exact perm_middle.trans split
      · exact fun spill member => (members spill (mem_cons_of_mem old member)).1
      · intro spill member
        refine max_le (members spill (mem_cons_of_mem old member)).2 ?_
        have := least spill member
        unfold SSANextUse.le at this
        omega
      · intro other member use' later'
        rcases mem_cons.mp member with rfl | before
        · have known := (members old mem_cons_self).1
          have same : use' = old.nextUse := Option.some_inj.mp (later'.1.symm.trans known.1)
          exact same ▸ le_max_right _ _
        · exact (holds.below other before use' later').trans (le_max_left _ _)
      · intro space
        exact absurd restLength space.ne
  · have fits : spills.length ≤ count := by omega
    have wasRoom := holds.room (by omega)
    refine ⟨left, { chooser with spills }, ?_, ⟨sameBl, samePinned, sameIp, sameCount⟩, split,
      fun spill member => (members spill member).1, sorted,
      fun spill member => (members spill member).2, holds.below, fits, holds.start,
      fun _ => wasRoom⟩
    unfold SpillChooser.push
    rw [← spillsDef, if_neg overfull]
    rfl

theorem Holds.addCandidate (holds : Holds bl pinned ip count candidates left chooser)
    (known : ssa ∉ pinned → ∃ use, bl.nextUseAfterOrAtIp ssa ip = some use) :
    ∃ left' chooser', chooser.addCandidate ssa = .ok chooser' ∧
      Holds bl pinned ip count (candidates ++ [ssa]) left' chooser' := by
  obtain ⟨sameBl, samePinned, sameIp, sameCount⟩ := holds.same
  unfold SpillChooser.addCandidate
  rw [samePinned]
  by_cases isPinned : ssa ∈ pinned
  · rw [if_pos isPinned]
    refine ⟨left, chooser, rfl, holds.ignore ?_⟩
    simp [eligible, isPinned]
  · obtain ⟨use, next⟩ := known isPinned
    rw [if_neg isPinned, sameBl, sameIp, next, expect_some, ok_bind]
    by_cases sooner : use < chooser.minNextUse
    · rw [if_pos sooner]
      by_cases later : ip < use
      · exact ⟨ssa :: left, chooser, rfl, holds.reject isPinned ⟨next, later⟩ sooner⟩
      · refine ⟨left, chooser, rfl, holds.ignore ?_⟩
        simp [eligible, next, later]
    · rw [if_neg sooner]
      have start := holds.start
      exact holds.push isPinned ⟨next, by omega⟩ (by omega)

end Steps

/-- However the candidates are offered, exactly `count` of the eligible ones are chosen, or all where
there are fewer, and none that is left out is used later than one that is chosen. -/
theorem choose_furthest (bl : NextUseBlockLiveness) (pinned : List SSAValue) (ip count : Nat)
    (candidates : List SSAValue)
    (known : ∀ ssa ∈ candidates, ssa ∉ pinned → ∃ use, bl.nextUseAfterOrAtIp ssa ip = some use) :
    ∃ chosen left, choose bl pinned ip count candidates = .ok chosen ∧
      (chosen ++ left).Perm (candidates.filter (eligible bl pinned ip)) ∧
      chosen.length = min count (candidates.filter (eligible bl pinned ip)).length ∧
      ∀ ssa ∈ chosen, ∀ other ∈ left, ∀ use use', UsedLater bl ip ssa use →
        UsedLater bl ip other use' → use' ≤ use := by
  obtain ⟨chooser, added, left, holds⟩ := foldlM_ok addCandidate
    (fun offered chooser => ∃ left, Holds bl pinned ip count offered left chooser)
    candidates [] (new bl pinned ip count) ⟨[], Holds.new⟩ (by
      rintro before ssa chooser member ⟨left, holds⟩
      obtain ⟨left', chooser', added, holds'⟩ := holds.addCandidate (known ssa member)
      exact ⟨chooser', added, left', holds'⟩)
  rw [List.nil_append] at holds
  refine ⟨chooser.choices, left, ?_, holds.split, ?_, ?_⟩
  · unfold choose
    rw [added]
    rfl
  · have length := holds.split.length_eq
    have choices : chooser.choices.length = chooser.spills.length := List.length_map _
    rw [List.length_append, choices] at length
    rw [choices]
    have full := holds.full
    by_cases space : chooser.spills.length < count
    · have none := (holds.room space).1
      rw [none, List.length_nil] at length
      omega
    · omega
  · intro ssa chosen other leftOut use use' later later'
    obtain ⟨spill, member, rfl⟩ := List.mem_map.mp chosen
    have same : use = spill.nextUse :=
      Option.some_inj.mp (later.1.symm.trans (holds.used spill member).1)
    have := holds.above spill member
    have := holds.below other leftOut use' later'
    omega

/-- A block in which the first value is used by the first instruction and again by the sixth, the
second by the third. -/
def exampleBlock : NextUseBlockLiveness where
  ssaMap ssa :=
    if ssa.idx = 1 then some { uses := [0, 5] }
    else if ssa.idx = 2 then some { uses := [2] }
    else none

theorem choose_furthest_example :
    ∃ chosen left, choose exampleBlock [] 0 1 [⟨.gpr, 1⟩, ⟨.gpr, 2⟩] = .ok chosen ∧
      (chosen ++ left).Perm ([⟨.gpr, 1⟩, ⟨.gpr, 2⟩].filter (eligible exampleBlock [] 0)) ∧
      chosen.length = min 1 ([⟨.gpr, 1⟩, ⟨.gpr, 2⟩].filter (eligible exampleBlock [] 0)).length ∧
      ∀ ssa ∈ chosen, ∀ other ∈ left, ∀ use use', UsedLater exampleBlock 0 ssa use →
        UsedLater exampleBlock 0 other use' → use' ≤ use :=
  choose_furthest exampleBlock [] 0 1 _ (by
    intro ssa member _
    rw [List.mem_cons, List.mem_singleton] at member
    rcases member with rfl | rfl
    · exact ⟨0, rfl⟩
    · exact ⟨2, rfl⟩)

/-- A value that the instruction itself uses is not chosen, though it is used again later: its next
use is the instruction. -/
theorem choose_usedNow :
    choose exampleBlock [] 0 1 [⟨.gpr, 1⟩] = .ok [] ∧
      ∃ entry, exampleBlock.ssaMap ⟨.gpr, 1⟩ = some entry ∧ ∃ use ∈ entry.uses, 0 < use :=
  ⟨rfl, { uses := [0, 5] }, rfl, 5, by simp, by omega⟩

end SpillChooser

end CoralReef
