import CoralReef.Codegen.AssignRegs.PhiWebs
import CoralReef.Codegen.UnionFind.Proofs.Classes
import Mathlib.Tactic.IntervalCases

/-!
# When phi webs are built

`PhiWebs.new` pairs each predecessor's phi sources with the block's phi destinations. It returns
on the functions in which the two agree, and then its classes are the chains of such pairs.
-/

namespace CoralReef.PhiWebs

open List Relation

/-- No phi has two destinations in one block. -/
def DstsUnique (f : Function) : Prop :=
  ∀ b dsts, f.phiDsts b = some dsts → (dsts.map Prod.fst).Nodup

/-- Every predecessor of a block with phis has phi sources, each of them a scalar for one of the
phis of the block. -/
def Plumbed (f : Function) : Prop :=
  ∀ b dsts, b < f.blocks.len → f.phiDsts b = some dsts →
    (∀ entry ∈ dsts, ∃ vec, entry.2 = .ssa vec) ∧
      ∀ p ∈ f.blocks.predecessors b,
        ∃ srcs, f.phiSrcs p = some srcs ∧
          ∀ entry ∈ srcs, ∃ a d, entry.2.asSsa = some [a] ∧ (entry.1, Dst.ssa [d]) ∈ dsts

/-- `a` is a source and `d` the destination of one phi, on one CFG edge. -/
def Pair (f : Function) (a d : SSAValue) : Prop :=
  ∃ b p dsts srcs phi src, f.phiDsts b = some dsts ∧
    p ∈ f.blocks.predecessors b ∧ f.phiSrcs p = some srcs ∧
    (phi, src) ∈ srcs ∧ src.asSsa = some [a] ∧ (phi, Dst.ssa [d]) ∈ dsts

/-- The classes of the union-find are those that `joined` generates. -/
structure Joins (joined : SSAValue → SSAValue → Prop) (uf : UnionFind SSAValue) : Prop where
  wf : uf.Wf
  classes : ∀ a b, uf.rep a = uf.rep b ↔ EqvGen joined a b

theorem Joins.empty : Joins (fun _ _ => False) {} where
  wf := UnionFind.Wf.empty
  classes := by
    intro a b
    rw [UnionFind.rep_of_none rfl, UnionFind.rep_of_none rfl]
    constructor
    · rintro rfl
      exact EqvGen.refl a
    · intro chain
      induction chain with
      | rel _ _ h => exact h.elim
      | refl => rfl
      | symm _ _ _ ih => exact ih.symm
      | trans _ _ _ _ _ ih ih' => exact ih.trans ih'

theorem Joins.congr {joined joined' : SSAValue → SSAValue → Prop} {uf : UnionFind SSAValue}
    (joins : Joins joined uf) (same : ∀ a b, joined a b ↔ joined' a b) : Joins joined' uf := by
  have : joined = joined' := funext fun a => funext fun b => propext (same a b)
  rwa [← this]

/-- `union` adds one pair. -/
theorem Joins.union {joined : SSAValue → SSAValue → Prop} {uf : UnionFind SSAValue}
    (joins : Joins joined uf) (a d : SSAValue) :
    ∃ uf', uf.union a d = .ok uf' ∧ Joins (fun x y => joined x y ∨ x = a ∧ y = d) uf' := by
  obtain ⟨uf', returned, wf, rep⟩ := joins.wf.union_ok a d
  have old : ∀ {x y}, EqvGen joined x y → EqvGen (fun x y => joined x y ∨ x = a ∧ y = d) x y :=
    fun chain => chain.mono fun _ _ h => Or.inl h
  have new : EqvGen (fun x y => joined x y ∨ x = a ∧ y = d) a d :=
    EqvGen.rel a d (Or.inr ⟨rfl, rfl⟩)
  refine ⟨uf', returned, wf, ?_⟩
  intro x y
  constructor
  · intro same
    rw [rep, rep] at same
    split at same
    · rename_i inX
      have xd := old ((joins.classes x d).mp inX)
      split at same
      · rename_i inY
        exact xd.trans _ _ _ (old ((joins.classes y d).mp inY)).symm
      · exact (xd.trans _ _ _ new.symm).trans _ _ _ (old ((joins.classes a y).mp same))
    · split at same
      · rename_i inY
        have yd := old ((joins.classes y d).mp inY)
        exact ((old ((joins.classes x a).mp same)).trans _ _ _ new).trans _ _ _ yd.symm
      · exact old ((joins.classes x y).mp same)
  · intro chain
    induction chain with
    | rel x y h =>
      rcases h with h | ⟨rfl, rfl⟩
      · have := (joins.classes x y).mpr (EqvGen.rel x y h)
        rw [rep, rep, this]
      · rw [rep, rep, if_pos rfl, ite_self]
    | refl => rfl
    | symm _ _ _ ih => exact ih.symm
    | trans _ _ _ _ _ ih ih' => exact ih.trans ih'

/-- The map of the destinations is made when all of them are SSA, in reverse order. -/
theorem dstMap_eq_ok {dsts : List (Phi × Dst)} {map : List (Phi × SSARef)} :
    dstMap dsts = .ok map ↔ dsts = map.reverse.map fun entry => (entry.1, Dst.ssa entry.2) := by
  have entries : ∀ (dsts : List (Phi × Dst)) (map : List (Phi × SSARef)),
      (dsts.mapM fun entry => do
        let ssaRef ← expect entry.2.asSsa "Expected ssa form"
        return (entry.1, ssaRef) : Except Fault (List (Phi × SSARef))) = .ok map ↔
        dsts = map.map fun entry => (entry.1, Dst.ssa entry.2) := by
    intro dsts
    induction dsts with
    | nil =>
      intro map
      cases map with
      | nil => exact iff_of_true rfl rfl
      | cons => exact iff_of_false nofun nofun
    | cons entry dsts ih =>
      intro map
      obtain ⟨phi, dst⟩ := entry
      rw [mapM_cons, bind_eq_ok]
      cases dst with
      | ssa vec =>
        cases map with
        | nil =>
          refine iff_of_false ?_ nofun
          rintro ⟨first, -, rest⟩
          rw [bind_eq_ok] at rest
          obtain ⟨later, -, done⟩ := rest
          cases done
        | cons head tail =>
          rw [map_cons, List.cons.injEq, ← ih]
          constructor
          · rintro ⟨first, here, rest⟩
            rw [bind_eq_ok] at rest
            obtain ⟨later, returned, done⟩ := rest
            cases here
            cases done
            exact ⟨rfl, returned⟩
          · rintro ⟨here, returned⟩
            refine ⟨(phi, vec), rfl, ?_⟩
            rw [returned, ok_bind]
            obtain ⟨phi', vec'⟩ := head
            cases here
            rfl
      | none | reg =>
        constructor
        · rintro ⟨first, here, -⟩
          cases here
        · intro same
          cases map with
          | nil => cases same
          | cons head tail =>
            rw [map_cons, List.cons.injEq] at same
            cases same.1
  unfold dstMap
  rw [bind_eq_ok]
  constructor
  · rintro ⟨list, returned, done⟩
    cases done
    rw [List.reverse_reverse]
    exact (entries dsts list).mp returned
  · intro same
    refine ⟨map.reverse, (entries dsts _).mpr same, ?_⟩
    rw [List.reverse_reverse]
    rfl

/-- `x` is the scalar source of `entry`, and `y` the scalar destination of its phi. -/
def SrcPair (dsts : List (Phi × Dst)) (entry : Phi × Src) (x y : SSAValue) : Prop :=
  entry.2.asSsa = some [x] ∧ (entry.1, Dst.ssa [y]) ∈ dsts

section Block

variable {dsts : List (Phi × Dst)} {map : List (Phi × SSARef)}

theorem lookup_eq_some (made : dstMap dsts = .ok map) (unique : (dsts.map Prod.fst).Nodup)
    (phi : Phi) (vec : SSARef) : map.lookup phi = some vec ↔ (phi, Dst.ssa vec) ∈ dsts := by
  rw [dstMap_eq_ok] at made
  have member : (phi, Dst.ssa vec) ∈ dsts ↔ (phi, vec) ∈ map := by
    rw [made]
    simp
  have distinct : (map.map Prod.fst).Nodup := by
    rw [made, List.map_map] at unique
    rw [← nodup_reverse, ← map_reverse]
    exact unique
  rw [member]
  constructor
  · intro found
    obtain ⟨before, after, rfl, -⟩ := lookup_eq_some_iff.mp found
    simp
  · intro present
    obtain ⟨before, after, rfl⟩ := append_of_mem present
    rw [lookup_eq_some_iff]
    refine ⟨before, after, rfl, ?_⟩
    intro other inside
    rw [map_append, nodup_append] at distinct
    have := distinct.2.2 other.1 (mem_map_of_mem inside) phi (by simp)
    simpa [bne_iff_ne] using Ne.symm this

/-- One source of a predecessor: its step returns when it is half of a pair, and joins it. -/
theorem unionSrc_ok (made : dstMap dsts = .ok map) (unique : (dsts.map Prod.fst).Nodup)
    {joined : SSAValue → SSAValue → Prop} {uf : UnionFind SSAValue} (joins : Joins joined uf)
    {entry : Phi × Src} (plumbed : ∃ a d, SrcPair dsts entry a d) :
    ∃ uf', unionSrc map uf entry = .ok uf' ∧
      Joins (fun x y => joined x y ∨ SrcPair dsts entry x y) uf' := by
  obtain ⟨a, d, isSsa, member⟩ := plumbed
  have found := (lookup_eq_some made unique entry.1 [d]).mpr member
  obtain ⟨uf', returned, joins'⟩ := joins.union a d
  refine ⟨uf', ?_, joins'.congr ?_⟩
  · simp only [unionSrc, isSsa, found, expect_some, ok_bind]
    exact returned
  · intro x y
    refine or_congr Iff.rfl ?_
    constructor
    · rintro ⟨rfl, rfl⟩
      exact ⟨isSsa, member⟩
    · rintro ⟨isSsa', member'⟩
      rw [isSsa] at isSsa'
      rw [← lookup_eq_some made unique, found] at member'
      cases isSsa'
      cases member'
      exact ⟨rfl, rfl⟩

theorem srcPair_of_ok (made : dstMap dsts = .ok map) (unique : (dsts.map Prod.fst).Nodup)
    {entry : Phi × Src} {uf uf' : UnionFind SSAValue} (returned : unionSrc map uf entry = .ok uf') :
    ∃ a d, SrcPair dsts entry a d := by
  unfold unionSrc at returned
  rw [bind_eq_ok] at returned
  obtain ⟨vec, isSsa, returned⟩ := returned
  rw [bind_eq_ok] at returned
  obtain ⟨vec', found, returned⟩ := returned
  rw [expect_eq_ok] at isSsa found
  rw [lookup_eq_some made unique] at found
  split at returned
  · rename_i a d
    exact ⟨a, d, isSsa, found⟩
  · cases returned

variable {f : Function}

/-- The sources of predecessor `p` are each half of a pair. -/
def PredPlumbed (f : Function) (dsts : List (Phi × Dst)) (p : Nat) : Prop :=
  ∃ srcs, f.phiSrcs p = some srcs ∧ ∀ entry ∈ srcs, ∃ a d, SrcPair dsts entry a d

/-- A pair on the edge from predecessor `p`. -/
def PredPair (f : Function) (dsts : List (Phi × Dst)) (p : Nat) (x y : SSAValue) : Prop :=
  ∃ srcs entry, f.phiSrcs p = some srcs ∧ entry ∈ srcs ∧ SrcPair dsts entry x y

theorem unionPred_ok (made : dstMap dsts = .ok map) (unique : (dsts.map Prod.fst).Nodup)
    {joined : SSAValue → SSAValue → Prop} {uf : UnionFind SSAValue} (joins : Joins joined uf)
    {p : Nat} (plumbed : PredPlumbed f dsts p) :
    ∃ uf', unionPred f map uf p = .ok uf' ∧
      Joins (fun x y => joined x y ∨ PredPair f dsts p x y) uf' := by
  obtain ⟨srcs, present, pairs⟩ := plumbed
  obtain ⟨uf', returned, joins'⟩ := foldlM_ok (unionSrc map)
    (fun done uf => Joins (fun x y => joined x y ∨ ∃ entry ∈ done, SrcPair dsts entry x y) uf)
    srcs [] uf (joins.congr (by simp)) (by
      intro before entry state member holds
      obtain ⟨next, stepped, joins'⟩ := unionSrc_ok made unique holds (pairs entry member)
      refine ⟨next, stepped, joins'.congr ?_⟩
      intro x y
      simp only [mem_append, mem_singleton, or_and_right, exists_or, exists_eq_left]
      exact or_assoc)
  refine ⟨uf', ?_, joins'.congr ?_⟩
  · simp only [unionPred, present, expect_some, ok_bind]
    exact returned
  · intro x y
    refine or_congr Iff.rfl ?_
    constructor
    · rintro ⟨entry, member, pair⟩
      exact ⟨srcs, entry, present, member, pair⟩
    · rintro ⟨srcs', entry, present', member, pair⟩
      rw [present] at present'
      cases present'
      exact ⟨entry, member, pair⟩

theorem predPlumbed_of_ok (made : dstMap dsts = .ok map) (unique : (dsts.map Prod.fst).Nodup)
    {p : Nat} {uf uf' : UnionFind SSAValue} (returned : unionPred f map uf p = .ok uf') :
    PredPlumbed f dsts p := by
  unfold unionPred at returned
  rw [bind_eq_ok] at returned
  obtain ⟨srcs, present, returned⟩ := returned
  rw [expect_eq_ok] at present
  refine ⟨srcs, present, ?_⟩
  intro entry member
  obtain ⟨before, after, stepped⟩ := foldlM_ok_mem returned entry member
  exact srcPair_of_ok made unique stepped

end Block

section Whole

variable {f : Function}

/-- What `Plumbed` asks of one block. -/
def BlockPlumbed (f : Function) (b : Nat) : Prop :=
  ∀ dsts, f.phiDsts b = some dsts → (∀ entry ∈ dsts, ∃ vec, entry.2 = .ssa vec) ∧
    ∀ p ∈ f.blocks.predecessors b, PredPlumbed f dsts p

/-- A pair on an edge into block `b`. -/
def BlockPair (f : Function) (b : Nat) (x y : SSAValue) : Prop :=
  ∃ dsts p, f.phiDsts b = some dsts ∧ p ∈ f.blocks.predecessors b ∧ PredPair f dsts p x y

theorem exists_dstMap {dsts : List (Phi × Dst)}
    (isSsa : ∀ entry ∈ dsts, ∃ vec, entry.2 = .ssa vec) : ∃ map, dstMap dsts = .ok map := by
  choose! vec isVec using isSsa
  refine ⟨(dsts.map fun entry => (entry.1, vec entry)).reverse, ?_⟩
  rw [dstMap_eq_ok, List.reverse_reverse, List.map_map]
  symm
  refine (map_congr_left ?_).trans (map_id dsts)
  intro entry member
  exact Prod.ext rfl (isVec entry member).symm

theorem unionBlock_ok (unique : DstsUnique f) {joined : SSAValue → SSAValue → Prop}
    {uf : UnionFind SSAValue} (joins : Joins joined uf) {b : Nat} (plumbed : BlockPlumbed f b) :
    ∃ uf', unionBlock f uf b = .ok uf' ∧ Joins (fun x y => joined x y ∨ BlockPair f b x y) uf' := by
  cases present : f.phiDsts b with
  | none =>
    refine ⟨uf, ?_, joins.congr ?_⟩
    · simp only [unionBlock, present]
      rfl
    · intro x y
      simp [BlockPair, present]
  | some dsts =>
    obtain ⟨isSsa, preds⟩ := plumbed dsts present
    obtain ⟨map, made⟩ := exists_dstMap isSsa
    obtain ⟨uf', returned, joins'⟩ := foldlM_ok (unionPred f map)
      (fun done uf => Joins (fun x y => joined x y ∨ ∃ p ∈ done, PredPair f dsts p x y) uf)
      (f.blocks.predecessors b) [] uf (joins.congr (by simp)) (by
        intro before p state member holds
        obtain ⟨next, stepped, joins'⟩ :=
          unionPred_ok made (unique b dsts present) holds (preds p member)
        refine ⟨next, stepped, joins'.congr ?_⟩
        intro x y
        simp only [mem_append, mem_singleton, or_and_right, exists_or, exists_eq_left]
        exact or_assoc)
    refine ⟨uf', ?_, joins'.congr ?_⟩
    · simp only [unionBlock, present, made, ok_bind]
      exact returned
    · intro x y
      refine or_congr Iff.rfl ?_
      constructor
      · rintro ⟨p, member, pair⟩
        exact ⟨dsts, p, present, member, pair⟩
      · rintro ⟨dsts', p, present', member, pair⟩
        rw [present] at present'
        cases present'
        exact ⟨p, member, pair⟩

theorem blockPlumbed_of_ok (unique : DstsUnique f) {b : Nat} {uf uf' : UnionFind SSAValue}
    (returned : unionBlock f uf b = .ok uf') : BlockPlumbed f b := by
  intro dsts present
  unfold unionBlock at returned
  rw [present] at returned
  obtain ⟨map, made, returned⟩ := bind_eq_ok.mp returned
  refine ⟨?_, ?_⟩
  · intro entry member
    rw [dstMap_eq_ok] at made
    rw [made, mem_map] at member
    obtain ⟨pair, -, rfl⟩ := member
    exact ⟨pair.2, rfl⟩
  · intro p member
    obtain ⟨before, after, stepped⟩ := foldlM_ok_mem returned p member
    exact predPlumbed_of_ok made (unique b dsts present) stepped

theorem phiDsts_inside {b : Nat} {dsts : List (Phi × Dst)} (present : f.phiDsts b = some dsts) :
    b < f.blocks.len := by
  unfold Function.phiDsts at present
  rw [Option.bind_eq_some_iff] at present
  obtain ⟨bb, here, -⟩ := present
  exact (List.getElem?_eq_some_iff.mp here).1

/-- Phi webs are built, and are the chains of pairs, exactly when the phi sources of each
predecessor are those of the phis of the block. -/
theorem new_iff_plumbed (unique : DstsUnique f) :
    (∃ uf, new f = .ok uf ∧ ∀ a b, uf.rep a = uf.rep b ↔ EqvGen (Pair f) a b) ↔ Plumbed f := by
  constructor
  · rintro ⟨uf, returned, -⟩ b dsts inside present
    obtain ⟨before, after, stepped⟩ := foldlM_ok_mem returned b (List.mem_range.mpr inside)
    exact blockPlumbed_of_ok unique stepped dsts present
  · intro plumbed
    obtain ⟨uf, returned, joins⟩ := foldlM_ok (unionBlock f)
      (fun done uf => Joins (fun x y => ∃ b ∈ done, BlockPair f b x y) uf)
      (List.range f.blocks.len) [] {} (Joins.empty.congr (by simp)) (by
        intro before b state member holds
        have blockPlumbed : BlockPlumbed f b :=
          fun dsts present => plumbed b dsts (List.mem_range.mp member) present
        obtain ⟨next, stepped, joins⟩ := unionBlock_ok unique holds blockPlumbed
        refine ⟨next, stepped, joins.congr ?_⟩
        intro x y
        simp only [List.mem_append, List.mem_singleton, or_and_right, exists_or, exists_eq_left])
    refine ⟨uf, returned, ?_⟩
    intro a d
    rw [joins.classes]
    have same : (fun x y => ∃ b ∈ List.range f.blocks.len, BlockPair f b x y) = Pair f := by
      funext x y
      apply propext
      constructor
      · rintro ⟨b, -, dsts, p, present, edge, srcs, ⟨phi, src⟩, atP, member, isSsa, inDsts⟩
        exact ⟨b, p, dsts, srcs, phi, src, present, edge, atP, member, isSsa, inDsts⟩
      · rintro ⟨b, p, dsts, srcs, phi, src, present, edge, atP, member, isSsa, inDsts⟩
        exact ⟨b, List.mem_range.mpr (phiDsts_inside present), dsts, p, present, edge, srcs,
          (phi, src), atP, member, isSsa, inDsts⟩
    rw [List.nil_append, same]

end Whole

/-- A loop with a condition at its end, as the front end lowers
`loop { i = i + 1; continuing { break if i >= 4 } }` with `i` stored afterwards. The phi sources of
the latch are those of the exit (phi 1) and of the header (phi 0). -/
def doWhile : Function :=
  let i := fun n => (⟨.gpr, n⟩ : SSAValue)
  let p : SSAValue := ⟨.pred, 6⟩
  let op := fun name canEliminate dsts srcs =>
    Instr.new (.other ⟨name, canEliminate⟩ (dsts.map Dst.ofSsa) srcs)
  let always : Src := { reference := .boolTrue }
  { ssaAlloc := ⟨7⟩
    phiAlloc := ⟨3⟩
    blocks := {
      blocks := [
        { label := ⟨0⟩
          instrs := [.new (.copy (.ofSsa (i 1)) { reference := .zero }),
            .new (.phiSrcs [(⟨0⟩, .ofSsa (i 1))])] },
        { label := ⟨1⟩
          instrs := [.new (.phiDsts [(⟨0⟩, .ofSsa (i 2))]),
            op "iadd3" true [i 3] [.ofSsa (i 2), { reference := .imm32 1 }],
            .new (.phiSrcs [(⟨2⟩, .ofSsa (i 3))]), .new (.bra ⟨2⟩ always)] },
        { label := ⟨2⟩
          instrs := [.new (.phiDsts [(⟨2⟩, .ofSsa (i 4))]),
            op "isetp" true [p] [.ofSsa (i 4), { reference := .imm32 4 }],
            .new (.phiSrcs [(⟨1⟩, .ofSsa (i 4)), (⟨0⟩, .ofSsa (i 4))]),
            .new (.bra ⟨3⟩ (.ofSsa p)), .new (.bra ⟨1⟩ always)] },
        { label := ⟨3⟩
          instrs := [.new (.phiDsts [(⟨1⟩, .ofSsa (i 5))]),
            op "st" false [] [.ofSsa (i 5)], .new .exit] }]
      edges := [(0, 1), (1, 2), (2, 1), (2, 3)] } }

theorem doWhile_dstsUnique : DstsUnique doWhile := by
  intro b dsts present
  have inside : b < 4 := phiDsts_inside present
  interval_cases b <;> cases present <;> decide

/-- On the loop with its condition at the end, the header is given the phi of the exit. -/
theorem new_doWhile_faults :
    DstsUnique doWhile ∧ new doWhile = .error (.panic "no entry found for key") :=
  ⟨doWhile_dstsUnique, by rfl⟩

/-- A loop of one block that counts: the header is its own latch, and the exit has no phis. -/
def counting : Function :=
  let i := fun n => (⟨.gpr, n⟩ : SSAValue)
  let p : SSAValue := ⟨.pred, 4⟩
  let op := fun name canEliminate dsts srcs =>
    Instr.new (.other ⟨name, canEliminate⟩ (dsts.map Dst.ofSsa) srcs)
  { ssaAlloc := ⟨4⟩
    phiAlloc := ⟨1⟩
    blocks := {
      blocks := [
        { label := ⟨0⟩
          instrs := [.new (.copy (.ofSsa (i 1)) { reference := .zero }),
            .new (.phiSrcs [(⟨0⟩, .ofSsa (i 1))])] },
        { label := ⟨1⟩
          instrs := [.new (.phiDsts [(⟨0⟩, .ofSsa (i 2))]),
            op "iadd3" true [i 3] [.ofSsa (i 2), { reference := .imm32 1 }],
            op "isetp" true [p] [.ofSsa (i 3), { reference := .imm32 4 }],
            .new (.phiSrcs [(⟨0⟩, .ofSsa (i 3))]), .new (.bra ⟨1⟩ (.ofSsa p))] },
        { label := ⟨2⟩
          instrs := [op "st" false [] [.ofSsa (i 3)], .new .exit] }]
      edges := [(0, 1), (1, 1), (1, 2)] } }

theorem new_iff_plumbed_counting : DstsUnique counting ∧ Plumbed counting ∧
    ∃ uf, new counting = .ok uf ∧ ∀ a b, uf.rep a = uf.rep b ↔ EqvGen (Pair counting) a b := by
  have unique : DstsUnique counting := by
    intro b dsts present
    have inside : b < 3 := phiDsts_inside present
    interval_cases b <;> cases present
    decide
  have plumbed : Plumbed counting := by
    intro b dsts inside present
    have inside : b < 3 := inside
    interval_cases b <;> cases present
    refine ⟨by simp [Dst.ofSsa], ?_⟩
    intro p member
    have isPred : p = 0 ∨ p = 1 := by simpa [counting, CFG.predecessors] using member
    rcases isPred with rfl | rfl
    · refine ⟨[(⟨0⟩, .ofSsa ⟨.gpr, 1⟩)], rfl, fun entry isEntry => ?_⟩
      cases List.mem_singleton.mp isEntry
      exact ⟨⟨.gpr, 1⟩, ⟨.gpr, 2⟩, rfl, mem_cons_self⟩
    · refine ⟨[(⟨0⟩, .ofSsa ⟨.gpr, 3⟩)], rfl, fun entry isEntry => ?_⟩
      cases List.mem_singleton.mp isEntry
      exact ⟨⟨.gpr, 3⟩, ⟨.gpr, 2⟩, rfl, mem_cons_self⟩
  exact ⟨unique, plumbed, (new_iff_plumbed unique).mpr plumbed⟩

end CoralReef.PhiWebs
