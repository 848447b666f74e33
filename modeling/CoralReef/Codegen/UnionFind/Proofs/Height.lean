import CoralReef.Codegen.UnionFind.Proofs.Classes
import Mathlib.Data.Set.Card
import Mathlib.Data.Nat.Log

/-!
# The partition and the height of a union-find forest

The size at a root counts its class, and linking by size doubles it with every link that a path
gains. Over any sequence of calls the classes are those that the joined pairs generate.
-/

open List
open Function (update update_of_ne update_self)

namespace CoralReef.UnionFind

variable {X : Type}
variable {uf : UnionFind X}

/-- The values of the tree below `r`. -/
def members (uf : UnionFind X) (r : Nat) : Set X :=
  {x | ∃ i n, uf.idxMap x = some i ∧ Reaches uf.nodes n i r}

/-- The size at a root is that of its class, and every node lies at most its logarithm below. -/
structure Balanced (uf : UnionFind X) : Prop where
  counts : ∀ {r size : Nat} {x : X}, uf.nodes[r]? = some (.root size x) →
    (members uf r).encard = size
  low : ∀ {r size : Nat} {x : X}, uf.nodes[r]? = some (.root size x) →
    ∀ {n i : Nat}, Reaches uf.nodes n i r → 2 ^ n ≤ size

theorem Balanced.empty : Balanced ({} : UnionFind X) where
  counts := by
    intro r size x atRoot
    cases atRoot
  low := by
    intro r size x atRoot
    cases atRoot

/-- The class of a representative is the tree below its root. -/
theorem Wf.members_eq (wf : uf.Wf) {r size : Nat} {x : X}
    (atRoot : uf.nodes[r]? = some (.root size x)) : members uf r = {y | uf.rep y = x} := by
  ext y
  constructor
  · rintro ⟨i, n, present, reaches⟩
    exact rep_eq present reaches atRoot
  · intro same
    obtain ⟨j, m, presentX, reachesX⟩ := wf.owner r size x atRoot
    cases present : uf.idxMap y with
    | none =>
      have : y = x := (rep_of_none present).symm.trans same
      subst this
      rw [presentX] at present
      cases present
    | some i =>
      obtain ⟨n, s, size', reaches, atS⟩ := wf.root present
      have here : uf.rep y = x := same
      rw [here] at atS
      obtain rfl : s = r := wf.rep_inj atS atRoot
      exact ⟨i, n, present, reaches⟩

/-- Where every path of the old forest has one in the new forest, a path of the new forest comes
from one of the old. -/
theorem Wf.path_of (wf : uf.Wf) {nodes : List (UnionFindNode X)}
    (length : nodes.length = uf.nodes.length) {m i s : Nat} (reaches : Reaches nodes m i s) :
    ∃ n r, Reaches uf.nodes n i r ∧
      ∀ {m' s' : Nat}, Reaches nodes m' i s' → m' = m ∧ s' = s := by
  have inside := reaches.inside
  rw [length] at inside
  obtain ⟨n, r, old⟩ := wf.grounded i inside
  exact ⟨n, r, old, fun other => other.unique reaches⟩

theorem Balanced.halve (wf : uf.Wf) (balanced : uf.Balanced) {nodes : List (UnionFindNode X)}
    (same : SameRoots uf.nodes nodes) :
    Balanced { uf with nodes } := by
  have back : ∀ {m i r : Nat}, Reaches nodes m i r → ∃ n ≥ m, Reaches uf.nodes n i r := by
    intro m i r reaches
    obtain ⟨n, s, old, unique⟩ := wf.path_of same.length reaches
    obtain ⟨m', shorter, new⟩ := same.reaches old
    obtain ⟨rfl, rfl⟩ := unique new
    exact ⟨n, shorter, old⟩
  constructor
  · intro r size x atRoot
    rw [← balanced.counts (same.roots.mpr atRoot)]
    congr 1
    ext y
    constructor
    · rintro ⟨i, m, present, reaches⟩
      obtain ⟨n, -, old⟩ := back reaches
      exact ⟨i, n, present, old⟩
    · rintro ⟨i, n, present, reaches⟩
      obtain ⟨m, -, new⟩ := same.reaches reaches
      exact ⟨i, m, present, new⟩
  · intro r size x atRoot m i reaches
    obtain ⟨n, longer, old⟩ := back reaches
    exact (Nat.pow_le_pow_right (by omega) longer).trans
      (balanced.low (same.roots.mpr atRoot) old)

/-- Linking a tree below one that is no smaller. -/
theorem Balanced.link (wf : uf.Wf) (balanced : uf.Balanced) {c r size size' : Nat} {x x' y : X}
    (atC : uf.nodes[c]? = some (.root size x)) (atR : uf.nodes[r]? = some (.root size' x'))
    (cr : c ≠ r) (smaller : size ≤ size') :
    Balanced { uf with nodes := (uf.nodes.set r (.root (size + size') y)).set c (.child r) } := by
  set nodes := (uf.nodes.set r (.root (size + size') y)).set c (.child r) with nodesDef
  have cIn := (List.getElem?_eq_some_iff.mp atC).1
  have rIn := (List.getElem?_eq_some_iff.mp atR).1
  have back : ∀ {m i s : Nat}, Reaches nodes m i s → ∃ n t, Reaches uf.nodes n i t ∧
      m = (if t = c then n + 1 else n) ∧ s = if t = c then r else t := by
    intro m i s reaches
    obtain ⟨n, t, old, unique⟩ := wf.path_of (by simp [nodesDef]) reaches
    obtain ⟨distance, root⟩ := unique (old.link atC atR cr (size + size'))
    exact ⟨n, t, old, distance.symm, root.symm⟩
  have newRoot : nodes[r]? = some (.root (size + size') y) := by
    rw [nodesDef, getElem?_set_ne cr, getElem?_set_self rIn]
  have old : ∀ {s total : Nat} {z : X}, s ≠ r → nodes[s]? = some (.root total z) →
      s ≠ c ∧ uf.nodes[s]? = some (.root total z) := by
    intro s total z notR atRoot
    have notC : s ≠ c := by
      rintro rfl
      rw [nodesDef, getElem?_set_self (by rwa [length_set])] at atRoot
      cases atRoot
    rw [nodesDef, getElem?_set_ne (Ne.symm notC), getElem?_set_ne (Ne.symm notR)] at atRoot
    exact ⟨notC, atRoot⟩
  constructor
  · intro s total z atRoot
    by_cases isR : s = r
    · subst isR
      have both : members { uf with nodes } s = members uf c ∪ members uf s := by
        ext w
        constructor
        · rintro ⟨i, m, present, reaches⟩
          obtain ⟨n, t, path, -, root⟩ := back reaches
          by_cases isC : t = c
          · subst isC
            exact .inl ⟨i, n, present, path⟩
          · rw [if_neg isC] at root
            subst root
            exact .inr ⟨i, n, present, path⟩
        · rintro (⟨i, n, present, path⟩ | ⟨i, n, present, path⟩)
          · have new := path.link atC atR cr (y := y) (size + size')
            rw [if_pos rfl, if_pos rfl] at new
            exact ⟨i, _, present, new⟩
          · have new := path.link atC atR cr (y := y) (size + size')
            rw [if_neg (Ne.symm cr), if_neg (Ne.symm cr)] at new
            exact ⟨i, _, present, new⟩
      have apart : Disjoint (members uf c) (members uf s) := by
        rw [Set.disjoint_left]
        rintro w ⟨i, n, present, path⟩ ⟨j, m, present', path'⟩
        rw [present] at present'
        cases present'
        exact cr (path.unique path').2
      have known : nodes[s]? = some (.root total z) := atRoot
      rw [newRoot] at known
      cases known
      rw [both, Set.encard_union_eq apart, balanced.counts atC, balanced.counts atR]
      rfl
    · obtain ⟨notC, atOld⟩ := old isR atRoot
      rw [← balanced.counts atOld]
      congr 1
      ext w
      constructor
      · rintro ⟨i, m, present, reaches⟩
        obtain ⟨n, t, path, -, root⟩ := back reaches
        by_cases isC : t = c
        · rw [if_pos isC] at root
          exact absurd root isR
        · rw [if_neg isC] at root
          subst root
          exact ⟨i, n, present, path⟩
      · rintro ⟨i, n, present, path⟩
        have new := path.link atC atR cr (y := y) (size + size')
        rw [if_neg notC, if_neg notC] at new
        exact ⟨i, n, present, new⟩
  · intro s total z atRoot m i reaches
    obtain ⟨n, t, path, distance, root⟩ := back reaches
    by_cases isC : t = c
    · subst isC
      rw [if_pos rfl] at distance root
      subst distance root
      have known : nodes[s]? = some (.root total z) := atRoot
      rw [newRoot] at known
      cases known
      have := balanced.low atC path
      rw [pow_succ]
      omega
    · rw [if_neg isC] at distance root
      subst distance root
      by_cases isR : s = r
      · subst isR
        have known : nodes[s]? = some (.root total z) := atRoot
        rw [newRoot] at known
        cases known
        have := balanced.low atR path
        omega
      · exact balanced.low (old isR atRoot).2 path

theorem Balanced.find {uf uf' : UnionFind X} (wf : uf.Wf) (balanced : uf.Balanced) {x y : X}
    (found : uf.find x = .ok (y, uf')) : uf'.Balanced := by
  cases present : uf.idxMap x with
  | none =>
    simp only [UnionFind.find, present] at found
    cases found
    exact balanced
  | some i =>
    obtain ⟨n, r, size, reaches, atRoot⟩ := wf.root present
    obtain ⟨nodes, found', same⟩ := find_eq present reaches atRoot
    rw [found'] at found
    cases found
    exact balanced.halve wf same

variable [DecidableEq X]

/-- A new value is the only member of its class, and its node is a root. -/
theorem Balanced.mapOrCreate (wf : uf.Wf) (balanced : uf.Balanced) (x : X) :
    (uf.mapOrCreate x).2.Balanced := by
  unfold UnionFind.mapOrCreate
  cases absent : uf.idxMap x with
  | some i => exact balanced
  | none =>
    set nodes := uf.nodes ++ [.root 1 x] with nodesDef
    have last : nodes[uf.nodes.length]? = some (.root 1 x) := by simp [nodesDef]
    have old : ∀ {i : Nat}, i < uf.nodes.length → nodes[i]? = uf.nodes[i]? :=
      fun inside => getElem?_append_left inside
    have keep : ∀ {n i r : Nat}, Reaches uf.nodes n i r → Reaches nodes n i r := by
      intro n i r reaches
      induction reaches with
      | root here => exact .root (by rwa [old (List.getElem?_eq_some_iff.mp here).1])
      | child here _ ih =>
        exact .child (by rwa [old (List.getElem?_eq_some_iff.mp here).1]) ih
    have split : ∀ {n i r : Nat}, Reaches nodes n i r →
        (i < uf.nodes.length ∧ Reaches uf.nodes n i r) ∨
          (i = uf.nodes.length ∧ n = 0 ∧ r = uf.nodes.length) := by
      intro n i r reaches
      have inside := reaches.inside
      rw [nodesDef, length_append, length_singleton] at inside
      by_cases new : i = uf.nodes.length
      · subst new
        exact .inr ⟨rfl, reaches.unique (.root last)⟩
      · obtain ⟨m, s, path⟩ := wf.grounded i (by omega)
        obtain ⟨rfl, rfl⟩ := reaches.unique (keep path)
        exact .inl ⟨path.inside, path⟩
    have root : ∀ {r size : Nat} {y : X}, nodes[r]? = some (.root size y) →
        (r < uf.nodes.length ∧ uf.nodes[r]? = some (.root size y)) ∨
          (r = uf.nodes.length ∧ size = 1) := by
      intro r size y atRoot
      rcases split (.root atRoot) with ⟨inside, -⟩ | ⟨rfl, -, -⟩
      · rw [old inside] at atRoot
        exact .inl ⟨inside, atRoot⟩
      · rw [last] at atRoot
        cases atRoot
        exact .inr ⟨rfl, rfl⟩
    have isRoot : ∀ {n i r : Nat}, Reaches uf.nodes n i r → r < uf.nodes.length := by
      intro n i r reaches
      obtain ⟨size, y, atRoot⟩ := reaches.isRoot
      exact (List.getElem?_eq_some_iff.mp atRoot).1
    constructor
    · intro r size y atRoot
      rcases root atRoot with ⟨inside, atOld⟩ | ⟨rfl, rfl⟩
      · rw [← balanced.counts atOld]
        congr 1
        ext z
        constructor
        · rintro ⟨i, n, present, reaches⟩
          change update uf.idxMap x (some uf.nodes.length) z = some i at present
          rcases split reaches with ⟨here, path⟩ | ⟨-, -, rfl⟩
          · refine ⟨i, n, ?_, path⟩
            by_cases same : z = x
            · subst same
              rw [update_self] at present
              cases present
              omega
            · rwa [update_of_ne same] at present
          · omega
        · rintro ⟨i, n, present, reaches⟩
          refine ⟨i, n, ?_, keep reaches⟩
          show update uf.idxMap x (some uf.nodes.length) z = some i
          rw [update_of_ne]
          · exact present
          · rintro rfl
            rw [absent] at present
            cases present
      · rw [Nat.cast_one, Set.encard_eq_one]
        refine ⟨x, Set.eq_singleton_iff_unique_mem.mpr ⟨?_, ?_⟩⟩
        · exact ⟨_, 0, update_self .., .root last⟩
        · rintro z ⟨i, n, present, reaches⟩
          by_contra differs
          change update uf.idxMap x (some uf.nodes.length) z = some i at present
          rw [update_of_ne differs] at present
          rcases split reaches with ⟨-, path⟩ | ⟨rfl, -, -⟩
          · exact (isRoot path).ne rfl
          · exact (wf.bound z _ present).ne rfl
    · intro r size y atRoot n i reaches
      rcases root atRoot with ⟨inside, atOld⟩ | ⟨rfl, rfl⟩
      · rcases split reaches with ⟨-, path⟩ | ⟨-, -, rfl⟩
        · exact balanced.low atOld path
        · omega
      · rcases split reaches with ⟨-, path⟩ | ⟨-, rfl, -⟩
        · exact absurd (isRoot path) (lt_irrefl _)
        · rfl

theorem Balanced.union {uf uf' : UnionFind X} (wf : uf.Wf) (balanced : uf.Balanced) {a b : X}
    (joined : uf.union a b = .ok uf') : uf'.Balanced := by
  by_cases equal : a = b
  · simp only [UnionFind.union, if_pos equal] at joined
    cases joined
    exact balanced
  · obtain ⟨wfA, -, -, -⟩ := wf.mapOrCreate_ok a
    obtain ⟨wfB, -, -, -⟩ := wfA.mapOrCreate_ok b
    have grown := (balanced.mapOrCreate wf a).mapOrCreate wfA b
    obtain ⟨nodes, r, s, size, size', same, wfH, -, atA, atB, returned⟩ := wf.union_cases equal
    have halved := grown.halve wfB same
    rcases returned with ⟨-, returned⟩ | ⟨apart, smaller, returned⟩ | ⟨apart, smaller, returned⟩
    · rw [returned] at joined
      cases joined
      exact halved
    · rw [returned] at joined
      cases joined
      rw [Nat.add_comm size size']
      exact halved.link wfH atB atA (Ne.symm apart) smaller
    · rw [returned] at joined
      cases joined
      exact halved.link wfH atA atB apart smaller

/-! ## Sequences of calls -/

/-- A call of the interface. -/
inductive Call (X : Type) where
  | union (a b : X)
  | find (x : X)

/-- The forest after a call. -/
def call (uf : UnionFind X) : Call X → Except Fault (UnionFind X)
  | .union a b => uf.union a b
  | .find x => do
    let (_, uf) ← uf.find x
    return uf

/-- The calls join the pair. -/
def Joins (calls : List (Call X)) (a b : X) : Prop := Call.union a b ∈ calls

/-- The classes are those that the pairs joined by the calls generate. -/
structure Partitions (uf : UnionFind X) (calls : List (Call X)) : Prop where
  wf : uf.Wf
  balanced : uf.Balanced
  classes : ∀ x y, uf.rep x = uf.rep y ↔ Relation.EqvGen (Joins calls) x y

omit [DecidableEq X] in
theorem Partitions.empty : Partitions ({} : UnionFind X) [] where
  wf := Wf.empty
  balanced := Balanced.empty
  classes := by
    intro x y
    rw [rep_of_none rfl, rep_of_none rfl]
    constructor
    · rintro rfl
      exact .refl _
    · intro related
      induction related with
      | rel _ _ joins => cases joins
      | refl => rfl
      | symm _ _ _ ih => exact ih.symm
      | trans _ _ _ _ _ ih ih' => exact ih.trans ih'

omit [DecidableEq X] in
theorem Partitions.find {calls : List (Call X)} (partitions : Partitions uf calls) (x : X) :
    ∃ uf', uf.find x = .ok (uf.rep x, uf') ∧ uf'.rep = uf.rep ∧
      Partitions uf' (calls ++ [.find x]) := by
  obtain ⟨uf', found, wf, rep⟩ := partitions.wf.find_ok x
  refine ⟨uf', found, rep, wf, partitions.balanced.find partitions.wf found, ?_⟩
  intro y z
  have same : Joins (calls ++ [.find x]) = Joins calls := by
    funext a b
    simp [Joins]
  rw [rep, same]
  exact partitions.classes y z

theorem Partitions.union {calls : List (Call X)} (partitions : Partitions uf calls) (a b : X) :
    ∃ uf', uf.union a b = .ok uf' ∧
      (∀ z, uf'.rep z = if uf.rep z = uf.rep b then uf.rep a else uf.rep z) ∧
      Partitions uf' (calls ++ [.union a b]) := by
  obtain ⟨uf', joined, wf, rep⟩ := partitions.wf.union_ok a b
  refine ⟨uf', joined, rep, wf, partitions.balanced.union partitions.wf joined, ?_⟩
  have more : ∀ {x y : X}, Relation.EqvGen (Joins calls) x y →
      Relation.EqvGen (Joins (calls ++ [.union a b])) x y := by
    intro x y related
    exact related.mono fun x y joins => mem_append_left _ joins
  have pair : Relation.EqvGen (Joins (calls ++ [.union a b])) a b :=
    .rel _ _ (mem_append_right _ mem_cons_self)
  -- every value stays related to its new representative
  have toRep : ∀ z, Relation.EqvGen (Joins (calls ++ [.union a b])) z (uf'.rep z) := by
    intro z
    have own : ∀ w, Relation.EqvGen (Joins calls) w (uf.rep w) :=
      fun w => (partitions.classes w (uf.rep w)).mp (partitions.wf.rep_rep w).symm
    rw [rep z]
    split
    next inClass =>
      have toB := (partitions.classes z b).mp inClass
      exact (more toB).trans _ _ _ (pair.symm.trans _ _ _ (more (own a)))
    next => exact more (own z)
  intro x y
  constructor
  · intro same
    have fromX := toRep x
    rw [same] at fromX
    exact fromX.trans _ _ _ (toRep y).symm
  · intro related
    induction related with
    | rel x y joins =>
      rcases mem_append.mp joins with before | now
      · rw [rep x, rep y, (partitions.classes x y).mpr (.rel _ _ before)]
      · rw [mem_singleton] at now
        cases now
        rw [rep a, rep b, if_pos rfl, ite_self]
    | refl => rfl
    | symm _ _ _ ih => exact ih.symm
    | trans _ _ _ _ _ ih ih' => exact ih.trans ih'

/-- A sequence of calls returns. -/
theorem Partitions.run : ∀ (later : List (Call X)) {uf : UnionFind X} {calls : List (Call X)},
    Partitions uf calls →
      ∃ uf', later.foldlM call uf = .ok uf' ∧ Partitions uf' (calls ++ later) := by
  intro later
  induction later with
  | nil =>
    intro uf calls partitions
    exact ⟨uf, rfl, by rwa [append_nil]⟩
  | cons next later ih =>
    intro uf calls partitions
    have step : ∃ mid, call uf next = .ok mid ∧ Partitions mid (calls ++ [next]) := by
      cases next with
      | union a b =>
        obtain ⟨mid, joined, -, partitions'⟩ := partitions.union a b
        exact ⟨mid, joined, partitions'⟩
      | find x =>
        obtain ⟨mid, found, -, partitions'⟩ := partitions.find x
        refine ⟨mid, ?_, partitions'⟩
        rw [call, found]
        rfl
    obtain ⟨mid, returned, partitions'⟩ := step
    obtain ⟨uf', returned', partitions''⟩ := ih partitions'
    refine ⟨uf', ?_, ?_⟩
    · rw [foldlM_cons, returned]
      exact returned'
    · rwa [append_assoc] at partitions''

/-- After any sequence of calls the classes are those of the joined pairs: `find` returns the
representative of the class and changes none, and `union` keeps that of its first argument. No node
lies further from its root than the logarithm of the size of the class. -/
theorem calls_partition (calls : List (Call X)) :
    ∃ uf : UnionFind X, calls.foldlM call {} = .ok uf ∧
      (∀ x y, uf.rep x = uf.rep y ↔ Relation.EqvGen (Joins calls) x y) ∧
      (∀ x, uf.rep (uf.rep x) = uf.rep x ∧
        ∃ uf', uf.find x = .ok (uf.rep x, uf') ∧ uf'.rep = uf.rep) ∧
      (∀ a b, ∃ uf', uf.union a b = .ok uf' ∧
        ∀ z, uf'.rep z = if uf.rep z = uf.rep b then uf.rep a else uf.rep z) ∧
      ∀ (r size : Nat) (x : X), uf.nodes[r]? = some (.root size x) →
        {y | uf.rep y = x}.encard = size ∧
          ∀ n i : Nat, Reaches uf.nodes n i r → n ≤ Nat.log 2 size := by
  obtain ⟨uf, returned, partitions⟩ := Partitions.run calls (Partitions.empty (X := X))
  rw [List.nil_append] at partitions
  refine ⟨uf, returned, partitions.classes, ?_, ?_, ?_⟩
  · intro x
    obtain ⟨uf', found, rep, -⟩ := partitions.find x
    exact ⟨partitions.wf.rep_rep x, uf', found, rep⟩
  · intro a b
    obtain ⟨uf', joined, rep, -⟩ := partitions.union a b
    exact ⟨uf', joined, rep⟩
  · intro r size x atRoot
    refine ⟨?_, ?_⟩
    · rw [← partitions.wf.members_eq atRoot]
      exact partitions.balanced.counts atRoot
    · intro n i reaches
      have low := partitions.balanced.low atRoot reaches
      exact Nat.le_log_of_pow_le (by omega) low

end CoralReef.UnionFind
