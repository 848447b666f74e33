import Mathlib.Order.Lattice.Nat

/-!
# Facts about names that are defined once

Walks through a graph of places, each of which defines some names when it is left. A name that
every walk to a place has defined is available there. When each name is defined in one place only,
a fact that holds whenever `x` has just been defined, and that speaks of `x` and of names available
where `x` is defined, holds wherever `x` is available.
-/

open List

namespace CoralReef.SsaFacts

variable {P X S V : Type}

/-- The places left on the way from `start` to a place. -/
inductive Walk (next : P → P → Prop) (start : P) : List P → P → Prop where
  | refl : Walk next start [] start
  | leave {history : List P} {p q : P} (walk : Walk next start history p) (edge : next p q) :
      Walk next start (history ++ [p]) q

namespace Walk

variable {next : P → P → Prop} {start p q : P}

theorem trans {first second : List P} (walk : Walk next start first p)
    (rest : Walk next p second q) : Walk next start (first ++ second) q := by
  induction rest with
  | refl => rwa [append_nil]
  | leave _ edge ih =>
    rw [← append_assoc]
    exact .leave ih edge

/-- A walk goes through each place of its history. -/
theorem split {history : List P} (walk : Walk next start history q) :
    ∀ {before after : List P} {p : P}, history = before ++ p :: after →
      Walk next start before p ∧ ∃ r, next p r ∧ Walk next r after q := by
  induction walk with
  | refl =>
    intro before after p split
    simp at split
  | @leave history p' q walk edge ih =>
    intro before after p split
    rcases eq_nil_or_concat after with rfl | ⟨after', last, rfl⟩
    · have same := append_inj' split rfl
      rw [← same.1, ← singleton_inj.mp same.2]
      exact ⟨walk, q, edge, .refl⟩
    · rw [concat_eq_append, ← cons_append, ← append_assoc] at split
      have same := append_inj' split rfl
      rcases ih same.1 with ⟨first, r, next, rest⟩
      refine ⟨first, r, next, ?_⟩
      rw [concat_eq_append, ← singleton_inj.mp same.2]
      exact .leave rest edge

/-- Walks join at a place. -/
theorem glue {before after : List P} {r : P} (walk : Walk next start before p) (edge : next p r)
    (rest : Walk next r after q) : Walk next start (before ++ p :: after) q := by
  rw [← singleton_append, ← append_assoc]
  exact (Walk.leave walk edge).trans rest

end Walk

/-- The first of the places of a list that satisfy `good`. -/
theorem exists_first {good : P → Prop} {l : List P} (some : ∃ p ∈ l, good p) :
    ∃ before p after, l = before ++ p :: after ∧ good p ∧ ∀ q ∈ before, ¬ good q := by
  classical
  cases found : l.find? fun p => decide (good p) with
  | none =>
    rcases some with ⟨p, member, isGood⟩
    have bad := List.find?_eq_none.mp found p member
    simp [isGood] at bad
  | some p =>
    rcases List.find?_eq_some_iff_append.mp found with ⟨isGood, before, after, split, none⟩
    exact ⟨before, p, after, split, by simpa using isGood, fun q member => by
      simpa using none q member⟩

/-- The last of the places of a list that satisfy `good`. -/
theorem exists_last {good : P → Prop} {l : List P} (some : ∃ p ∈ l, good p) :
    ∃ before p after, l = before ++ p :: after ∧ good p ∧ ∀ q ∈ after, ¬ good q := by
  have reversed : ∃ p ∈ l.reverse, good p := by simpa using some
  rcases exists_first reversed with ⟨before, p, after, split, isGood, none⟩
  refine ⟨after.reverse, p, before.reverse, ?_, isGood, by simpa using none⟩
  rw [← reverse_reverse l, split]
  simp

section

variable (next : P → P → Prop) (start : P) (defs : P → List X)

/-- Every walk to the place has defined the name. -/
def Available (x : X) (p : P) : Prop :=
  ∀ history, Walk next start history p → ∃ q ∈ history, x ∈ defs q

/-- No name is defined in two places. -/
def DefinedOnce : Prop := ∀ x p q, x ∈ defs p → x ∈ defs q → p = q

end

section

variable {next : P → P → Prop} {start : P} {defs : P → List X}

/-- What is available where `x` is defined is available wherever `x` is. -/
theorem Available.trans (once : DefinedOnce defs) {x z : X} {p q : P} (isDef : x ∈ defs p)
    (atDef : Available next start defs z p) (here : Available next start defs x q) :
    Available next start defs z q := by
  intro history walk
  rcases here history walk with ⟨p', member, isDef'⟩
  rw [← once x p p' isDef isDef'] at member
  rcases append_of_mem member with ⟨before, after, split⟩
  rcases atDef before (walk.split split).1 with ⟨r, earlier, isDefZ⟩
  exact ⟨r, by rw [split]; exact mem_append_left _ earlier, isDefZ⟩

/-- Between the last definition of `x` and a place where `x` is available, no name that was
available at that definition is defined again. -/
theorem Available.not_redefined (once : DefinedOnce defs) {x z : X} {p q : P} {before after : List P}
    (walk : Walk next start (before ++ p :: after) q) (isDef : x ∈ defs p)
    (last : ∀ r ∈ after, x ∉ defs r) (atDef : Available next start defs z p)
    (here : Available next start defs x q) : ∀ r ∈ after, z ∉ defs r := by
  intro r member isDefZ
  rcases append_of_mem member with ⟨between, beyond, rfl⟩
  -- the walk from the redefinition to `q`, entered by the first way to the definition of `z`
  have tail := (walk.split (show before ++ p :: (between ++ r :: beyond) =
    (before ++ p :: between) ++ r :: beyond by simp)).2
  rcases tail with ⟨s, edge, rest⟩
  have defines : ∃ p' ∈ before ++ [p], x ∈ defs p' := ⟨p, by simp, isDef⟩
  rcases exists_first defines with ⟨early, p', late, split, isDef', fresh⟩
  rw [once x p' p isDef' isDef] at split
  have toDef : Walk next start early p := by
    have whole : before ++ p :: (between ++ r :: beyond) =
        early ++ p :: (late ++ (between ++ r :: beyond)) := by
      rw [← singleton_append, ← append_assoc, split]
      simp
    exact (walk.split whole).1
  rcases atDef early toDef with ⟨r', earlier, isDefZ'⟩
  rw [once z r' r isDefZ' isDefZ] at earlier
  rcases append_of_mem earlier with ⟨start', _, rfl⟩
  have toRedef := (toDef.split rfl).1
  rcases here _ (toRedef.glue edge rest) with ⟨t, passed, isDefT⟩
  rcases mem_append.mp passed with passed | passed
  · exact fresh t (mem_append_left _ passed) isDefT
  · rcases mem_cons.mp passed with rfl | passed
    · exact last t (by simp) isDefT
    · exact last t (by simp [passed]) isDefT

/-- A numbering of the names: what is available where `x` is defined comes before `x`. -/
theorem exists_rank (next : P → P → Prop) (start : P) (once : DefinedOnce defs) :
    ∃ rank : X → Nat, ∀ x z p, x ∈ defs p → (∃ history, Walk next start history p) →
      Available next start defs z p → rank z < rank x := by
  classical
  let lengths (x : X) : Set Nat :=
    fun n => ∃ p history, x ∈ defs p ∧ Walk next start history p ∧ history.length = n
  refine ⟨fun x => sInf (lengths x), ?_⟩
  intro x z p isDef reached available
  have nonempty : (lengths x).Nonempty := by
    rcases reached with ⟨history, walk⟩
    exact ⟨_, p, history, isDef, walk, rfl⟩
  rcases Nat.sInf_mem nonempty with ⟨p', history, isDef', walk, shortest⟩
  rw [once x p' p isDef' isDef] at walk
  rcases available history walk with ⟨r, member, isDefZ⟩
  rcases append_of_mem member with ⟨before, after, rfl⟩
  have earlier : sInf (lengths z) ≤ before.length :=
    Nat.sInf_le ⟨r, before, isDefZ, (walk.split rfl).1, rfl⟩
  show sInf (lengths z) < sInf (lengths x)
  rw [← shortest, length_append, length_cons]
  omega

end

/-- What is done at a place, and what it leaves as it is. -/
structure Machine (P X S V : Type) where
  leave : P → S → S
  val : S → X → V

namespace Machine

variable (machine : Machine P X S V)

def run (history : List P) (state : S) : S :=
  history.foldl (fun state p => machine.leave p state) state

/-- Leaving a place changes the values of the names defined there, and of no other. -/
def Frames (defs : P → List X) : Prop :=
  ∀ p state x, x ∉ defs p → machine.val (machine.leave p state) x = machine.val state x

variable {machine}

@[simp] theorem run_nil (state : S) : machine.run [] state = state := rfl

theorem run_append (first second : List P) (state : S) :
    machine.run (first ++ second) state = machine.run second (machine.run first state) :=
  foldl_append

theorem run_snoc (history : List P) (p : P) (state : S) :
    machine.run (history ++ [p]) state = machine.leave p (machine.run history state) := by
  rw [run_append]
  rfl

theorem Frames.run {defs : P → List X} (frames : machine.Frames defs) {x : X} :
    ∀ {history : List P} (state : S), (∀ p ∈ history, x ∉ defs p) →
      machine.val (machine.run history state) x = machine.val state x := by
  intro history
  induction history with
  | nil => exact fun _ _ => rfl
  | cons p history ih =>
    intro state kept
    have later := ih (machine.leave p state) fun q member => kept q (mem_cons_of_mem p member)
    exact later.trans (frames p state x (kept p mem_cons_self))

variable {next : P → P → Prop} {start : P} {defs : P → List X}

/-- A fact established at each definition of `x` holds wherever `x` is available. -/
theorem fact (frames : machine.Frames defs) (once : DefinedOnce defs) {state : S}
    (ok : List P → Prop) (okPrefix : ∀ first second, ok (first ++ second) → ok first)
    {x : X} {p : P} (isDef : x ∈ defs p) (names : X → Prop) (Fact : (X → V) → Prop)
    (onNames : ∀ vals vals', (∀ z, names z → vals z = vals' z) → Fact vals → Fact vals')
    (atDef : ∀ z, names z → z = x ∨ Available next start defs z p)
    (established : ∀ history, Walk next start history p → ok (history ++ [p]) →
      Fact (machine.val (machine.run (history ++ [p]) state)))
    {q : P} (available : Available next start defs x q) {history : List P}
    (walk : Walk next start history q) (isOk : ok history) :
    Fact (machine.val (machine.run history state)) := by
  rcases exists_last (available history walk) with ⟨before, p', after, split, isDef', last⟩
  rw [once x p' p isDef' isDef] at split
  rw [split] at isOk walk ⊢
  rw [← singleton_append, ← append_assoc] at isOk ⊢
  have holds := established before (walk.split rfl).1 (okPrefix _ _ isOk)
  refine onNames _ _ ?_ holds
  intro z isName
  rw [run_append _ after]
  refine (frames.run _ ?_).symm
  rcases atDef z isName with rfl | atDef
  · exact last
  · exact atDef.not_redefined once walk isDef last available

/-- Two machines that do the same at each place that is reached are in the same state. -/
theorem run_congr {other : Machine P X S V} {state : S} (ok : List P → Prop)
    (okPrefix : ∀ first second, ok (first ++ second) → ok first)
    (same : ∀ history p, Walk next start history p → ok (history ++ [p]) →
      other.leave p (machine.run history state) = machine.leave p (machine.run history state))
    {history : List P} {q : P} (walk : Walk next start history q) (isOk : ok history) :
    other.run history state = machine.run history state := by
  induction walk with
  | refl => rfl
  | @leave history p q walk edge ih =>
    rw [run_snoc, run_snoc, ih (okPrefix _ _ isOk)]
    exact same history p walk isOk

end Machine

end CoralReef.SsaFacts
