import Mathlib.Algebra.GroupWithZero.Nat
import Mathlib.Algebra.Ring.Int.Defs
import Mathlib.Tactic.Common

/-!
# Faults

The one way a modelled pass can fail to return: a Rust panic (`assert!`, `expect`, `ice!`, an
index out of range) or a returned `CompileError`. Debug assertions are kept, so a run that
does not fault here panics in neither build.
-/

open List

namespace CoralReef

/-- A panic with its text, or a returned `CompileError` with its text. -/
inductive Fault where
  | panic (message : String)
  | compileError (message : String)
  deriving DecidableEq, Repr

/-- `assert!(cond)`. -/
def assertThat (cond : Bool) (message : String) : Except Fault Unit :=
  if cond then .ok () else .error (.panic message)

/-- `Option::expect`. -/
def expect {α : Type} (value : Option α) (message : String) : Except Fault α :=
  match value with
  | some a => .ok a
  | none => .error (.panic message)

/-! The positions of an operand array are literals of `Fin n`. -/

instance neZeroTwo : NeZero 2 := ⟨Nat.succ_ne_zero 1⟩
instance neZeroThree : NeZero 3 := ⟨Nat.succ_ne_zero 2⟩
instance neZeroFour : NeZero 4 := ⟨Nat.succ_ne_zero 3⟩
instance neZeroFive : NeZero 5 := ⟨Nat.succ_ne_zero 4⟩

@[simp] theorem assertThat_true (message : String) : assertThat true message = .ok () := rfl

@[simp] theorem assertThat_false (message : String) :
    assertThat false message = .error (.panic message) := rfl

@[simp] theorem expect_some {α : Type} (a : α) (message : String) :
    expect (some a) message = .ok a := rfl

@[simp] theorem expect_none {α : Type} (message : String) :
    (expect none message : Except Fault α) = .error (.panic message) := rfl

@[simp] theorem assertThat_eq_ok {cond : Bool} {message : String} :
    assertThat cond message = .ok () ↔ cond = true := by
  cases cond <;> simp

@[simp] theorem expect_eq_ok {α : Type} {value : Option α} {message : String} {a : α} :
    expect value message = .ok a ↔ value = some a := by
  cases value <;> simp

@[simp] theorem ok_bind {α β : Type} (a : α) (next : α → Except Fault β) :
    (Except.ok a >>= next) = next a := rfl

@[simp] theorem error_bind {α β : Type} (fault : Fault) (next : α → Except Fault β) :
    (Except.error fault >>= next) = .error fault := rfl

/-- A sequence returns exactly when both its parts do. -/
theorem bind_eq_ok {α β : Type} {first : Except Fault α} {next : α → Except Fault β} {b : β} :
    (first >>= next) = .ok b ↔ ∃ a, first = .ok a ∧ next a = .ok b := by
  cases first <;> simp

/-- Every step of a fold that returns returns. -/
theorem foldlM_ok_mem {α β : Type} {step : β → α → Except Fault β} :
    ∀ {list : List α} {start result : β}, list.foldlM step start = .ok result →
      ∀ a ∈ list, ∃ before after, step before a = .ok after := by
  intro list
  induction list with
  | nil => simp
  | cons head tail ih =>
    intro start result returned a member
    rw [foldlM_cons, bind_eq_ok] at returned
    obtain ⟨mid, first, rest⟩ := returned
    rcases mem_cons.mp member with rfl | member
    · exact ⟨start, mid, first⟩
    · exact ih rest a member

/-- A fold that returns passes through every place of its list. -/
theorem foldlM_split {α β : Type} {step : β → α → Except Fault β} {before after : List α} {a : α}
    {start result : β} (returned : (before ++ a :: after).foldlM step start = .ok result) :
    ∃ here next, before.foldlM step start = .ok here ∧ step here a = .ok next ∧
      after.foldlM step next = .ok result := by
  rw [foldlM_append, bind_eq_ok] at returned
  obtain ⟨here, first, returned⟩ := returned
  rw [foldlM_cons, bind_eq_ok] at returned
  obtain ⟨next, second, last⟩ := returned
  exact ⟨here, next, first, second, last⟩

/-- A measure that every step raises by the weight of its item is raised by their sum. -/
theorem foldlM_measure {α β : Type} {step : β → α → Except Fault β} {size : β → Nat}
    {weight : α → Nat} :
    ∀ {list : List α} {start result : β},
      (∀ a ∈ list, ∀ here next, step here a = .ok next → size next = size here + weight a) →
      list.foldlM step start = .ok result → size result = size start + (list.map weight).sum := by
  intro list
  induction list with
  | nil =>
    intro start result _ returned
    cases returned
    rfl
  | cons head tail ih =>
    intro start result raises returned
    rw [foldlM_cons, bind_eq_ok] at returned
    obtain ⟨next, first, rest⟩ := returned
    have raised := raises head mem_cons_self start next first
    have rest := ih (fun a member => raises a (mem_cons_of_mem head member)) rest
    rw [map_cons, sum_cons, rest, raised, Nat.add_assoc]

/-- A fold returns, and keeps what each step keeps. -/
theorem foldlM_ok {α β : Type} (step : β → α → Except Fault β) (inv : List α → β → Prop) :
    ∀ (list done : List α) (start : β), inv done start →
      (∀ before a state, a ∈ list → inv before state →
        ∃ next, step state a = .ok next ∧ inv (before ++ [a]) next) →
      ∃ result, list.foldlM step start = .ok result ∧ inv (done ++ list) result := by
  intro list
  induction list with
  | nil =>
    intro done start holds _
    exact ⟨start, rfl, by rwa [append_nil]⟩
  | cons head tail ih =>
    intro done start holds keeps
    obtain ⟨next, first, holds'⟩ := keeps done head start mem_cons_self holds
    obtain ⟨result, rest, last⟩ := ih (done ++ [head]) next holds'
      (fun before a state member => keeps before a state (mem_cons_of_mem head member))
    refine ⟨result, ?_, by rwa [append_assoc] at last⟩
    rw [foldlM_cons, first, ok_bind]
    exact rest

/-- A map returns when every item does, and each result is related to its item. -/
theorem mapM_forall₂ {α β : Type} {step : α → Except Fault β} {related : α → β → Prop} :
    ∀ {list : List α}, (∀ a ∈ list, ∃ b, step a = .ok b ∧ related a b) →
      ∃ result, list.mapM step = .ok result ∧ List.Forall₂ related list result := by
  intro list
  induction list with
  | nil => exact fun _ => ⟨[], rfl, .nil⟩
  | cons head list ih =>
    intro each
    obtain ⟨b, first, relates⟩ := each head mem_cons_self
    obtain ⟨result, rest, relatesAll⟩ :=
      ih fun a member => each a (mem_cons_of_mem head member)
    refine ⟨b :: result, ?_, .cons relates relatesAll⟩
    rw [mapM_cons, first, ok_bind, rest]
    rfl

theorem mapM_ok {α β : Type} {f : α → Except Fault β} {g : α → β} :
    ∀ {list : List α}, (∀ a ∈ list, f a = .ok (g a)) → list.mapM f = .ok (list.map g) := by
  intro list
  induction list with
  | nil => exact fun _ => rfl
  | cons a list ih =>
    intro all
    rw [mapM_cons, all a mem_cons_self, ok_bind,
      ih fun b member => all b (mem_cons_of_mem a member)]
    rfl

/-- Each result of a map comes from the item in its place. -/
theorem mapM_ok_at {α β : Type} {f : α → Except Fault β} {related : α → β → Prop} {items : List α}
    (returns : ∀ a ∈ items, ∃ b, f a = .ok b ∧ related a b) :
    ∃ out, items.mapM f = .ok out ∧
      ∀ (i : Nat) (b : β), out[i]? = some b → ∃ a, items[i]? = some a ∧ related a b := by
  obtain ⟨out, runs, relates⟩ := mapM_forall₂ returns
  refine ⟨out, runs, ?_⟩
  clear runs returns
  induction relates with
  | nil =>
    intro i b never
    cases never
  | cons here _ ih =>
    intro i b isItem
    cases i with
    | zero =>
      cases isItem
      exact ⟨_, rfl, here⟩
    | succ i => exact ih i b isItem

/-- A fold over the first `n` numbers returns, and keeps what each step keeps. -/
theorem foldlM_range_ok {β : Type} (step : β → Nat → Except Fault β) (inv : Nat → β → Prop)
    {start : β} (holds : inv 0 start) : ∀ n,
      (∀ b state, b < n → inv b state → ∃ next, step state b = .ok next ∧ inv (b + 1) next) →
      ∃ result, (List.range n).foldlM step start = .ok result ∧ inv n result := by
  intro n
  induction n with
  | zero => exact fun _ => ⟨start, rfl, holds⟩
  | succ n ih =>
    intro keeps
    obtain ⟨state, earlier, holds'⟩ := ih fun b state less => keeps b state (by omega)
    obtain ⟨next, last, holds''⟩ := keeps n state (Nat.lt_succ_self n) holds'
    refine ⟨next, ?_, holds''⟩
    rw [range_succ, foldlM_append, earlier, ok_bind, foldlM_cons, last]
    rfl

/-- What each step of a fold over the first numbers keeps holds of what it returns. -/
theorem foldlM_range_returned {β : Type} {step : β → Nat → Except Fault β} (inv : Nat → β → Prop)
    {start : β} (holds : inv 0 start) : ∀ {n : Nat} {result : β},
      (List.range n).foldlM step start = .ok result →
      (∀ b state next, b < n → inv b state → step state b = .ok next → inv (b + 1) next) →
      inv n result := by
  intro n
  induction n with
  | zero =>
    intro result isStart _
    cases isStart
    exact holds
  | succ n ih =>
    intro result returned keeps
    rw [range_succ, foldlM_append] at returned
    obtain ⟨state, earlier, last⟩ := bind_eq_ok.mp returned
    rw [foldlM_cons] at last
    obtain ⟨next, step, isLast⟩ := bind_eq_ok.mp last
    cases isLast
    have before := ih earlier fun b state next less => keeps b state next (by omega)
    exact keeps n state _ (Nat.lt_succ_self n) before step

/-- Folds whose steps agree where `I` holds agree, and keep `I` if the steps do. -/
theorem foldlM_agree {σ ι : Type} {g h : σ → ι → Except Fault σ} {I : σ → Prop} :
    ∀ items : List ι, (∀ i ∈ items, ∀ state, I state → g state i = h state i ∧
      ∀ state', h state i = .ok state' → I state') → ∀ state, I state →
        items.foldlM g state = items.foldlM h state ∧
        ∀ state', items.foldlM h state = .ok state' → I state' := by
  intro items
  induction items with
  | nil =>
    intro _ state holds
    refine ⟨rfl, ?_⟩
    intro state' same
    cases same
    exact holds
  | cons i items ih =>
    intro step state holds
    obtain ⟨same, kept⟩ := step i mem_cons_self state holds
    rw [foldlM_cons, foldlM_cons, same]
    cases here : h state i with
    | error fault => exact ⟨rfl, fun state' returned => by cases returned⟩
    | ok state₁ =>
      exact ih (fun j member => step j (mem_cons_of_mem i member)) state₁ (kept state₁ here)

/-- `loop { if !attempt() { break; } }`, for an attempt that returns what it changed. -/
def loopWhileSome {σ : Type} (attempt : σ → Except Fault (Option σ)) : Nat → σ → Except Fault σ
  | 0, _ => .error (.panic "out of fuel")
  | fuel + 1, state => do
    match ← attempt state with
    | some state' => loopWhileSome attempt fuel state'
    | none => return state

/-- A loop that decreases a measure ends. -/
theorem loopWhileSome_ok {σ : Type} {attempt : σ → Except Fault (Option σ)} (inv : σ → Prop)
    (measure : σ → Nat) (each : ∀ state, inv state → ∃ r, attempt state = .ok r ∧
      ∀ state', r = some state' → inv state' ∧ measure state' < measure state) :
    ∀ {fuel : Nat} {state : σ}, inv state → measure state < fuel →
      ∃ state', loopWhileSome attempt fuel state = .ok state' ∧ inv state' := by
  intro fuel
  induction fuel with
  | zero => exact fun _ less => absurd less (Nat.not_lt_zero _)
  | succ fuel ih =>
    intro state holds less
    rcases each state holds with ⟨r, returned, next⟩
    rw [loopWhileSome, returned, ok_bind]
    cases r with
    | none => exact ⟨state, rfl, holds⟩
    | some state' =>
      rcases next state' rfl with ⟨holds', decreased⟩
      exact ih holds' (by omega)

/-- Go through a list with a state. -/
def mapAccumM {σ α β : Type} (step : σ → α → Except Fault (β × σ)) :
    List α → σ → Except Fault (List β × σ)
  | [], state => .ok ([], state)
  | a :: rest, state => do
    let (b, state) ← step state a
    let (rest, state) ← mapAccumM step rest state
    return (b :: rest, state)

/-- What every step keeps is kept, and what every step makes stands in its place. -/
theorem mapAccumM_ok {σ α β : Type} (step : σ → α → Except Fault (β × σ)) (inv : σ → Prop) :
    ∀ (list : List α) (rel : Nat → α → β → Prop) (state : σ), inv state →
      (∀ k a state, list[k]? = some a → inv state →
        ∃ b state', step state a = .ok (b, state') ∧ inv state' ∧ rel k a b) →
      ∃ out state', mapAccumM step list state = .ok (out, state') ∧ inv state' ∧
        out.length = list.length ∧ ∀ k a, list[k]? = some a → ∃ b, out[k]? = some b ∧ rel k a b := by
  intro list
  induction list with
  | nil =>
    intro rel state holds _
    refine ⟨[], state, rfl, holds, rfl, ?_⟩
    intro k a never
    simp at never
  | cons head tail ih =>
    intro rel state holds each
    rcases each 0 head state rfl holds with ⟨b, state₁, first, holds₁, here⟩
    rcases ih (fun k => rel (k + 1)) state₁ holds₁
      fun k a state isItem => each (k + 1) a state isItem
      with ⟨out, state₂, rest, holds₂, length, later⟩
    refine ⟨b :: out, state₂, ?_, holds₂, by simp [length], ?_⟩
    · simp only [mapAccumM, first, ok_bind, rest]
      rfl
    · intro k a isItem
      cases k with
      | zero =>
        cases isItem
        exact ⟨b, rfl, here⟩
      | succ k => exact later k a isItem

theorem mapAccumM_append {σ α β : Type} {step : σ → α → Except Fault (β × σ)} {ys : List α}
    {out' : List β} {state₁ state₂ : σ} (second : mapAccumM step ys state₁ = .ok (out', state₂)) :
    ∀ {xs : List α} {out : List β} {state : σ}, mapAccumM step xs state = .ok (out, state₁) →
      mapAccumM step (xs ++ ys) state = .ok (out ++ out', state₂) := by
  intro xs
  induction xs with
  | nil =>
    intro out state first
    cases first
    exact second
  | cons x xs ih =>
    intro out state first
    rw [mapAccumM] at first
    rcases bind_eq_ok.mp first with ⟨⟨b, next⟩, stepped, first⟩
    rcases bind_eq_ok.mp first with ⟨⟨rest, last⟩, continued, returned⟩
    cases returned
    rw [cons_append, mapAccumM, stepped, ok_bind]
    dsimp only
    rw [ih continued]
    rfl

end CoralReef
