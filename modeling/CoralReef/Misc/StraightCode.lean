import Mathlib.Tactic.Common

/-!
# Straight code

Code without branches over registers, and emitters of such code that allocate the registers it
writes. What an emitter has computed stays as it is: code is added at the end, and writes registers
that were not allocated before.
-/

namespace CoralReef.Straight

universe u

/-- Instructions, and the registers that each writes. -/
structure Machine (I R V : Type*) where
  writes : I → List R
  exec : I → (R → V) → R → V
  frame : ∀ i env r, r ∉ writes i → exec i env r = env r

section run

variable {I R V : Type*} (m : Machine I R V)

/-- The registers after code. -/
def Machine.run (code : List I) (env : R → V) : R → V := code.foldl (fun env i => m.exec i env) env

@[simp] theorem Machine.run_nil (env : R → V) : m.run [] env = env := rfl

@[simp] theorem Machine.run_cons (i : I) (code : List I) (env : R → V) :
    m.run (i :: code) env = m.run code (m.exec i env) := rfl

theorem Machine.run_append (code rest : List I) (env : R → V) :
    m.run (code ++ rest) env = m.run rest (m.run code env) := List.foldl_append

/-- What no instruction writes is kept. -/
theorem Machine.run_frame {code : List I} {r : R} (kept : ∀ i ∈ code, r ∉ m.writes i)
    (env : R → V) : m.run code env r = env r := by
  induction code generalizing env with
  | nil => rfl
  | cons i code ih =>
    rw [m.run_cons, ih fun j member => kept j (List.mem_cons_of_mem _ member)]
    exact m.frame i env r (kept i List.mem_cons_self)

end run

/-- The states of an emitter: the code so far, and the registers that are allocated. -/
structure Emitter (S I R : Type*) where
  code : S → List I
  allocated : S → R → Prop

section emits

variable {S I R V ε α β : Type u} (m : Machine I R V) (e : Emitter S I R)

/-- The registers after the code of a state. -/
def env (start : R → V) (s : S) : R → V := m.run (e.code s) start

/-- A register that is allocated and holds a value. -/
structure Holds (start : R → V) (s : S) (r : R) (v : V) : Prop where
  allocated : e.allocated s r
  value : env m e start s r = v

/-- Code is added that keeps the registers allocated before. -/
structure Extends (s t : S) : Prop where
  allocated : ∀ r, e.allocated s r → e.allocated t r
  frame : ∀ start r, e.allocated s r → env m e start t r = env m e start s r

variable {m e} {s t w : S}

theorem Extends.refl (s : S) : Extends m e s s := ⟨fun _ h => h, fun _ _ _ => rfl⟩

theorem Extends.trans (first : Extends m e s t) (second : Extends m e t w) : Extends m e s w where
  allocated := fun r h => second.allocated r (first.allocated r h)
  frame := fun start r h =>
    (second.frame start r (first.allocated r h)).trans (first.frame start r h)

/-- Instructions are added that write new registers. -/
theorem Extends.of_code (code : List I) (allocated : ∀ r, e.allocated s r → e.allocated t r)
    (added : e.code t = e.code s ++ code)
    (fresh : ∀ i ∈ code, ∀ r ∈ m.writes i, ¬ e.allocated s r) : Extends m e s t where
  allocated := allocated
  frame := by
    intro start r old
    unfold env
    rw [added, m.run_append]
    exact m.run_frame (fun i member written => fresh i member r written old) _

theorem Holds.mono {start : R → V} {r : R} {v : V} (holds : Holds m e start s r v)
    (more : Extends m e s t) : Holds m e start t r v where
  allocated := more.allocated r holds.allocated
  value := (more.frame start r holds.allocated).trans holds.value

variable (m e)

/-- An emitter returns, with code added that establishes `post`. -/
def Emits (p : StateT S (Except ε) α) (s : S) (post : α → S → Prop) : Prop :=
  ∃ a t, p s = .ok (a, t) ∧ Extends m e s t ∧ post a t

variable {m e}

/-- A sequence whose first part returns. -/
theorem run_bind {p : StateT S (Except ε) α} {q : α → StateT S (Except ε) β} {a : α}
    (ran : p s = .ok (a, t)) : (p >>= q) s = q a t := by
  show (p s >>= fun r => q r.1 r.2) = _
  rw [ran]
  rfl

namespace Emits

theorem pure {a : α} {post : α → S → Prop} (holds : post a s) :
    Emits m e (Pure.pure a : StateT S (Except ε) α) s post := ⟨a, s, rfl, .refl s, holds⟩

theorem bind {p : StateT S (Except ε) α} {q : α → StateT S (Except ε) β} {mid : α → S → Prop}
    {post : β → S → Prop} (first : Emits m e p s mid)
    (second : ∀ a t, Extends m e s t → mid a t → Emits m e (q a) t post) :
    Emits m e (p >>= q) s post := by
  rcases first with ⟨a, t, ran, more, holds⟩
  rcases second a t more holds with ⟨b, w, ran', more', holds'⟩
  exact ⟨b, w, (run_bind ran).trans ran', more.trans more', holds'⟩

theorem mono {p : StateT S (Except ε) α} {post post' : α → S → Prop} (emits : Emits m e p s post)
    (implies : ∀ a t, Extends m e s t → post a t → post' a t) : Emits m e p s post' := by
  rcases emits with ⟨a, t, ran, more, holds⟩
  exact ⟨a, t, ran, more, implies a t more holds⟩

/-- A part that emits nothing. -/
theorem lift_bind {p : Except ε α} {q : α → StateT S (Except ε) β} {post : β → S → Prop} {a : α}
    (returns : p = .ok a) (rest : Emits m e (q a) s post) :
    Emits m e (StateT.lift p >>= q) s post := by
  have ran : (StateT.lift p : StateT S (Except ε) α) s = .ok (a, s) := by
    rw [returns]
    rfl
  rcases rest with ⟨b, t, ran', holds⟩
  exact ⟨b, t, (run_bind ran).trans ran', holds⟩

/-- What is emitted for each item of a list, if what is known of an item stays true. -/
theorem mapM {f : α → StateT S (Except ε) β} (known : α → S → Prop) (post : α → β → S → Prop)
    (stable : ∀ {a s t}, Extends m e s t → known a s → known a t)
    (kept : ∀ {a b s t}, Extends m e s t → post a b s → post a b t)
    (each : ∀ {a s}, known a s → Emits m e (f a) s (post a)) :
    ∀ {items : List α} {s : S}, (∀ a ∈ items, known a s) →
      Emits m e (items.mapM f) s fun out t => List.Forall₂ (fun a b => post a b t) items out := by
  intro items
  induction items with
  | nil => exact fun _ => .pure .nil
  | cons a items ih =>
    intro s all
    rw [List.mapM_cons]
    refine (each (all a List.mem_cons_self)).bind ?_
    intro b t more holds
    refine (ih fun a' member => stable more (all a' (List.mem_cons_of_mem _ member))).bind ?_
    intro out w more' rest
    exact .pure (.cons (kept more' holds) rest)

end Emits

end emits

end CoralReef.Straight
