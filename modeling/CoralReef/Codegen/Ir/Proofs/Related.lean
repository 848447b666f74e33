import CoralReef.Codegen.Ir.Proofs.Step
import Mathlib.Data.List.Forall2

/-!
# Related executions

One function run under two interpretations of the ops. What the interpretations keep related, the
executions keep related: the values of the names, the phis, and what is read. The interpretations
may also change the values of the names whenever the entry is visited.
-/

open List

namespace CoralReef

variable {V W : Type} {R : V → W → Prop}

/-- The same event, with related values. -/
inductive Event.Rel (R : V → W → Prop) : Event V → Event W → Prop where
  | instr {skeleton : Instr} {reads : List V} {reads' : List W} (read : Forall₂ R reads reads') :
      Rel R (.instr skeleton reads) (.instr skeleton reads')
  | phi {phi : Phi} {read : V} {read' : W} (same : R read read') :
      Rel R (.phi phi read) (.phi phi read')
  | copy {pair : Dst × Src} {read : V} {read' : W} (same : R read read') :
      Rel R (.copy pair read) (.copy pair read')

/-- The values read. -/
def Event.reads : Event V → List V
  | .instr _ reads => reads
  | .phi _ read | .copy _ read => [read]

theorem Event.Rel.reads {event : Event V} {event' : Event W} (related : Event.Rel R event event') :
    Forall₂ R event.reads event'.reads := by
  cases related with
  | instr read => exact read
  | phi same | copy same => exact .cons same .nil

theorem Event.Rel.imp {S : V → W → Prop} (weaker : ∀ v w, R v w → S v w) {event : Event V}
    {event' : Event W} (related : Event.Rel R event event') : Event.Rel S event event' := by
  cases related with
  | instr read => exact .instr (read.imp weaker)
  | phi same => exact .phi (weaker _ _ same)
  | copy same => exact .copy (weaker _ _ same)

/-- Of related events, those of the known phis are related. -/
theorem observe_related (known : Phi → Bool) {events : List (Event V)} {events' : List (Event W)}
    (related : Forall₂ (Event.Rel R) events events') :
    Forall₂ (Event.Rel R) (observe known events) (observe known events') := by
  refine rel_filter ?_ related
  rintro _ _ (_ | _ | _) <;> exact Iff.rfl

/-- The meanings of the ops keep the values related. -/
structure Interp.Related (R : V → W → Prop) (interp : Interp V) (interp' : Interp W) : Prop where
  undef : R interp.undef interp'.undef
  src : ∀ (src : Src) {reads : List V} {reads' : List W}, Forall₂ R reads reads' →
    R (interp.src src reads) (interp'.src src reads')
  op : ∀ {effects : List (Event V)} {effects' : List (Event W)},
    Forall₂ (Event.Rel R) effects effects' → ∀ (skeleton : Instr) {reads : List V}
      {reads' : List W}, Forall₂ R reads reads' → ∀ (k : Nat),
        R (interp.op effects skeleton reads k) (interp'.op effects' skeleton reads' k)

structure Machine.Related (R : V → W → Prop) (machine : Machine V) (machine' : Machine W) :
    Prop where
  vals : ∀ x, R (machine.vals x) (machine'.vals x)
  phis : ∀ phi, R (machine.phis phi) (machine'.phis phi)
  effects : Forall₂ (Event.Rel R) machine.effects machine'.effects
  trace : Forall₂ (Event.Rel R) machine.trace machine'.trace

/-- Related writes leave related values. -/
theorem update_related {α : Type} [DecidableEq α] :
    ∀ {writes : List (α × V)} {writes' : List (α × W)} {values : α → V} {values' : α → W},
      Forall₂ (fun write write' => write.1 = write'.1 ∧ R write.2 write'.2) writes writes' →
      (∀ a, R (values a) (values' a)) → ∀ a,
        R (writes.foldl (fun values write => Function.update values write.1 write.2) values a)
          (writes'.foldl (fun values write => Function.update values write.1 write.2) values'
            a) := by
  intro writes writes' values values' related
  induction related generalizing values values' with
  | nil => exact fun same => same
  | @cons write write' writes writes' one _ ih =>
    intro same
    apply ih
    intro a
    obtain ⟨name, value⟩ := one
    dsimp only
    rw [← name]
    by_cases isWritten : a = write.1
    · rw [isWritten, Function.update_self, Function.update_self]
      exact value
    · rw [Function.update_of_ne isWritten, Function.update_of_ne isWritten]
      exact same a

/-- The same names, with related values. -/
theorem zip_related {α : Type} : ∀ (names : List α) {values : List V} {values' : List W},
    Forall₂ R values values' →
      Forall₂ (fun write write' => write.1 = write'.1 ∧ R write.2 write'.2)
        (names.zip values) (names.zip values') := by
  intro names
  induction names with
  | nil => exact fun _ => .nil
  | cons name names ih =>
    intro values values' related
    cases related with
    | nil => exact .nil
    | cons one rest => exact .cons ⟨rfl, one⟩ (ih rest)

theorem flatMap_related {α β γ δ : Type} {P : α → β → Prop} {Q : γ → δ → Prop} {first : α → List γ}
    {second : β → List δ} {list : List α} {list' : List β} (related : Forall₂ P list list')
    (each : ∀ a b, P a b → Forall₂ Q (first a) (second b)) :
    Forall₂ Q (list.flatMap first) (list'.flatMap second) :=
  rel_flatMap related fun a b one => each a b one

/-- One value for each of the same names. -/
theorem const_related {α : Type} (names : List α) {value : V} {value' : W} (same : R value value') :
    Forall₂ R (names.map fun _ => value) (names.map fun _ => value') := by
  rw [forall₂_map_left_iff, forall₂_map_right_iff, forall₂_same]
  exact fun _ _ => same

namespace Interp.Related

variable {interp : Interp V} {interp' : Interp W} (related : Interp.Related R interp interp')
include related

theorem readSrc (src : Src) {reads : List V} {reads' : List W} (read : Forall₂ R reads reads') :
    R (interp.readSrc src reads) (interp'.readSrc src reads') := by
  unfold Interp.readSrc
  cases src.asSsa with
  | none => exact related.src src read
  | some vec =>
    rcases read with _ | ⟨one, _ | ⟨second, rest⟩⟩
    · exact related.src src .nil
    · exact one
    · exact related.src src (.cons one (.cons second rest))

theorem readSrcs : ∀ (srcs : List Src) {reads : List V} {reads' : List W}, Forall₂ R reads reads' →
    Forall₂ R (interp.readSrcs srcs reads) (interp'.readSrcs srcs reads') := by
  intro srcs
  induction srcs with
  | nil => exact fun _ => .nil
  | cons src srcs ih =>
    intro reads reads' read
    exact .cons (related.readSrc src (forall₂_take _ read)) (ih (forall₂_drop _ read))

theorem phiReads (skeleton : Instr) {reads : List V} {reads' : List W}
    (read : Forall₂ R reads reads') :
    Forall₂ (fun entry entry' => entry.1 = entry'.1 ∧ R entry.2 entry'.2)
      (interp.phiReads skeleton reads) (interp'.phiReads skeleton reads') := by
  unfold Interp.phiReads
  split
  · exact zip_related _ (related.readSrcs _ (forall₂_drop _ read))
  · exact .nil

theorem events (skeleton : Instr) {reads : List V} {reads' : List W}
    (read : Forall₂ R reads reads') :
    Forall₂ (Event.Rel R) (interp.events skeleton reads) (interp'.events skeleton reads') := by
  have phiReads := related.phiReads skeleton read
  unfold Interp.events
  cases skeleton.op with
  | undef | phiDsts | annotate => exact .nil
  | phiSrcs =>
    dsimp only
    rw [forall₂_map_left_iff, forall₂_map_right_iff]
    refine phiReads.imp ?_
    rintro ⟨phi, v⟩ ⟨phi', w⟩ ⟨rfl, same⟩
    exact .phi same
  | parCopy pcopy =>
    dsimp only
    rw [forall₂_map_left_iff, forall₂_map_right_iff]
    refine (zip_related _ (related.readSrcs _ (forall₂_drop _ read))).imp ?_
    rintro ⟨pair, v⟩ ⟨pair', w⟩ ⟨rfl, same⟩
    exact .copy same
  | _ => exact .cons (.instr read) .nil

theorem results {machine : Machine V} {machine' : Machine W}
    (machines : Machine.Related R machine machine') (skeleton : Instr) {reads : List V}
    {reads' : List W} (read : Forall₂ R reads reads') :
    Forall₂ R (interp.results machine skeleton reads)
      (interp'.results machine' skeleton reads') := by
  unfold Interp.results
  cases skeleton.op with
  | undef dst => exact const_related _ related.undef
  | phiDsts dsts =>
    refine flatMap_related (forall₂_eq_eq_eq ▸ rfl) ?_
    rintro entry _ rfl
    exact const_related _ (machines.phis entry.1)
  | parCopy pcopy =>
    refine flatMap_related (zip_related _ (related.readSrcs _ (forall₂_drop _ read))) ?_
    rintro ⟨dst, v⟩ ⟨dst', w⟩ ⟨rfl, same⟩
    exact const_related _ same
  | _ =>
    rw [forall₂_map_left_iff, forall₂_map_right_iff, forall₂_same]
    exact fun entry _ => related.op machines.effects skeleton read entry.2

theorem step {machine : Machine V} {machine' : Machine W}
    (machines : Machine.Related R machine machine') (instr : Instr) :
    Machine.Related R (interp.step machine instr) (interp'.step machine' instr) := by
  have read : Forall₂ R (instr.ssaUses.map machine.vals) (instr.ssaUses.map machine'.vals) := by
    rw [forall₂_map_left_iff, forall₂_map_right_iff, forall₂_same]
    exact fun x _ => machines.vals x
  have events := related.events instr.skeleton read
  rw [step_eq, step_eq]
  refine ⟨?_, ?_, ?_, rel_append machines.trace events⟩
  · exact update_related (zip_related _ (related.results machines _ read)) machines.vals
  · exact update_related (related.phiReads _ read) machines.phis
  · dsimp only
    split
    · exact rel_append machines.effects events
    · exact machines.effects

theorem run (instrs : List Instr) : ∀ {machine : Machine V} {machine' : Machine W},
    Machine.Related R machine machine' →
      Machine.Related R (interp.run instrs machine) (interp'.run instrs machine') := by
  induction instrs with
  | nil => exact fun machines => machines
  | cons instr instrs ih => exact fun machines => ih (related.step machines instr)

end Interp.Related

end CoralReef
