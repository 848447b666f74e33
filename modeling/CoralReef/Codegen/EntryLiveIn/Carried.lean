import CoralReef.Codegen.Ir.Proofs.Related

/-!
# What is carried back into the entry

The names hold nothing when the entry is visited for the first time. Where the entry has
predecessors, a path comes back to it with the values that were defined on the way.
-/

open List

namespace CoralReef

/-- An instruction on a path: the blocks before its block, and the instructions before it there. -/
structure Site where
  before : List Nat
  b : Nat
  pre : List Instr
  instr : Instr

/-- The instructions that follow `pre` in block `b`. -/
def sitesIn (before : List Nat) (b : Nat) : List Instr → List Instr → List Site
  | _, [] => []
  | pre, instr :: rest => ⟨before, b, pre, instr⟩ :: sitesIn before b (pre ++ [instr]) rest

namespace Function

/-- The instructions on the rest of a path. -/
def sitesFrom (f : Function) : List Nat → List Nat → List Site
  | _, [] => []
  | before, b :: rest => sitesIn before b [] (f.instrs b) ++ f.sitesFrom (before ++ [b]) rest

/-- The instructions on a path. -/
def sites (f : Function) (path : List Nat) : List Site := f.sitesFrom [] path

/-- A definition of the name comes before the use on every path from the entry. -/
def Settled (f : Function) (b : Nat) (pre : List Instr) (x : SSAValue) : Prop :=
  ∀ before, f.blocks.PathTo 0 before b → x ∈ before.flatMap f.defs ∨ x ∈ pre.flatMap Instr.ssaDefs

end Function

/-- What is known of a value: the value, or nothing. -/
def Shows {V : Type} (seen : Option V) (v : V) : Prop := ∀ w ∈ seen, w = v

namespace Interp

variable {V : Type} (interp : Interp V)

/-- The same meaning for operands of which not all are known. -/
def shown : Interp (Option V) where
  undef := some interp.undef
  src src reads :=
    if reads.all Option.isSome then some (interp.src src reads.reduceOption) else none
  op _ _ _ _ := none

/-- The start of an execution. -/
def start (phis : Phi → V) : Machine V := { vals := fun _ => interp.undef, phis }

open Classical in
/-- What an instruction reads at its settled uses. The other uses are left open. -/
noncomputable def settledReads (f : Function) (start : Machine V) (site : Site) :
    List (Event (Option V)) :=
  let vals := (interp.run site.pre (interp.runPath f site.before start)).vals
  interp.shown.events site.instr.skeleton (site.instr.ssaUses.map fun x =>
    if f.Settled site.b site.pre x then some (vals x) else none)

end Interp

/-- Started with every name undefined, along every path from the entry, `f'` reads what `f` reads
at every settled use: the instructions with an effect are the same, and the others are some of
those of `f`. Phis that `f` does not have are not observed. -/
def Function.KeepsReads (f f' : Function) : Prop :=
  ∀ (V : Type) (interp : Interp V) (phis : Phi → V) (before : List Nat) (b : Nat),
    f.blocks.PathTo 0 before b →
      let start := interp.start phis
      let sites := f.sites (before ++ [b])
      let after := interp.runPath f' (before ++ [b]) start
      let known := fun phi : Phi => decide (phi.idx < f.phiAlloc.count)
      Forall₂ (Event.Rel Shows)
        ((sites.filter fun site => site.instr.isEffect).flatMap (interp.settledReads f start))
        after.effects ∧
      SublistForall₂ (fun event seen => Event.Rel Shows seen event) (observe known after.trace)
        (observe known (sites.flatMap (interp.settledReads f start)))

/-- Where a value comes from: nothing has defined it, it was computed from values that were not
carried around, or it was carried back into the entry or computed from a value that was. -/
inductive Origin where
  | undef
  | own
  | carried
  deriving DecidableEq

/-- What a visit to the entry makes of the names. -/
def Origin.enter : Origin → Origin
  | .undef => .undef
  | .own | .carried => .carried

/-- An op gives a value that was carried around if it reads one, or if an instruction with an
effect has read one before. -/
def originInterp : Interp Origin where
  undef := .undef
  src _ reads := if .carried ∈ reads then .carried else .own
  op effects _ reads _ :=
    if .carried ∈ effects.flatMap Event.reads ++ reads then .carried else .own

/-- A visit to block `b`, with the values of the names changed if it is the entry. -/
def Machine.entering {V : Type} (enter : V → V) (b : Nat) (machine : Machine V) : Machine V :=
  if b = 0 then { machine with vals := fun x => enter (machine.vals x) } else machine

namespace Interp

variable {V : Type} (interp : Interp V) (enter : V → V) (f : Function)

/-- Run the blocks of a path, changing the values of the names at each visit to the entry. -/
def runEntering (path : List Nat) (machine : Machine V) : Machine V :=
  path.foldl (fun machine b => interp.run (f.instrs b) (machine.entering enter b)) machine

/-- The values of the names before an instruction of a path. -/
def valsAt (start : Machine V) (site : Site) : SSAValue → V :=
  (interp.run site.pre ((interp.runEntering enter f site.before start).entering enter site.b)).vals

end Interp

/-- The origins of the names before an instruction of a path. -/
def Function.originsAt (f : Function) (site : Site) : SSAValue → Origin :=
  originInterp.valsAt Origin.enter f (originInterp.start fun _ => .own) site

/-- On no path from the entry does an instruction that is to be kept read, at a settled use, a value
that was carried back into the entry or comes from one that was. -/
def Function.CarriesNothing (f : Function) (keep : Instr → Bool) : Prop :=
  ∀ before b, f.blocks.PathTo 0 before b → ∀ site ∈ f.sites (before ++ [b]),
    keep site.instr = true → ∀ x ∈ site.instr.ssaUses, f.Settled site.b site.pre x →
      f.originsAt site x ≠ .carried

end CoralReef
