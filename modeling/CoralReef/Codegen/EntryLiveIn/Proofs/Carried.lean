import CoralReef.Codegen.EntryLiveIn.Carried
import Mathlib.Data.List.ReduceOption
import Mathlib.Logic.Encodable.Basic
import Mathlib.Logic.Equiv.List

/-!
# Where nothing is carried around through the entry

Two executions of one function: one keeps the values that come back to the entry, the other takes
them away. They read the same values where the origins say so, and for some ops only there.
-/

open List

namespace CoralReef

variable {V W : Type} {R : V → W → Prop} {f : Function}

theorem mem_sitesIn {before : List Nat} {b : Nat} {site : Site} : ∀ {rest pre : List Instr},
    site ∈ sitesIn before b pre rest →
      site.before = before ∧ site.b = b ∧ site.instr ∈ rest := by
  intro rest
  induction rest with
  | nil => exact fun member => nomatch member
  | cons instr rest ih =>
    intro pre member
    rcases mem_cons.mp member with rfl | later
    · exact ⟨rfl, rfl, mem_cons_self⟩
    · obtain ⟨blocks, block, inRest⟩ := ih later
      exact ⟨blocks, block, mem_cons_of_mem _ inRest⟩

theorem mem_sitesFrom {site : Site} : ∀ {rest before : List Nat},
    site ∈ f.sitesFrom before rest → site.instr ∈ f.instrs site.b ∧
      ∃ post, before ++ rest = site.before ++ site.b :: post := by
  intro rest
  induction rest with
  | nil => exact fun member => nomatch member
  | cons b rest ih =>
    intro before member
    rcases mem_append.mp member with here | later
    · obtain ⟨blocks, block, inBlock⟩ := mem_sitesIn here
      exact ⟨by rwa [block], rest, by rw [blocks, block]⟩
    · obtain ⟨inBlock, post, split⟩ := ih later
      exact ⟨inBlock, post, by rw [← split, append_assoc]; rfl⟩

def Event.map (g : V → W) : Event V → Event W
  | .instr skeleton reads => .instr skeleton (reads.map g)
  | .phi name read => .phi name (g read)
  | .copy pair read => .copy pair (g read)

theorem Event.map_congr {g h : V → W} {event : Event V}
    (same : event.reads.map g = event.reads.map h) : event.map g = event.map h := by
  cases event with
  | instr => exact congrArg _ same
  | phi | copy => exact congrArg _ (cons_eq_cons.mp same).1

theorem map_of_forall₂ {α β : Type} {g : α → β} {list : List α} {list' : List β}
    (related : Forall₂ (fun a b => g a = b) list list') : list.map g = list' := by
  induction related with
  | nil => rfl
  | cons one _ ih => rw [map_cons, one, ih]

theorem Event.Rel.map_eq {g : V → W} {event : Event V} {event' : Event W}
    (related : Event.Rel (fun v w => g v = w) event event') : event.map g = event' := by
  cases related with
  | instr read => rw [Event.map, map_of_forall₂ read]
  | phi same | copy same => rw [Event.map, same]

/-- What is left of a list is related to some of the other list. -/
theorem sublistForall₂_of_sublist {α β : Type} {P : α → β → Prop} {list : List α}
    {list' part : List β} (related : Forall₂ P list list') (isPart : part.Sublist list') :
    SublistForall₂ (fun b a => P a b) part list := by
  induction isPart generalizing list with
  | slnil => exact .nil
  | cons b _ ih =>
    cases related with
    | cons _ rest => exact .cons_right (ih rest)
  | cons_cons b _ ih =>
    cases related with
    | cons one rest => exact .cons one (ih rest)

theorem Machine.entering_related {machine : Machine V} {machine' : Machine W} {enter : V → V}
    {enter' : W → W} (machines : Machine.Related R machine machine')
    (enters : ∀ v w, R v w → R (enter v) (enter' w)) (b : Nat) :
    Machine.Related R (machine.entering enter b) (machine'.entering enter' b) := by
  unfold Machine.entering
  split
  · exact ⟨fun x => enters _ _ (machines.vals x), machines.phis, machines.effects, machines.trace⟩
  · exact machines

namespace Interp

section Related

variable {interp : Interp V} {interp' : Interp W} {enter : V → V} {enter' : W → W}
variable (related : Related R interp interp') (enters : ∀ v w, R v w → R (enter v) (enter' w))
include related enters

theorem runEntering_related (path : List Nat) : ∀ {machine : Machine V} {machine' : Machine W},
    Machine.Related R machine machine' →
      Machine.Related R (interp.runEntering enter f path machine)
        (interp'.runEntering enter' f path machine') := by
  induction path with
  | nil => exact fun machines => machines
  | cons b path ih =>
    exact fun machines => ih (related.run _ (Machine.entering_related machines enters b))

theorem valsAt_related {start : Machine V} {start' : Machine W}
    (machines : Machine.Related R start start') (site : Site) (x : SSAValue) :
    R (interp.valsAt enter f start site x) (interp'.valsAt enter' f start' site x) :=
  (related.run _ (Machine.entering_related
    (runEntering_related related enters site.before machines) enters site.b)).vals x

end Related

variable (interp : Interp V) (enter : V → V)

theorem runEntering_id (path : List Nat) (machine : Machine V) :
    interp.runEntering id f path machine = interp.runPath f path machine := by
  have nothing : ∀ (machine : Machine V) (b : Nat), machine.entering id b = machine := by
    intro machine b
    unfold Machine.entering
    split <;> rfl
  simp only [runEntering, nothing]
  rfl

theorem valsAt_id (start : Machine V) (site : Site) : interp.valsAt id f start site =
    (interp.run site.pre (interp.runPath f site.before start)).vals := by
  unfold valsAt Machine.entering
  rw [runEntering_id]
  split <;> rfl

/-- What is read at a site. -/
def eventsAt (f : Function) (start : Machine V) (site : Site) : List (Event V) :=
  interp.events site.instr.skeleton (site.instr.ssaUses.map (interp.valsAt enter f start site))

/-- What the instructions of a block read is added to what was read before. -/
theorem run_recorded (start : Machine V) (before : List Nat) (b : Nat) :
    ∀ (rest pre : List Instr) {machine : Machine V},
      machine = interp.run pre ((interp.runEntering enter f before start).entering enter b) →
      (interp.run rest machine).trace = machine.trace ++
          (sitesIn before b pre rest).flatMap (interp.eventsAt enter f start) ∧
        (interp.run rest machine).effects = machine.effects ++
          ((sitesIn before b pre rest).filter fun site => site.instr.isEffect).flatMap
            (interp.eventsAt enter f start) := by
  intro rest
  induction rest with
  | nil => simp [sitesIn]
  | cons instr rest ih =>
    intro pre machine isMachine
    have next : interp.step machine instr = interp.run (pre ++ [instr])
        ((interp.runEntering enter f before start).entering enter b) := by
      rw [run_append, ← isMachine]
      rfl
    obtain ⟨trace, effects⟩ := ih (pre ++ [instr]) next
    have here : interp.eventsAt enter f start ⟨before, b, pre, instr⟩ =
        interp.events instr.skeleton (instr.ssaUses.map machine.vals) := by
      rw [isMachine]
      rfl
    rw [run_cons, trace, effects, sitesIn, flatMap_cons, here]
    refine ⟨append_assoc .., ?_⟩
    rw [step_eq, Instr.skeleton_isEffect]
    cases kept : instr.isEffect with
    | true => simp [kept, here]
    | false => simp [kept]

theorem runEntering_recorded (start : Machine V) : ∀ (rest before : List Nat),
    let machine := interp.runEntering enter f before start
    let machine' := interp.runEntering enter f (before ++ rest) start
    machine'.trace = machine.trace ++
        (f.sitesFrom before rest).flatMap (interp.eventsAt enter f start) ∧
      machine'.effects = machine.effects ++
        ((f.sitesFrom before rest).filter fun site => site.instr.isEffect).flatMap
          (interp.eventsAt enter f start) := by
  intro rest
  induction rest with
  | nil => simp [Function.sitesFrom]
  | cons b rest ih =>
    intro before
    obtain ⟨trace, effects⟩ := ih (before ++ [b])
    obtain ⟨traceHere, effectsHere⟩ :=
      interp.run_recorded enter (f := f) start before b (f.instrs b) [] rfl
    have visit : interp.runEntering enter f (before ++ [b]) start =
        interp.run (f.instrs b) ((interp.runEntering enter f before start).entering enter b) := by
      simp [runEntering]
    have entering : ((interp.runEntering enter f before start).entering enter b).trace =
          (interp.runEntering enter f before start).trace ∧
        ((interp.runEntering enter f before start).entering enter b).effects =
          (interp.runEntering enter f before start).effects := by
      unfold Machine.entering
      split <;> exact ⟨rfl, rfl⟩
    rw [append_assoc, singleton_append, visit] at trace effects
    rw [run_nil] at traceHere effectsHere
    dsimp only
    rw [trace, effects, traceHere, effectsHere, entering.1, entering.2, Function.sitesFrom,
      filter_append, flatMap_append, flatMap_append, append_assoc, append_assoc]
    exact ⟨rfl, rfl⟩

theorem shown_related : Related Shows interp.shown interp where
  undef := by
    rintro _ ⟨⟩
    rfl
  src := by
    intro src reads reads' read v known
    rw [shown, Option.mem_ite_none_right] at known
    obtain ⟨all, known⟩ := known
    have same : reads.reduceOption = reads' := by
      clear known
      induction read with
      | nil => rfl
      | @cons seen v seens vs shows _ ih =>
        rw [all_cons, Bool.and_eq_true, Option.isSome_iff_exists] at all
        obtain ⟨⟨w, rfl⟩, all⟩ := all
        rw [reduceOption_cons_of_some, ih all, shows w rfl]
    rw [← same]
    exact (Option.some.inj known).symm
  op := by
    intro effects effects' _ skeleton reads reads' _ k v known
    cases known

theorem related_true (interp : Interp V) (interp' : Interp W) :
    Related (fun _ _ => True) interp interp' :=
  ⟨trivial, fun _ _ _ _ => trivial, fun _ _ _ _ _ _ => trivial⟩

/-- The same meaning for several values at once. -/
def pointwise (I : Type) : Interp (I → V) where
  undef := fun _ => interp.undef
  src src reads := fun i => interp.src src (reads.map fun v => v i)
  op effects skeleton reads k := fun i =>
    interp.op (effects.map fun event => event.map fun v => v i) skeleton (reads.map fun v => v i) k

/-- Each of the values is computed as it is alone. -/
theorem pointwise_related {I : Type} (i : I) :
    Related (fun (v : I → V) w => v i = w) (interp.pointwise I) interp where
  undef := rfl
  src := by
    intro src reads reads' read
    show interp.src src (reads.map fun v => v i) = _
    rw [map_of_forall₂ read]
  op := by
    intro effects effects' events skeleton reads reads' read k
    show interp.op (effects.map fun event => event.map fun v => v i) skeleton
      (reads.map fun v => v i) k = _
    rw [map_of_forall₂ read, map_of_forall₂ (events.imp fun _ _ => Event.Rel.map_eq)]

end Interp

/-!
## Soundness

Two values at a time: one where the entry takes nothing away, and one where it does.
-/

/-- What the origin says of a value, with (`true`) and without the entry taking values away. -/
def Origin.Sound (undef : V) : Origin → (Bool → V) → Prop
  | .undef, v => v = fun _ => undef
  | .own, v => v false = v true
  | .carried, _ => True

/-- The two values differ only where they were carried around. -/
def Agrees (S : Origin → (Bool → V) → Prop) : Prop :=
  ∀ o v, S o v → o ≠ .carried → v false = v true

theorem Origin.agrees_sound (undef : V) : Agrees (Origin.Sound undef) := by
  intro o v sound notCarried
  cases o with
  | undef =>
    have same : v = fun _ => undef := sound
    rw [same]
  | own => exact sound
  | carried => exact absurd rfl notCarried

section Agrees

variable {S : Origin → (Bool → V) → Prop} (agrees : Agrees S)
include agrees

theorem reads_agree {origins : List Origin} {reads : List (Bool → V)}
    (related : Forall₂ S origins reads) (notCarried : .carried ∉ origins) :
    (reads.map fun v => v false) = reads.map fun v => v true := by
  induction related with
  | nil => rfl
  | cons one _ ih =>
    rw [mem_cons, not_or] at notCarried
    rw [map_cons, map_cons, agrees _ _ one (Ne.symm notCarried.1), ih notCarried.2]

theorem events_agree {origins : List (Event Origin)} {events : List (Event (Bool → V))}
    (related : Forall₂ (Event.Rel S) origins events)
    (notCarried : .carried ∉ origins.flatMap Event.reads) :
    (events.map fun event => event.map fun v => v false) =
      events.map fun event => event.map fun v => v true := by
  induction related with
  | nil => rfl
  | cons one _ ih =>
    rw [flatMap_cons, mem_append, not_or] at notCarried
    rw [map_cons, map_cons, ih notCarried.2,
      Event.map_congr (reads_agree agrees one.reads notCarried.1)]

end Agrees

theorem Interp.sound_related (interp : Interp V) :
    Related (Origin.Sound interp.undef) originInterp (interp.pointwise Bool) where
  undef := rfl
  src := by
    intro src origins reads read
    unfold originInterp
    dsimp only
    split
    next => trivial
    next notCarried =>
      show interp.src src _ = interp.src src _
      rw [reads_agree (Origin.agrees_sound _) read notCarried]
  op := by
    intro effects effects' events skeleton origins reads read k
    unfold originInterp
    dsimp only
    split
    next => trivial
    next notCarried =>
      rw [mem_append, not_or] at notCarried
      show interp.op _ skeleton _ k = interp.op _ skeleton _ k
      rw [events_agree (Origin.agrees_sound _) events notCarried.1,
        reads_agree (Origin.agrees_sound _) read notCarried.2]

/-- A visit to the entry, where it takes values away. -/
def Interp.reset (interp : Interp V) (_ : V) : V := interp.undef

theorem Interp.start_related {interp : Interp V} {interp' : Interp W}
    (related : Related R interp interp') {phis : Phi → V} {phis' : Phi → W}
    (same : ∀ phi, R (phis phi) (phis' phi)) :
    Machine.Related R (interp.start phis) (interp'.start phis') :=
  ⟨fun _ => related.undef, same, .nil, .nil⟩

/-- Both values of a name at a site, as they are in an execution of their own. -/
theorem Interp.valsAt_pointwise (interp : Interp V) (f : Function) (phis : Phi → V) (site : Site)
    (x : SSAValue) :
    let enter := fun (v : Bool → V) reset => if reset then interp.undef else v reset
    let both := (interp.pointwise Bool).valsAt enter f ((interp.pointwise Bool).start fun phi _ => phis phi)
    both site x false =
        (interp.run site.pre (interp.runPath f site.before (interp.start phis))).vals x ∧
      both site x true = interp.valsAt interp.reset f (interp.start phis) site x := by
  intro enter both
  constructor
  · rw [← valsAt_id]
    refine valsAt_related (interp.pointwise_related false) (fun v w same => ?_)
      (start_related (interp.pointwise_related false) fun _ => rfl) site x
    exact same
  · refine valsAt_related (interp.pointwise_related true) (fun v w same => ?_)
      (start_related (interp.pointwise_related true) fun _ => rfl) site x
    rfl

theorem Origin.sound_enter (undef : V) : ∀ o v, Origin.Sound undef o v →
    Origin.Sound undef o.enter fun reset => if reset then undef else v reset := by
  intro o v sound
  cases o with
  | undef =>
    have same : v = fun _ => undef := sound
    rw [same]
    exact funext fun reset => ite_self undef
  | own | carried => trivial

/-- Where the values at the settled uses are the same, the same is read. -/
theorem Interp.settledReads_related (interp : Interp V) (enter : V → V) {start : Machine V}
    {sites : List Site} (same : ∀ site ∈ sites, ∀ x ∈ site.instr.ssaUses,
      f.Settled site.b site.pre x →
        (interp.run site.pre (interp.runPath f site.before start)).vals x =
          interp.valsAt enter f start site x) :
    Forall₂ (Event.Rel Shows) (sites.flatMap (interp.settledReads f start))
      (sites.flatMap (interp.eventsAt enter f start)) := by
  refine flatMap_related (P := fun site site' => site = site' ∧ site ∈ sites)
    (forall₂_same.mpr fun site member => ⟨rfl, member⟩) ?_
  rintro site _ ⟨rfl, member⟩
  refine interp.shown_related.events _ ?_
  rw [forall₂_map_left_iff, forall₂_map_right_iff, forall₂_same]
  intro x used v known
  rw [Option.mem_ite_none_right] at known
  obtain ⟨settled, known⟩ := known
  rw [← same site member x used settled]
  exact (Option.some.inj known).symm

/-- At the uses that are settled and not carried around, both executions read the same. -/
theorem Function.CarriesNothing.reads {keep : Instr → Bool} (nothing : f.CarriesNothing keep)
    (interp : Interp V) (phis : Phi → V) {before : List Nat} {b : Nat}
    (path : f.blocks.PathTo 0 before b) :
    let sites := (f.sites (before ++ [b])).filter fun site => keep site.instr
    Forall₂ (Event.Rel Shows) (sites.flatMap (interp.settledReads f (interp.start phis)))
      (sites.flatMap (interp.eventsAt interp.reset f (interp.start phis))) := by
  refine interp.settledReads_related interp.reset ?_
  intro site member x used settled
  obtain ⟨inSites, kept⟩ := mem_filter.mp member
  obtain ⟨plain, reset⟩ := interp.valsAt_pointwise f phis site x
  have sound := Interp.valsAt_related (f := f) interp.sound_related
    (Origin.sound_enter interp.undef) (Interp.start_related interp.sound_related fun phi =>
      show Origin.Sound _ .own fun _ => phis phi from rfl) site x
  have same := Origin.agrees_sound _ _ _ sound
    (nothing before b path site inSites kept x used settled)
  rwa [plain, reset] at same

/-- A function reads what it reads. -/
theorem Function.keepsReads_self (f : Function) : f.KeepsReads f := by
  intro V interp phis before b _
  dsimp only
  obtain ⟨trace, effects⟩ := interp.runEntering_recorded id (f := f) (interp.start phis)
    (before ++ [b]) []
  rw [nil_append, interp.runEntering_id] at trace effects
  have reads : ∀ sites : List Site, Forall₂ (Event.Rel Shows)
      (sites.flatMap (interp.settledReads f (interp.start phis)))
      (sites.flatMap (interp.eventsAt id f (interp.start phis))) := fun sites =>
    interp.settledReads_related id fun site _ x _ _ => by rw [interp.valsAt_id]
  rw [trace, effects]
  exact ⟨reads _, sublistForall₂_of_sublist (observe_related _ (reads _)) (Sublist.refl _)⟩

/-!
## Completeness

Numbers that tell what was read: a value that was carried around is never the one that is read
where the entry takes values away.
-/

/-- Each value numbers what it was computed from, and nothing else has its number. -/
def numbering : Interp Nat where
  undef := 0
  src _ reads := Encodable.encode reads + 1
  op effects _ reads _ := Encodable.encode (effects.flatMap Event.reads ++ reads) + 1

/-- What the origin says of the numbers. -/
def Origin.Exact : Origin → (Bool → Nat) → Prop
  | .undef, v => v = fun _ => 0
  | .own, v => v false = v true ∧ v false ≠ 0
  | .carried, v => v false ≠ v true ∧ v false ≠ 0

theorem Origin.agrees_exact : Agrees Origin.Exact := by
  intro o v exact_ notCarried
  cases o with
  | undef =>
    have same : v = fun _ => 0 := exact_
    rw [same]
  | own => exact exact_.1
  | carried => exact absurd rfl notCarried

/-- Numbers that were carried around are seen in the list. -/
theorem reads_differ {origins : List Origin} {reads : List (Bool → Nat)}
    (related : Forall₂ Origin.Exact origins reads) (carried : .carried ∈ origins) :
    (reads.map fun v => v false) ≠ reads.map fun v => v true := by
  induction related with
  | nil => cases carried
  | cons one _ ih =>
    intro same
    rw [map_cons, map_cons, cons_eq_cons] at same
    rcases mem_cons.mp carried with isHead | later
    · subst isHead
      exact one.1 same.1
    · exact ih later same.2

/-- A number that tells what was read. -/
theorem exact_encode {origins : List Origin} {reads : List (Bool → Nat)}
    (related : Forall₂ Origin.Exact origins reads) :
    Origin.Exact (if .carried ∈ origins then .carried else .own)
      fun i => Encodable.encode (reads.map fun v => v i) + 1 := by
  split
  next carried =>
    refine ⟨fun same => reads_differ related carried ?_, Nat.succ_ne_zero _⟩
    exact Encodable.encode_injective (Nat.succ.inj same)
  next notCarried =>
    refine ⟨?_, Nat.succ_ne_zero _⟩
    dsimp only
    rw [reads_agree Origin.agrees_exact related notCarried]

theorem exact_related : Interp.Related Origin.Exact originInterp (numbering.pointwise Bool) where
  undef := rfl
  src := fun _ _ _ read => exact_encode read
  op := by
    intro effects effects' events skeleton origins reads read k
    have all := rel_append (flatMap_related events fun _ _ one => one.reads) read
    have numbers := exact_encode all
    have split : ∀ i, ((effects'.flatMap Event.reads ++ reads).map fun v => v i) =
        (effects'.map fun event => event.map fun v => v i).flatMap Event.reads ++
          reads.map fun v => v i := by
      intro i
      rw [map_append, flatMap_map, map_flatMap]
      congr 2
      funext event
      cases event <;> rfl
    simp only [split] at numbers
    exact numbers

theorem Origin.exact_enter : ∀ o v, Origin.Exact o v →
    Origin.Exact o.enter fun reset => if reset then 0 else v reset := by
  intro o v exact_
  cases o with
  | undef =>
    have same : v = fun _ => 0 := exact_
    rw [same]
    exact funext fun reset => ite_self 0
  | own | carried => exact ⟨exact_.2, exact_.2⟩

/-- An instruction with an effect that uses something says what it reads. -/
theorem Interp.events_effect (interp : Interp V) {instr : Instr} {x : SSAValue}
    (effect : instr.isEffect = true) (used : x ∈ instr.ssaUses)
    (unguarded : instr.isHead → instr.pred.iterSsa = []) (reads : List V) :
    interp.events instr.skeleton reads = [.instr instr.skeleton reads] := by
  unfold Interp.events
  rw [Instr.skeleton_op]
  unfold Instr.isEffect Instr.canEliminate at effect
  cases isOp : instr.op with
  | annotate text =>
    have noUses : instr.ssaUses = [] := by
      simp [Instr.ssaUses, unguarded (by simp [Instr.isHead, isOp]), Instr.srcs, isOp, Op.srcs]
    rw [noUses] at used
    cases used
  | _ =>
    simp_all [Op.canEliminate, Op.setSrcs, Op.setDsts, Instr.srcs, Instr.dsts, Op.srcs, Op.dsts]

theorem eventsAt_apart {first : Site → List (Event V)} {second : Site → List (Event W)}
    {sites : List Site} (lengths : ∀ site ∈ sites, (first site).length = (second site).length)
    (all : Forall₂ (Event.Rel R) (sites.flatMap first) (sites.flatMap second)) :
    ∀ site ∈ sites, Forall₂ (Event.Rel R) (first site) (second site) := by
  induction sites with
  | nil => exact fun _ member => nomatch member
  | cons head sites ih =>
    rw [forall_mem_cons] at lengths ⊢
    rw [flatMap_cons, flatMap_cons] at all
    have here := forall₂_take_append _ _ _ all
    have rest := forall₂_drop_append _ _ _ all
    rw [← lengths.1, take_left' rfl] at here
    rw [← lengths.1, drop_left' rfl] at rest
    exact ⟨here, ih lengths.2 rest⟩

/-- Where both executions number what they read alike, nothing with an effect reads a value that
was carried around. -/
theorem Function.carriesNothing_of_reads
    (unguarded : ∀ b, ∀ instr ∈ f.instrs b, instr.isHead → instr.pred.iterSsa = [])
    (reads : ∀ before b, f.blocks.PathTo 0 before b →
      let sites := (f.sites (before ++ [b])).filter fun site => site.instr.isEffect
      Forall₂ (Event.Rel Shows)
        (sites.flatMap (numbering.settledReads f (numbering.start fun _ => 1)))
        (sites.flatMap (numbering.eventsAt numbering.reset f (numbering.start fun _ => 1)))) :
    f.CarriesNothing Instr.isEffect := by
  intro before b path site inSites effect x used settled carried
  have member : site ∈ (f.sites (before ++ [b])).filter fun site => site.instr.isEffect :=
    mem_filter.mpr ⟨inSites, effect⟩
  have lengths : ∀ site ∈ (f.sites (before ++ [b])).filter fun site => site.instr.isEffect,
      (numbering.settledReads f (numbering.start fun _ => 1) site).length =
        (numbering.eventsAt numbering.reset f (numbering.start fun _ => 1) site).length := by
    intro site _
    refine ((numbering.shown.related_true numbering).events _ ?_).length_eq
    rw [forall₂_map_left_iff, forall₂_map_right_iff, forall₂_same]
    exact fun _ _ => trivial
  have alike := eventsAt_apart lengths (reads before b path) site member
  have one := fun {V : Type} (interp : Interp V) => interp.events_effect effect used
    (unguarded site.b site.instr (mem_sitesFrom inSites).1)
  unfold Interp.settledReads Interp.eventsAt at alike
  rw [one, one] at alike
  cases alike with
  | cons event _ =>
    cases event with
    | instr read =>
      rw [forall₂_map_left_iff, forall₂_map_right_iff, forall₂_same] at read
      have same := read x used
      rw [if_pos settled] at same
      have same := same _ rfl
      obtain ⟨plain, reset⟩ := numbering.valsAt_pointwise f (fun _ => 1) site x
      have differ := Interp.valsAt_related (f := f) exact_related Origin.exact_enter
        (Interp.start_related exact_related fun _ =>
          show Origin.Exact .own fun _ => 1 from ⟨rfl, Nat.one_ne_zero⟩) site x
      rw [Function.originsAt] at carried
      rw [carried] at differ
      exact differ.1 (plain.trans (same.trans reset.symm))

def Origin.NotCarried (o : Origin) (_ : Unit) : Prop := o ≠ .carried

/-- Ops that do not read what was carried around give nothing that was. -/
theorem notCarried_related : Interp.Related Origin.NotCarried originInterp
    ⟨(), fun _ _ => (), fun _ _ _ _ => ()⟩ := by
  have reads : ∀ {origins : List Origin} {reads : List Unit},
      Forall₂ Origin.NotCarried origins reads → .carried ∉ origins := by
    intro origins reads related
    induction related with
    | nil => exact not_mem_nil
    | cons one _ ih => exact not_mem_cons_of_ne_of_not_mem one.symm ih
  refine ⟨Origin.noConfusion, ?_, ?_⟩
  · intro src origins reads' read
    show (if .carried ∈ origins then Origin.carried else .own) ≠ .carried
    rw [if_neg (reads read)]
    exact Origin.noConfusion
  · intro effects effects' events skeleton origins reads' read k
    have all := rel_append (flatMap_related events fun _ _ one => one.reads) read
    show (if .carried ∈ effects.flatMap Event.reads ++ origins then Origin.carried else .own) ≠
      .carried
    rw [if_neg (reads all)]
    exact Origin.noConfusion

/-- Without an edge to the entry, a path visits it once. -/
theorem visits_once (alone : ∀ p, (p, 0) ∉ f.blocks.edges) {before : List Nat} {b : Nat}
    (path : f.blocks.PathTo 0 before b) :
    (before = [] ∧ b = 0) ∨ ∃ tail, before = 0 :: tail ∧ 0 ∉ tail ∧ b ≠ 0 := by
  induction path with
  | root => exact .inl ⟨rfl, rfl⟩
  | @step before p b path edge ih =>
    have notEntry : b ≠ 0 := by
      rintro rfl
      exact alone p edge
    rcases ih with ⟨rfl, rfl⟩ | ⟨tail, rfl, absent, other⟩
    · exact .inr ⟨[], rfl, not_mem_nil, notEntry⟩
    · exact .inr ⟨tail ++ [p], rfl, by simp [absent, Ne.symm other], notEntry⟩

/-- Where the entry has no predecessor, nothing is carried around. -/
theorem Function.carriesNothing_of_entry (alone : ∀ p, (p, 0) ∉ f.blocks.edges)
    (keep : Instr → Bool) : f.CarriesNothing keep := by
  intro before b path site member _ x _ _
  let start := originInterp.start fun _ => .own
  have other : ∀ {b : Nat} (enter : Origin → Origin) (machine : Machine Origin), b ≠ 0 →
      machine.entering enter b = machine := fun _ _ notEntry => if_neg notEntry
  have first : start.entering Origin.enter 0 = start.entering id 0 := rfl
  have later : ∀ (tail : List Nat) (machine : Machine Origin), 0 ∉ tail →
      originInterp.runEntering Origin.enter f tail machine =
        originInterp.runEntering id f tail machine := by
    intro tail
    induction tail with
    | nil => exact fun _ _ => rfl
    | cons c tail ih =>
      intro machine absent
      rw [mem_cons, not_or] at absent
      have visit := fun enter => other enter machine (Ne.symm absent.1)
      show originInterp.runEntering Origin.enter f tail (originInterp.run (f.instrs c) _) =
        originInterp.runEntering id f tail (originInterp.run (f.instrs c) _)
      rw [visit, visit]
      exact ih _ absent.2
  have same : f.originsAt site x = originInterp.valsAt id f start site x := by
    obtain ⟨-, post, split⟩ := mem_sitesFrom member
    rcases visits_once alone (path.upTo split) with ⟨none, isEntry⟩ |
      ⟨tail, passed, absent, isOther⟩
    · rw [Function.originsAt, Interp.valsAt, Interp.valsAt, none, isEntry]
      exact congrArg (fun machine => (originInterp.run site.pre machine).vals x) first
    · rw [Function.originsAt, Interp.valsAt, Interp.valsAt, passed, other _ _ isOther,
        other _ _ isOther]
      have visit : originInterp.runEntering Origin.enter f (0 :: tail) start =
          originInterp.runEntering id f (0 :: tail) start := by
        show originInterp.runEntering Origin.enter f tail
          (originInterp.run (f.instrs 0) (start.entering Origin.enter 0)) = _
        rw [first, later _ _ absent]
        rfl
      rw [visit]
  have stays : ∀ (o : Origin) (u : Unit), o.NotCarried u → (id o).NotCarried (id u) :=
    fun _ _ notCarried => notCarried
  rw [same]
  exact Interp.valsAt_related notCarried_related stays (Interp.start_related notCarried_related
    fun _ => show Origin.own.NotCarried () from Origin.noConfusion) site x

end CoralReef
