import CoralReef.Compile.Service

/-!
# The entry points against each other

Every entry point of the compiler comes down to one entry point of the module that is given to one
of two generators. Results are compared up to the texts of errors.
-/

open List

namespace CoralReef.Compile

variable {F M I : Type}
variable {module : Module F M} {ep : EntryPoint F}

/-- What naga's WGSL front end keeps: entry points have names of their own, and there is none where
nothing but a preamble is parsed. -/
structure Naga.Lawful (naga : Naga F M) (preambles : Preambles) : Prop where
  distinct : ∀ source module, naga.parseStr source = .ok module →
    (module.entryPoints.map EntryPoint.name).Nodup
  noEntries : ∀ options module, naga.parseStr (prepareWgsl preambles [] options) = .ok module →
    module.entryPoints = []

/-- A compute entry point, or none. -/
def computeOnly (ep : Option (EntryPoint F)) : Option (EntryPoint F) :=
  ep.filter fun ep => ep.stage = .Compute

/-- The entry point that is asked for: the one that is named, or the first compute entry point. -/
def Module.select (module : Module F M) : Option String → Option (EntryPoint F)
  | some name => computeOnly (module.entryPoints.find? fun ep => ep.name = name)
  | none => module.entryPoints.find? fun ep => ep.stage = .Compute

/-- The generators that code comes from. -/
inductive Generator where
  | Ptx (sm : Nat)
  | Native
  deriving DecidableEq

/-- The PTX emitter from SM100 on, the native pipeline otherwise. -/
def GpuTarget.generator (target : GpuTarget) : Generator :=
  match target.asNvidia with
  | some nv => if 100 ≤ nv.sm then .Ptx nv.smVersion else .Native
  | none => .Native

/-- What a generator makes of an entry point. -/
def CodeGen.run (gen : CodeGen F M I) (generator : Generator) (module : Module F M)
    (options : CompileOptions) (ep : EntryPoint F) : Except CompileError CompiledBinary :=
  match generator with
  | .Ptx sm => gen.emitEntry module sm ep
  | .Native => do
    let sm ← shaderModelFor options.target
    let shader ← gen.translateCompute sm module ep
    gen.finish shader options


/-- Results in sequence, up to the texts of errors. -/
theorem toOption_bind {E A B : Type} (first : Except E A) (next : A → Except E B) :
    (first >>= next).toOption = first.toOption.bind fun a => (next a).toOption := by
  cases first <;> rfl

/-- The native pipeline from an entry point that has been found. -/
theorem CodeGen.run_native (gen : CodeGen F M I) (module : Module F M) (options : CompileOptions)
    (ep : EntryPoint F) : gen.run .Native module options ep = (do
      let sm ← shaderModelFor options.target
      let shader ← gen.translateCompute sm module ep
      gen.finish shader options) := rfl

/-- The native pipeline fails on what is no compute entry point. -/
theorem CodeGen.run_native_stage (gen : CodeGen F M I) {options : CompileOptions}
    (stage : ep.stage ≠ .Compute) :
    (gen.run .Native module options ep).toOption = none := by
  have refused : ∀ sm, gen.translateCompute sm module ep =
      .error (.InvalidInput s!"expected compute stage, got {ep.stage.debug}") := by
    intro sm
    rw [CodeGen.translateCompute, if_pos stage]
    rfl
  rw [CodeGen.run_native]
  cases shaderModelFor options.target with
  | error e => rfl
  | ok sm =>
    show (gen.translateCompute sm module ep >>= _).toOption = none
    rw [refused]
    rfl

/-! ## Entry points by their names -/

theorem find?_name {eps : List (EntryPoint F)} (distinct : (eps.map EntryPoint.name).Nodup)
    (member : ep ∈ eps) :
    (eps.find? fun other => other.name = ep.name) = some ep := by
  induction eps with
  | nil => cases member
  | cons first rest ih =>
    rw [map_cons, nodup_cons] at distinct
    by_cases same : first.name = ep.name
    · rcases mem_cons.mp member with rfl | member
      · rw [find?_cons_of_pos (by simp)]
      · exact absurd (same ▸ mem_map_of_mem member) distinct.1
    · rcases mem_cons.mp member with rfl | member
      · exact absurd rfl same
      · rw [find?_cons_of_neg (by simpa using same)]
        exact ih distinct.2 member

/-- What is selected is a compute entry point of the module. -/
theorem Module.select_mem {name : Option String} (selected : module.select name = some ep) :
    ep ∈ module.entryPoints ∧ ep.stage = .Compute := by
  cases name with
  | some name =>
    obtain ⟨found, stage⟩ := Option.filter_eq_some_iff.mp selected
    exact ⟨mem_of_find?_eq_some found, of_decide_eq_true stage⟩
  | none =>
    have found : module.entryPoints.find? (fun ep => ep.stage = .Compute) = some ep := selected
    exact ⟨mem_of_find?_eq_some found, by simpa using find?_some found⟩

/-- A first entry point that is a compute entry point is selected without a name, and with its own. -/
theorem Module.select_head (distinct : (module.entryPoints.map EntryPoint.name).Nodup)
    (first : module.entryPoints.head? = some ep) (stage : ep.stage = .Compute)
    {name : Option String} (named : name = none ∨ name = some ep.name) :
    module.select name = some ep := by
  obtain ⟨rest, isList⟩ := head?_eq_some_iff.mp first
  rcases named with rfl | rfl
  · show (module.entryPoints.find? _) = _
    rw [isList, find?_cons_of_pos (by simpa using stage)]
  · have member : ep ∈ module.entryPoints := isList ▸ mem_cons_self
    have found := find?_name distinct member
    show computeOnly _ = _
    rw [found]
    exact Option.filter_eq_some_iff.mpr ⟨rfl, decide_eq_true stage⟩

theorem Module.select_none_of (none : ∀ ep ∈ module.entryPoints, ep.stage ≠ .Compute)
    (name : Option String) :
    module.select name = .none := by
  cases selected : module.select name with
  | none => rfl
  | some ep =>
    obtain ⟨member, stage⟩ := Module.select_mem selected
    exact absurd stage (none ep member)

section

variable (naga : Naga F M) (gen : CodeGen F M I) (preambles : Preambles)
variable {module : Module F M}

theorem resolveEntryPoint_eq (module : Module F M) (name : Option String) :
    (resolveEntryPoint module name).toOption = module.select name := by
  cases name with
  | some name =>
    cases found : module.entryPoints.find? fun ep => ep.name = name with
    | none => simp [resolveEntryPoint, Module.select, computeOnly, found, Except.toOption]
    | some ep =>
      by_cases stage : ep.stage = .Compute <;>
        simp [resolveEntryPoint, Module.select, computeOnly, found, stage, Except.toOption,
          Option.filter_some]
  | none =>
    cases found : module.entryPoints.find? fun ep => ep.stage = .Compute <;>
      simp [resolveEntryPoint, Module.select, found, Except.toOption]

theorem translate_eq (distinct : (module.entryPoints.map EntryPoint.name).Nodup) {ep : EntryPoint F}
    (member : ep ∈ module.entryPoints) (sm : ShaderModel) :
    gen.translate module sm ep.name = gen.translateCompute sm module ep := by
  rw [CodeGen.translate, find?_name distinct member]

/-- The PTX emitter looks an entry point up again. -/
theorem emitComputePtxModule_some (distinct : (module.entryPoints.map EntryPoint.name).Nodup)
    {ep : EntryPoint F} (member : ep ∈ module.entryPoints) (sm : Nat) :
    gen.emitComputePtxModule module sm (some ep.name) = gen.emitEntry module sm ep := by
  rw [CodeGen.emitComputePtxModule, find?_name distinct member]

/-! ## Each entry point -/

/-- `compile_module_full` runs the generator of the target on the entry point that is selected. -/
theorem compileModuleFull_eq (distinct : (module.entryPoints.map EntryPoint.name).Nodup)
    (options : CompileOptions) :
    (compileModuleFull naga gen module options).toOption =
      if options.validate && !(naga.validate module).isOk then none
      else (module.select options.entryPoint).bind fun ep =>
        (gen.run options.target.generator module options ep).toOption := by
  by_cases empty : module.entryPoints = []
  · have absent : module.select options.entryPoint = none :=
      Module.select_none_of (by simp [empty]) _
    have failed : (compileModuleFull naga gen module options).toOption = none := by
      rw [compileModuleFull, if_pos empty]
      rfl
    rw [failed, absent, Option.bind_none, ite_self]
  · have resolved : ∀ next : EntryPoint F → Except CompileError CompiledBinary,
        (∀ ep ∈ module.entryPoints,
          (next ep).toOption = (gen.run options.target.generator module options ep).toOption) →
        (resolveEntryPoint module options.entryPoint >>= next).toOption =
          (module.select options.entryPoint).bind fun ep =>
            (gen.run options.target.generator module options ep).toOption := by
      intro next same
      rw [toOption_bind, resolveEntryPoint_eq]
      cases selected : module.select options.entryPoint with
      | none => rfl
      | some ep => exact same ep (Module.select_mem selected).1
    have generated : ∀ ep ∈ module.entryPoints, (match options.target.asNvidia with
        | some nv =>
          if 100 ≤ nv.sm then gen.emitComputePtxModule module nv.smVersion (some ep.name)
          else do
            let sm ← shaderModelFor options.target
            let shader ← gen.translate module sm ep.name
            gen.finish shader options
        | none => do
          let sm ← shaderModelFor options.target
          let shader ← gen.translate module sm ep.name
          gen.finish shader options) = gen.run options.target.generator module options ep := by
      intro ep member
      unfold GpuTarget.generator
      cases options.target.asNvidia with
      | none => simp only [translate_eq gen distinct member]; rfl
      | some nv =>
        dsimp only
        split
        · exact emitComputePtxModule_some gen distinct member _
        · simp only [translate_eq gen distinct member]; rfl
    have choose := resolved _ fun ep member => congrArg Except.toOption (generated ep member)
    rw [compileModuleFull, if_neg empty, ← choose]
    cases options.validate with
    | false => rfl
    | true =>
      unfold validateModule
      cases naga.validate module <;> rfl

/-- `compile_naga_module_full` runs the native pipeline on the first entry point. -/
theorem compileNagaModuleFull_eq (distinct : (module.entryPoints.map EntryPoint.name).Nodup)
    (options : CompileOptions) :
    (compileNagaModuleFull gen module options).toOption =
      module.entryPoints.head?.bind fun ep =>
        (gen.run .Native module options ep).toOption := by
  cases first : module.entryPoints.head? with
  | none =>
    rw [compileNagaModuleFull, toOption_bind, first]
    cases shaderModelFor options.target <;> rfl
  | some ep =>
    have member : ep ∈ module.entryPoints := mem_of_head? first
    have generated : compileNagaModuleFull gen module options =
        gen.run .Native module options ep := by
      unfold compileNagaModuleFull
      rw [first]
      simp only [translate_eq gen distinct member]
      rfl
    rw [generated]
    rfl

variable {wgsl : List Char} {options : CompileOptions}

/-- Below SM100 `compile_wgsl_full` does with a source what `compile_naga_module_full` does with its
module. -/
theorem compileWgslFull_native (lawful : naga.Lawful preambles)
    (native : options.target.generator = .Native) :
    (compileWgslFull naga gen preambles wgsl options).toOption =
      (naga.parseStr (prepareWgsl preambles wgsl options)).toOption.bind fun module =>
        (compileNagaModuleFull gen module options).toOption := by
  by_cases empty : wgsl = []
  · subst empty
    have failed : (compileWgslFull naga gen preambles [] options).toOption = none := rfl
    rw [failed]
    cases parsed : naga.parseStr (prepareWgsl preambles [] options) with
    | error e => rfl
    | ok module =>
      have none := lawful.noEntries options module parsed
      show _ = (compileNagaModuleFull gen module options).toOption
      rw [compileNagaModuleFull_eq gen (by rw [none]; exact nodup_nil) options, none]
      rfl
  · have routed : compileWgslFull naga gen preambles wgsl options = (do
        let sm ← shaderModelFor options.target
        let shader ← nagaFrontendCompileWgsl naga gen (prepareWgsl preambles wgsl options) sm
        gen.finish shader options) := by
      rw [compileWgslFull, if_neg empty]
      unfold GpuTarget.generator at native
      cases isNv : options.target.asNvidia with
      | none => rfl
      | some nv =>
        rw [isNv] at native
        dsimp only at native ⊢
        split at native
        · cases native
        · rw [if_neg (by assumption)]
    rw [routed]
    unfold nagaFrontendCompileWgsl parseWgsl translateFirstEntry compileNagaModuleFull
    cases naga.parseStr (prepareWgsl preambles wgsl options) with
    | error e => cases shaderModelFor options.target <;> rfl
    | ok module =>
      show _ = Except.toOption _
      cases shaderModelFor options.target with
      | error e => rfl
      | ok sm =>
        dsimp only [bind, Except.bind]
        cases module.entryPoints.head? <;> rfl

/-- From SM100 on `compile_wgsl_full` gives the first compute entry point to the PTX emitter. -/
theorem compileWgslFull_ptx (lawful : naga.Lawful preambles) {sm : Nat}
    (ptx : options.target.generator = .Ptx sm) :
    (compileWgslFull naga gen preambles wgsl options).toOption =
      (naga.parseStr (prepareWgsl preambles wgsl options)).toOption.bind fun module =>
        (module.select none).bind fun ep => (gen.run (.Ptx sm) module options ep).toOption := by
  by_cases empty : wgsl = []
  · subst empty
    have failed : (compileWgslFull naga gen preambles [] options).toOption = none := rfl
    rw [failed]
    cases parsed : naga.parseStr (prepareWgsl preambles [] options) with
    | error e => rfl
    | ok module =>
      have none := lawful.noEntries options module parsed
      have absent : module.select .none = .none := Module.select_none_of (by simp [none]) _
      show _ = (module.select .none).bind _
      rw [absent]
      rfl
  · have routed : compileWgslFull naga gen preambles wgsl options =
        emitComputePtx naga gen (prepareWgsl preambles wgsl options) sm := by
      rw [compileWgslFull, if_neg empty]
      unfold GpuTarget.generator at ptx
      cases isNv : options.target.asNvidia with
      | none => rw [isNv] at ptx; cases ptx
      | some nv =>
        rw [isNv] at ptx
        dsimp only at ptx ⊢
        split at ptx
        · cases ptx
          rw [if_pos (by assumption)]
        · cases ptx
    rw [routed]
    unfold emitComputePtx parseWgsl
    cases naga.parseStr (prepareWgsl preambles wgsl options) with
    | error e => rfl
    | ok module =>
      show (gen.emitComputePtxModule module sm none).toOption = (module.select none).bind _
      unfold CodeGen.emitComputePtxModule Module.select
      cases module.entryPoints.find? fun ep => ep.stage = .Compute <;> rfl

end

/-! ## The entry points together -/

section

variable (naga : Naga F M) (gen : CodeGen F M I) (preambles : Preambles)

/-- What the three entry points have in common for a source and the module that it is parsed to. -/
structure EntriesAgree (wgsl : List Char) (options : CompileOptions) (module : Module F M) :
    Prop where
  /-- `compile_module_full` compiles the entry point that the options ask for. -/
  selected : (compileModuleFull naga gen module options).toOption =
    if options.validate && !(naga.validate module).isOk then none
    else (module.select options.entryPoint).bind fun ep =>
      (gen.run options.target.generator module options ep).toOption
  /-- `compile_wgsl_full` routes to the same generator. -/
  routed : ∀ ep, module.entryPoints.head? = some ep → ep.stage = .Compute →
    (compileWgslFull naga gen preambles wgsl options).toOption =
      (gen.run options.target.generator module options ep).toOption
  /-- `compile_naga_module_full` does so below SM100. -/
  native : options.target.generator = .Native →
    (compileNagaModuleFull gen module options).toOption =
      (compileWgslFull naga gen preambles wgsl options).toOption
  /-- From SM100 on the first compute entry point need not be the first entry point. -/
  ptx : options.target.generator ≠ .Native → options.entryPoint = none →
    (options.validate = true → (naga.validate module).isOk = true) →
    (compileWgslFull naga gen preambles wgsl options).toOption =
      (compileModuleFull naga gen module options).toOption
  /-- Where the options ask for the first entry point, the same code is made. -/
  same : ∀ ep, module.entryPoints.head? = some ep → ep.stage = .Compute →
    (options.entryPoint = none ∨ options.entryPoint = some ep.name) →
    (options.validate = true → (naga.validate module).isOk = true) →
    (compileWgslFull naga gen preambles wgsl options).toOption =
      (compileModuleFull naga gen module options).toOption
  /-- Without a compute entry point there is no code. -/
  fails : (∀ ep ∈ module.entryPoints, ep.stage ≠ .Compute) →
    (compileWgslFull naga gen preambles wgsl options).toOption = none ∧
      (compileNagaModuleFull gen module options).toOption = none ∧
      (compileModuleFull naga gen module options).toOption = none

/-- An answer without the SPIR-V that may come with it. -/
def CompileResponse.withoutSpirv (response : CompileResponse) : CompileResponse :=
  { response with spirvBinary := none }

/-- What the entry points agree in, and that the service answers with the same binary whether or not it
is asked for SPIR-V. -/
theorem compileEntries_agree (lawful : naga.Lawful preambles) :
    (∀ wgsl options module, naga.parseStr (prepareWgsl preambles wgsl options) = .ok module →
      EntriesAgree naga gen preambles wgsl options module) ∧
    ∀ req : CompileWgslRequest,
      (handleCompileWgsl naga gen preambles { req with emitSpirv := true }).toOption.map
          CompileResponse.withoutSpirv =
        (handleCompileWgsl naga gen preambles { req with emitSpirv := false }).toOption := by
  refine ⟨fun wgsl options module parsed => ?_, fun req => ?_⟩
  · have distinct := lawful.distinct _ module parsed
    have wgslNative : options.target.generator = .Native →
        (compileWgslFull naga gen preambles wgsl options).toOption =
          (compileNagaModuleFull gen module options).toOption := by
      intro native
      rw [compileWgslFull_native naga gen preambles lawful native, parsed]
      rfl
    have wgslPtx : ∀ {sm}, options.target.generator = .Ptx sm →
        (compileWgslFull naga gen preambles wgsl options).toOption =
          (module.select none).bind fun ep => (gen.run (.Ptx sm) module options ep).toOption := by
      intro sm ptx
      rw [compileWgslFull_ptx naga gen preambles lawful ptx, parsed]
      rfl
    have routed : ∀ ep, module.entryPoints.head? = some ep → ep.stage = .Compute →
        (compileWgslFull naga gen preambles wgsl options).toOption =
          (gen.run options.target.generator module options ep).toOption := by
      intro ep first stage
      cases generator : options.target.generator with
      | Native => rw [wgslNative generator, compileNagaModuleFull_eq gen distinct, first]; rfl
      | Ptx sm =>
        rw [wgslPtx generator, Module.select_head distinct first stage (.inl rfl)]
        rfl
    have accepted : (options.validate = true → (naga.validate module).isOk = true) →
        (options.validate && !(naga.validate module).isOk) = false := by
      intro accepts
      cases validates : options.validate with
      | false => rfl
      | true => rw [accepts validates]; rfl
    have selected := compileModuleFull_eq naga gen distinct options
    refine ⟨selected, routed, fun native => (wgslNative native).symm, ?_, ?_, ?_⟩
    · intro notNative unnamed accepts
      rw [selected, accepted accepts, unnamed]
      cases generator : options.target.generator with
      | Native => exact absurd generator notNative
      | Ptx sm => exact wgslPtx generator
    · intro ep first stage named accepts
      rw [selected, accepted accepts, Module.select_head distinct first stage named,
        routed ep first stage]
      rfl
    · intro none
      have nagaFails : (compileNagaModuleFull gen module options).toOption = .none := by
        rw [compileNagaModuleFull_eq gen distinct]
        cases first : module.entryPoints.head? with
        | none => rfl
        | some ep => exact gen.run_native_stage (none ep (List.mem_of_head? first))
      refine ⟨?_, nagaFails, ?_⟩
      · cases generator : options.target.generator with
        | Native => rw [wgslNative generator, nagaFails]
        | Ptx sm => rw [wgslPtx generator, Module.select_none_of none]; rfl
      · rw [selected, Module.select_none_of none, Option.bind_none, ite_self]
  · unfold handleCompileWgsl
    have sameOptions : ({ req with emitSpirv := true } : CompileWgslRequest).options =
        ({ req with emitSpirv := false } : CompileWgslRequest).options := rfl
    rw [sameOptions]
    cases ({ req with emitSpirv := false } : CompileWgslRequest).options with
    | error e => rfl
    | ok options =>
      dsimp only [bind, Except.bind]
      cases ptx : options.target.asNvidia.any fun nv => 100 ≤ nv.sm with
      | true =>
        simp only [Bool.not_true, Bool.false_and, Bool.false_eq_true, if_false]
        cases compileWgslFull naga gen preambles req.wgslSource options <;> rfl
      | false =>
        have native : options.target.generator = .Native := by
          unfold GpuTarget.generator
          cases isNv : options.target.asNvidia with
          | none => rfl
          | some nv => simpa [isNv] using ptx
        have agree : (compileWgslFull naga gen preambles req.wgslSource options).toOption = _ :=
          compileWgslFull_native naga gen preambles lawful native
        simp only [Bool.not_false, Bool.and_true, Bool.and_false, Bool.false_eq_true, if_true, if_false]
        unfold parseWgslToNaga
        cases parsed : naga.parseStr (prepareWgsl preambles req.wgslSource options) with
        | error e =>
          rw [parsed] at agree
          cases compiled : compileWgslFull naga gen preambles req.wgslSource options with
          | error e' => rfl
          | ok binary => rw [compiled] at agree; cases agree
        | ok module =>
          rw [parsed] at agree
          replace agree : _ = (compileNagaModuleFull gen module options).toOption := agree
          dsimp only
          cases compiled : compileWgslFull naga gen preambles req.wgslSource options <;>
            cases compiled' : compileNagaModuleFull gen module options <;>
            rw [compiled, compiled'] at agree <;> cases agree <;> rfl

end

/-! ## A module with two entry points -/

/-- A source with two compute entry points. -/
def twoEntrySource : List Char := "@compute fn a()\x7b\x7d@compute fn b()\x7b\x7d".toList

/-- Its module, in which the function of an entry point is a number. -/
def twoEntryModule : Module Nat Unit where
  entryPoints := [⟨"a", .Compute, (1, 1, 1), 1⟩, ⟨"b", .Compute, (1, 1, 1), 2⟩]
  rest := ()

/-- Preambles that are comments. -/
def commentPreambles : Preambles where
  complex64 := "// complex".toList
  prng := "// prng".toList
  su3 := "// su3".toList
  df64 := "// df64".toList
  f32Transcendental := "// f32".toList

/-- What naga does with that source, and with sources without an entry point. -/
def twoEntryNaga : Naga Nat Unit where
  parseStr source := .ok (if source = twoEntrySource then twoEntryModule else ⟨[], ()⟩)
  validate _ := .ok ()
  writeVec _ _ _ := .ok [0x07230203]

/-- Generators that put out the number of a function. -/
def numberGen : CodeGen Nat Unit Nat where
  translateFunction _ _ ep := .ok ep.function
  workgroupSizes _ := []
  compileShader shader := .ok { header := [], code := shader.functions, counts := {} }
  emit _ ep _ := .ok {
    ptx := [ep.function], r32Next := 1, rd64Next := 1, sharedMemBytes := 0, barrierCount := 0 }

theorem twoEntryNaga_lawful : twoEntryNaga.Lawful commentPreambles where
  distinct source module parsed := by
    cases parsed
    split <;> decide
  noEntries options module parsed := by
    cases parsed
    have differs : prepareWgsl commentPreambles [] options ≠ twoEntrySource := by
      show prepareWgsl commentPreambles [] { fp64Strategy := options.fp64Strategy } ≠ _
      cases options.fp64Strategy <;> decide
    rw [if_neg differs]

theorem twoEntries_agree :
    EntriesAgree twoEntryNaga numberGen commentPreambles twoEntrySource {} twoEntryModule :=
  (compileEntries_agree twoEntryNaga numberGen commentPreambles twoEntryNaga_lawful).1
    twoEntrySource {} twoEntryModule (congrArg Except.ok (if_pos (by decide)))

/-- Where the options name the second entry point, `compile_wgsl_full` compiles the first. -/
theorem entryPoint_ignored : ¬ ∀ wgsl options module,
    twoEntryNaga.parseStr (prepareWgsl commentPreambles wgsl options) = .ok module →
      (compileWgslFull twoEntryNaga numberGen commentPreambles wgsl options).toOption =
        (compileModuleFull twoEntryNaga numberGen module options).toOption ∧
      (compileNagaModuleFull numberGen module options).toOption =
        (compileModuleFull twoEntryNaga numberGen module options).toOption := by
  intro claim
  have same := (claim twoEntrySource { entryPoint := some "b" } twoEntryModule
    (congrArg Except.ok (if_pos (by decide)))).1
  exact absurd same (by decide)

end CoralReef.Compile
