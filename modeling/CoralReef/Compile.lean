import CoralReef.Misc.ReadLine
import Mathlib.Algebra.GroupWithZero.Nat

/-!
# Compile entry points

`lib.rs`, `preamble.rs`, `frontend.rs`, `backend.rs` and `spirv.rs` of the compiler: from a source or a
parsed module to the code generator of the target. Texts are lists of characters where they are
searched. What naga does and what lies behind `translate_function`, `compile_shader` and
`PtxEmitter::emit` are parameters, and so are the texts of the preambles.
-/

namespace CoralReef.Compile

/-- `CompileError`. -/
inductive CompileError where
  | InvalidInput (message : String)
  | NotImplemented (message : String)
  | Validation (message : String)
  | RegisterAllocation (message : String)
  | Encoding (message : String)
  | UnsupportedArch (message : String)
  | Internal (message : String)
  deriving DecidableEq

/-! ## Targets -/

inductive NvArch where
  | Sm35 | Sm70 | Sm75 | Sm80 | Sm86 | Sm89 | Sm120
  deriving DecidableEq

inductive AmdArch where
  | Gcn5 | Rdna2 | Rdna3 | Rdna4
  deriving DecidableEq

inductive IntelArch where
  | XeHpg | Dg2Alchemist | Xe2Hpg | XeLpg
  deriving DecidableEq

inductive GpuTarget where
  | Nvidia (arch : NvArch)
  | Amd (arch : AmdArch)
  | Intel (arch : IntelArch)
  deriving DecidableEq

namespace NvArch

def sm : NvArch → Nat
  | Sm35 => 35
  | Sm70 => 70
  | Sm75 => 75
  | Sm80 => 80
  | Sm86 => 86
  | Sm89 => 89
  | Sm120 => 120

/-- `sm_version`: `sm() as u8`. -/
def smVersion (arch : NvArch) : Nat := arch.sm % 2 ^ 8

def maxWarpsPerSm : NvArch → Nat
  | Sm35 | Sm70 | Sm80 => 64
  | Sm75 => 32
  | Sm86 | Sm89 | Sm120 => 48

/-- `NvArch::parse`. -/
def parse (s : String) : Option NvArch :=
  if s = "sm_35" ∨ s = "sm35" then some Sm35
  else if s = "sm_70" ∨ s = "sm70" then some Sm70
  else if s = "sm_75" ∨ s = "sm75" then some Sm75
  else if s = "sm_80" ∨ s = "sm80" then some Sm80
  else if s = "sm_86" ∨ s = "sm86" then some Sm86
  else if s = "sm_89" ∨ s = "sm89" then some Sm89
  else if s = "sm_120" ∨ s = "sm120" then some Sm120
  else none

end NvArch

/-- `str::to_lowercase`, where only letters that become ASCII matter. -/
def lowercase (s : String) : String :=
  String.ofList (s.toList.map fun c => if c.toNat = 0x212A then 'k' else c.toLower)

namespace AmdArch

def gfxMajor : AmdArch → Nat
  | Gcn5 => 9
  | Rdna2 => 10
  | Rdna3 => 11
  | Rdna4 => 12

def defaultWaveSize : AmdArch → Nat
  | Gcn5 => 64
  | Rdna2 | Rdna3 | Rdna4 => 32

/-- `AmdArch::parse`. -/
def parse (s : String) : Option AmdArch :=
  let s := lowercase s
  if s ∈ ["gcn5", "vega", "vega20", "gfx900", "gfx906", "gfx908"] then some Gcn5
  else if s ∈ ["rdna2", "gfx1030", "gfx1031", "gfx1032"] then some Rdna2
  else if s ∈ ["rdna3", "gfx1100", "gfx1101", "gfx1102"] then some Rdna3
  else if s ∈ ["rdna4", "gfx1200"] then some Rdna4
  else none

end AmdArch

/-- `IntelArch::short_name`. -/
def IntelArch.shortName : IntelArch → String
  | XeHpg => "xe_hpg"
  | Dg2Alchemist => "dg2_alchemist"
  | Xe2Hpg => "xe2_hpg"
  | XeLpg => "xe_lpg"

/-- `as_nvidia`. -/
def GpuTarget.asNvidia : GpuTarget → Option NvArch
  | Nvidia arch => some arch
  | _ => none

/-- The shader models that `shader_model_for` builds. -/
inductive ShaderModel where
  | Info (sm warpsPerSm : Nat)
  | Rdna2 (gfxVersion waveSize : Nat)
  deriving DecidableEq

/-- `shader_model_for`. -/
def shaderModelFor : GpuTarget → Except CompileError ShaderModel
  | .Nvidia nv => .ok (.Info nv.smVersion (nv.maxWarpsPerSm % 2 ^ 8))
  | .Amd amd => .ok (.Rdna2 (amd.gfxMajor * 10 + 3) amd.defaultWaveSize)
  | .Intel intel => .error (.UnsupportedArch intel.shortName)

/-! ## Options -/

inductive FmaPolicy where
  | Fused
  | Separate
  | Auto
  | SkipDf64Functions (extraNames : List String)
  deriving DecidableEq

inductive Fp64Strategy where
  | Native | DoubleFloat | F32Only
  deriving DecidableEq

structure SpirVOptions where
  version : Nat × Nat := (1, 3)
  zeroInitWorkgroupMemory : Bool := true
  forceLoopBounding : Bool := false
  deriving DecidableEq

structure CompileOptions where
  target : GpuTarget := .Nvidia .Sm70
  optLevel : Nat := 2
  debugInfo : Bool := false
  fp64Strategy : Fp64Strategy := .Native
  fp64Software : Bool := true
  fmaPolicy : FmaPolicy := .Auto
  entryPoint : Option String := none
  validate : Bool := true
  spirv : Option SpirVOptions := none
  deriving DecidableEq

/-! ## Preambles -/

/-- The texts that `lib.rs` includes. -/
structure Preambles where
  complex64 : List Char
  prng : List Char
  su3 : List Char
  df64 : List Char
  f32Transcendental : List Char

/-- `str::contains`. -/
def contains (text : List Char) (marker : String) : Bool := decide (marker.toList <:+: text)

/-- `str::lines`. -/
def lines : List Char → List (List Char)
  | [] => []
  | '\n' :: rest => [] :: lines rest
  | '\r' :: '\n' :: rest => [] :: lines rest
  | c :: rest =>
    match lines rest with
    | [] => [[c]]
    | line :: more => (c :: line) :: more

/-- What a line starts with that is taken for a directive. -/
def isEnableDirective (line : List Char) : Bool :=
  ["enable f64", "enable f16", "enable subgroups"].any fun directive =>
    directive.toList.isPrefixOf (trim line)

/-- `strip_enable_directives`. -/
def stripEnableDirectives (source : List Char) : List Char :=
  ['\n'].intercalate ((lines source).filter fun line => !isEnableDirective line)

/-- `prepare_wgsl`. -/
def prepareWgsl (preambles : Preambles) (wgsl : List Char) (options : CompileOptions) : List Char :=
  let needsDf64 := options.fp64Strategy = .DoubleFloat || contains wgsl "Df64" || contains wgsl "df64_"
  let needsComplex64 := contains wgsl "Complex64" || contains wgsl "c64_"
  let needsF32Transcendental :=
    contains wgsl "power_f32" || contains wgsl "log_f32_safe" || contains wgsl "exp_f32_safe"
  let needsPrng := contains wgsl "xorshift32" || contains wgsl "wang_hash"
  let needsSu3 := contains wgsl "su3_"
  let hasEnable := contains wgsl "enable f64" || contains wgsl "enable f16" ||
    contains wgsl "enable subgroups"
  let needsComplex64 := needsComplex64 || needsSu3
  let needsPrng := needsPrng || needsSu3
  if !needsDf64 && !needsComplex64 && !needsF32Transcendental && !needsPrng && !needsSu3 &&
      !hasEnable then wgsl
  else
    let inject (needed : Bool) (present : String) (preamble : List Char) : List Char :=
      if needed && !contains wgsl present then preamble ++ ['\n'] else []
    let result :=
      inject needsComplex64 "struct Complex64" preambles.complex64 ++
      inject needsPrng "fn xorshift32" preambles.prng ++
      inject needsSu3 "fn su3_identity" preambles.su3 ++
      inject needsDf64 "struct Df64" preambles.df64 ++
      inject needsF32Transcendental "fn power_f32" preambles.f32Transcendental ++ wgsl
    if hasEnable then stripEnableDirectives result else result

/-! ## Modules -/

/-- `naga::ShaderStage`. -/
inductive ShaderStage where
  | Vertex | Task | Mesh | Fragment | Compute
  deriving DecidableEq

/-- The `Debug` form of a stage. -/
def ShaderStage.debug : ShaderStage → String
  | Vertex => "Vertex"
  | Task => "Task"
  | Mesh => "Mesh"
  | Fragment => "Fragment"
  | Compute => "Compute"

structure EntryPoint (F : Type) where
  name : String
  stage : ShaderStage
  workgroupSize : Nat × Nat × Nat
  function : F
  deriving DecidableEq

/-- A `naga::Module`: its entry points and all else. -/
structure Module (F M : Type) where
  entryPoints : List (EntryPoint F)
  rest : M

variable {F M I : Type}

/-- What naga does. Errors are their `Display` forms. -/
structure Naga (F M : Type) where
  /-- `naga::front::wgsl::parse_str` -/
  parseStr : List Char → Except String (Module F M)
  validate : Module F M → Except String Unit
  /-- `naga::back::spv::write_vec`, with whether debug information is asked for -/
  writeVec : SpirVOptions → Bool → Module F M → Except String (List Nat)

/-- `ShaderStageInfo`, of which compute shaders carry something that is read here. -/
inductive ShaderStageInfo where
  | Compute (localSize : Nat × Nat × Nat) (sharedMemSize : Nat)
  | Graphics

/-- The counts of `ShaderInfo` that a compilation sets. -/
structure ShaderCounts where
  gprCount : Nat := 0
  instrCount : Nat := 0
  controlBarrierCount : Nat := 0
  sharedLocalMemSize : Nat := 0

/-- A `Shader`, with the IR of its functions. -/
structure Shader (I : Type) where
  sm : ShaderModel
  stage : ShaderStageInfo
  functions : List I
  fmaPolicy : FmaPolicy

/-- `CompiledShader`, with the counts that the pipeline leaves in the shader. -/
structure CompiledShader where
  header : List Nat
  code : List Nat
  counts : ShaderCounts

/-- What the PTX emitter leaves: the text and its counters. -/
structure PtxOutput where
  ptx : List Nat
  r32Next : Nat
  rd64Next : Nat
  sharedMemBytes : Nat
  barrierCount : Nat

/-- What lies behind the entry points of the code generators. -/
structure CodeGen (F M I : Type) where
  /-- `NagaTranslator::translate_function` -/
  translateFunction : ShaderModel → Module F M → EntryPoint F → Except CompileError I
  /-- The sizes of the variables in workgroup memory. -/
  workgroupSizes : Module F M → List Nat
  /-- `compile_shader` -/
  compileShader : Shader I → Except CompileError CompiledShader
  /-- `PtxEmitter::emit` -/
  emit : Module F M → EntryPoint F → Nat → Except CompileError PtxOutput

inductive BinaryFormat where
  | Sass | Ptx
  deriving DecidableEq

structure CompilationInfo where
  gprCount : Nat
  instrCount : Nat
  sharedMemBytes : Nat
  barrierCount : Nat
  localSize : Nat × Nat × Nat
  localMemBytes : Nat
  deriving DecidableEq

/-- `CompiledBinary`, with its bytes as numbers. -/
structure CompiledBinary where
  binary : List Nat
  info : CompilationInfo
  format : BinaryFormat
  deriving DecidableEq

/-! ## Backends -/

/-- `u32::to_le_bytes`. -/
def toLeBytes (word : Nat) : List Nat :=
  [word % 2 ^ 8, word / 2 ^ 8 % 2 ^ 8, word / 2 ^ 16 % 2 ^ 8, word / 2 ^ 24 % 2 ^ 8]

inductive Backend where
  | Nvidia | Amd
  deriving DecidableEq

/-- `backend_for`. -/
def backendFor : GpuTarget → Except CompileError Backend
  | .Nvidia _ => .ok .Nvidia
  | .Amd _ => .ok .Amd
  | .Intel intel => .error (.UnsupportedArch intel.shortName)

/-- `compute_info`. -/
def computeInfo (stage : ShaderStageInfo) (counts : ShaderCounts) : Nat × Nat × (Nat × Nat × Nat) :=
  match stage with
  | .Compute localSize sharedMemSize => (sharedMemSize, counts.controlBarrierCount, localSize)
  | .Graphics => (0, counts.controlBarrierCount, (1, 1, 1))

namespace CodeGen

variable (gen : CodeGen F M I)

/-- `Backend::compile`. A compute shader has no header. -/
def compile (backend : Backend) (shader : Shader I) : Except CompileError CompiledBinary := do
  let compiled ← gen.compileShader shader
  let (sharedMemBytes, barrierCount, localSize) := computeInfo shader.stage compiled.counts
  let info (gprCount : Nat) : CompilationInfo := {
    gprCount, instrCount := compiled.counts.instrCount, sharedMemBytes, barrierCount, localSize,
    localMemBytes := compiled.counts.sharedLocalMemSize }
  match backend with
  | .Nvidia =>
    let header := match shader.stage with
      | .Compute _ _ => []
      | .Graphics => compiled.header
    return { binary := (header ++ compiled.code).flatMap toLeBytes
             info := info compiled.counts.gprCount
             format := .Sass }
  | .Amd =>
    return { binary := compiled.code.flatMap toLeBytes
             info := info (compiled.counts.gprCount + 2)
             format := .Sass }

/-- `compute_shared_mem_size`. -/
def computeSharedMemSize (module : Module F M) : Nat :=
  min (gen.workgroupSizes module).sum (2 ^ 16 - 1)

/-- `translate_compute`. -/
def translateCompute (sm : ShaderModel) (module : Module F M) (ep : EntryPoint F) :
    Except CompileError (Shader I) := do
  if ep.stage ≠ .Compute then
    throw (.InvalidInput s!"expected compute stage, got {ep.stage.debug}")
  let function ← gen.translateFunction sm module ep
  let (x, y, z) := ep.workgroupSize
  return {
    sm
    stage := .Compute (x % 2 ^ 16, y % 2 ^ 16, z % 2 ^ 16) (gen.computeSharedMemSize module)
    functions := [function]
    fmaPolicy := .Auto }

/-- `naga_translate::translate`. -/
def translate (module : Module F M) (sm : ShaderModel) (entryPointName : String) :
    Except CompileError (Shader I) :=
  match module.entryPoints.find? fun ep => ep.name = entryPointName with
  | none => .error (.InvalidInput s!"entry point '{entryPointName}' not found")
  | some ep => gen.translateCompute sm module ep

/-- What the PTX path does with an entry point. -/
def emitEntry (module : Module F M) (sm : Nat) (ep : EntryPoint F) :
    Except CompileError CompiledBinary := do
  let out ← gen.emit module ep sm
  return {
    binary := out.ptx
    info := {
      gprCount := max out.r32Next out.rd64Next
      instrCount := 0
      sharedMemBytes := out.sharedMemBytes
      barrierCount := out.barrierCount
      localSize := ep.workgroupSize
      localMemBytes := 0 }
    format := .Ptx }

/-- `emit_compute_ptx_module`. -/
def emitComputePtxModule (module : Module F M) (sm : Nat) (entryPointName : Option String) :
    Except CompileError CompiledBinary :=
  match entryPointName with
  | some name =>
    match module.entryPoints.find? fun ep => ep.name = name with
    | none => .error (.InvalidInput s!"entry point '{name}' not found in module")
    | some ep => gen.emitEntry module sm ep
  | none =>
    match module.entryPoints.find? fun ep => ep.stage = .Compute with
    | none => .error (.InvalidInput "no compute entry point")
    | some ep => gen.emitEntry module sm ep

/-- What the native paths do with a shader. -/
def finish (shader : Shader I) (options : CompileOptions) : Except CompileError CompiledBinary := do
  let shader := { shader with fmaPolicy := options.fmaPolicy }
  let backend ← backendFor options.target
  gen.compile backend shader

end CodeGen

/-! ## Entry points -/

section

variable (naga : Naga F M) (gen : CodeGen F M I) (preambles : Preambles)

/-- `parse_wgsl`. -/
def parseWgsl (source : List Char) : Except CompileError (Module F M) :=
  match naga.parseStr source with
  | .ok module => .ok module
  | .error e => .error (.InvalidInput s!"WGSL parse error: {e}")

/-- `translate_first_entry`. -/
def translateFirstEntry (module : Module F M) (sm : ShaderModel) : Except CompileError (Shader I) :=
  match module.entryPoints.head? with
  | none => .error (.InvalidInput "no entry points in module")
  | some ep => gen.translate module sm ep.name

/-- `NagaFrontend::compile_wgsl`. -/
def nagaFrontendCompileWgsl (source : List Char) (sm : ShaderModel) :
    Except CompileError (Shader I) := do
  let module ← parseWgsl naga source
  translateFirstEntry gen module sm

/-- `emit_compute_ptx`. -/
def emitComputePtx (wgslSource : List Char) (sm : Nat) : Except CompileError CompiledBinary := do
  let module ← parseWgsl naga wgslSource
  gen.emitComputePtxModule module sm none

/-- `compile_wgsl_full`. -/
def compileWgslFull (wgsl : List Char) (options : CompileOptions) :
    Except CompileError CompiledBinary := do
  if wgsl = [] then throw (.InvalidInput "empty WGSL source")
  let prepared := prepareWgsl preambles wgsl options
  let native : Except CompileError CompiledBinary := do
    let sm ← shaderModelFor options.target
    let shader ← nagaFrontendCompileWgsl naga gen prepared sm
    gen.finish shader options
  match options.target.asNvidia with
  | some nv => if 100 ≤ nv.sm then emitComputePtx naga gen prepared nv.smVersion else native
  | none => native

/-- `compile_naga_module_full`. -/
def compileNagaModuleFull (module : Module F M) (options : CompileOptions) :
    Except CompileError CompiledBinary := do
  let sm ← shaderModelFor options.target
  match module.entryPoints.head? with
  | none => throw (.InvalidInput "no entry points in module")
  | some ep =>
    let shader ← gen.translate module sm ep.name
    gen.finish shader options

/-- `validate_module`. -/
def validateModule (module : Module F M) : Except CompileError Unit :=
  match naga.validate module with
  | .ok _ => .ok ()
  | .error e => .error (.Validation e)

/-- The `Debug` form of a list of names. Names are identifiers. -/
def debugNames (names : List String) : String :=
  "[" ++ ", ".intercalate (names.map fun name => "\"" ++ name ++ "\"") ++ "]"

/-- `resolve_entry_point`. -/
def resolveEntryPoint (module : Module F M) (name : Option String) :
    Except CompileError (EntryPoint F) :=
  match name with
  | some requested =>
    match module.entryPoints.find? fun ep => ep.name = requested with
    | none =>
      let available := debugNames (module.entryPoints.map EntryPoint.name)
      .error (.InvalidInput s!"entry point '{requested}' not found; available: {available}")
    | some ep =>
      if ep.stage ≠ .Compute then
        .error (.InvalidInput s!"entry point '{ep.name}' is {ep.stage.debug}, not Compute — coralReef only compiles compute shaders")
      else .ok ep
  | none =>
    match module.entryPoints.find? fun ep => ep.stage = .Compute with
    | some ep => .ok ep
    | none =>
      let stages := debugNames (module.entryPoints.map fun ep => s!"{ep.name}({ep.stage.debug})")
      .error (.InvalidInput s!"no compute entry point found; module has: {stages}")

/-- `compile_module_full`. -/
def compileModuleFull (module : Module F M) (options : CompileOptions) :
    Except CompileError CompiledBinary := do
  if module.entryPoints = [] then throw (.InvalidInput "naga::Module has no entry points")
  if options.validate then validateModule naga module
  let ep ← resolveEntryPoint module options.entryPoint
  let native : Except CompileError CompiledBinary := do
    let sm ← shaderModelFor options.target
    let shader ← gen.translate module sm ep.name
    gen.finish shader options
  match options.target.asNvidia with
  | some nv =>
    if 100 ≤ nv.sm then gen.emitComputePtxModule module nv.smVersion (some ep.name) else native
  | none => native

/-- `parse_wgsl_to_naga`. -/
def parseWgslToNaga (wgsl : List Char) (options : CompileOptions) :
    Except CompileError (Module F M) :=
  match naga.parseStr (prepareWgsl preambles wgsl options) with
  | .ok module => .ok module
  | .error e => .error (.InvalidInput s!"WGSL parse: {e}")

/-- `module_to_spirv`. -/
def moduleToSpirv (module : Module F M) (options : CompileOptions) :
    Except CompileError (List Nat) := do
  validateModule naga module
  match naga.writeVec (options.spirv.getD {}) options.debugInfo module with
  | .ok words => return words.flatMap toLeBytes
  | .error e => throw (.Encoding s!"SPIR-V emit: {e}")

/-- `wgsl_to_spirv`. -/
def wgslToSpirv (wgsl : List Char) (options : CompileOptions) : Except CompileError (List Nat) := do
  if wgsl = [] then throw (.InvalidInput "empty WGSL source")
  let module ← parseWgslToNaga naga preambles wgsl options
  moduleToSpirv naga module options

end

end CoralReef.Compile
