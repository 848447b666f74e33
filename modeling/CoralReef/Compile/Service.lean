import CoralReef.Compile

/-!
# The compile service

`service/compile.rs`: the answer to a request to compile a WGSL source. The time that a compilation
takes is left out of the answer.
-/

namespace CoralReef.Compile

variable {F M I : Type}

/-- `AdapterDescriptor`. -/
structure AdapterDescriptor where
  vendorId : Nat
  deviceName : String
  deriving DecidableEq

/-- `CompileWgslRequest`. Of the precision advice only the tier is read. -/
structure CompileWgslRequest where
  wgslSource : List Char
  arch : String := "sm70"
  optLevel : Nat
  fp64Software : Bool := false
  fp64Strategy : Option String := none
  fmaPolicy : Option String := none
  precisionAdvice : Option String := none
  adapter : Option AdapterDescriptor := none
  emitSpirv : Bool := false
  spirvVersion : Option (Nat × Nat) := none
  deriving DecidableEq

structure CompilationInfoResponse where
  gprCount : Nat
  instrCount : Nat
  sharedMemBytes : Nat
  barrierCount : Nat
  workgroupSize : Nat × Nat × Nat
  waveSize : Nat
  localMemory : Nat
  deriving DecidableEq

structure DispatchHints where
  hardwareHint : String
  binaryFormat : Option String
  executionModel : Option String
  deriving DecidableEq

structure CompileResponse where
  binary : List Nat
  size : Nat
  arch : Option String
  status : Option String
  info : Option CompilationInfoResponse
  dispatchHints : Option DispatchHints
  spirvBinary : Option (List Nat)
  deriving DecidableEq

/-! ## Options of a request -/

/-- `infer_arch_from_adapter`. -/
def inferArchFromAdapter (ad : AdapterDescriptor) : Option String :=
  let name := (lowercase ad.deviceName).toList
  let named (markers : List String) : Bool := markers.any fun marker => contains name marker
  if ad.vendorId = 0x10DE ∧ named ["5060", "5070", "5080", "5090", "blackwell", "gb2"] then
    some "sm_120"
  else if ad.vendorId = 0x10DE ∧ named ["4060", "4070", "4080", "4090", "ada", "l40"] then
    some "sm_89"
  else if ad.vendorId = 0x10DE ∧ named ["3060", "3070", "3080", "3090"] then some "sm_86"
  else if ad.vendorId = 0x10DE ∧ named ["a100", "a30", "a10"] then some "sm_80"
  else if ad.vendorId = 0x10DE ∧ named ["titan v", "v100", "gv100"] then some "sm_70"
  else if ad.vendorId = 0x1002 ∧ named ["7900", "gfx1100", "rdna3"] then some "rdna3"
  else if ad.vendorId = 0x1002 ∧ named ["6900", "6800", "rdna2"] then some "rdna2"
  else none

/-- `resolve_arch`. The default is `sm70`. -/
def resolveArch (arch : String) (adapter : Option AdapterDescriptor) : String :=
  if arch ≠ "sm70" then arch
  else match adapter with
    | none => arch
    | some ad => (inferArchFromAdapter ad).getD arch

/-- `parse_target`. -/
def parseTarget (s : String) : Except CompileError GpuTarget :=
  match NvArch.parse s with
  | some nv => .ok (.Nvidia nv)
  | none =>
    match AmdArch.parse s with
    | some amd => .ok (.Amd amd)
    | none => .error (.UnsupportedArch s)

/-- `parse_fma_policy`. -/
def parseFmaPolicy : Option String → FmaPolicy
  | some "fused" => .Fused
  | some "separate" | some "never_fuse" => .Separate
  | some "skip_df64_functions" | some "skip_df64" => .SkipDf64Functions []
  | _ => .Auto

/-- `build_options`. -/
def buildOptions (arch : String) (optLevel : Nat) (fp64Software : Bool) (fma : FmaPolicy) :
    Except CompileError CompileOptions := do
  let target ← parseTarget arch
  return { target, optLevel, debugInfo := false, fp64Software, fmaPolicy := fma }

/-- The options that a request asks for. -/
def CompileWgslRequest.options (req : CompileWgslRequest) : Except CompileError CompileOptions := do
  let fp64Sw := match req.fp64Strategy with
    | some strategy => strategy = "software"
    | none => req.fp64Software
  let options ← buildOptions (resolveArch req.arch req.adapter) req.optLevel fp64Sw
    (parseFmaPolicy req.fmaPolicy)
  return match req.spirvVersion with
    | some version => { options with spirv := some { version } }
    | none => options

/-! ## Answers -/

/-- `wave_size_for`. -/
def waveSizeFor : GpuTarget → Nat
  | .Amd amd => amd.defaultWaveSize
  | .Intel _ => 16
  | .Nvidia _ => 32

/-- `dispatch_hint_from_precision_advice`. -/
def dispatchHintFromPrecisionAdvice (tier : Option String) : String :=
  match tier with
  | none => "compute"
  | some tier =>
    if String.ofList (tier.toList.map Char.toLower) ∈
        ["f16", "bf16", "tf32", "fp8e4m3", "fp8e5m2", "fp8_e4m3", "fp8_e5m2"] then "tensor_core"
    else "compute"

/-- `binary_format_for`. -/
def binaryFormatFor : GpuTarget → String
  | .Nvidia _ => "ptx"
  | .Amd _ => "isa"
  | .Intel _ => "spirv"

/-- SPIR-V that could not be emitted is left out of the answer. -/
def emitted (bytes : Except CompileError (List Nat)) : Option (List Nat) :=
  match bytes with
  | .ok bytes => some bytes
  | .error _ => none

/-- `handle_compile_wgsl`. -/
def handleCompileWgsl (naga : Naga F M) (gen : CodeGen F M I) (preambles : Preambles)
    (req : CompileWgslRequest) : Except CompileError CompileResponse := do
  let options ← req.options
  let isPtxEmitter := options.target.asNvidia.any fun nv => 100 ≤ nv.sm
  let (compiled, spirv) ←
    if !isPtxEmitter && req.emitSpirv then do
      let module ← parseWgslToNaga naga preambles req.wgslSource options
      let compiled ← compileNagaModuleFull gen module options
      pure (compiled, emitted (moduleToSpirv naga module options))
    else do
      let compiled ← compileWgslFull naga gen preambles req.wgslSource options
      pure (compiled,
        if req.emitSpirv then emitted (wgslToSpirv naga preambles req.wgslSource options) else none)
  return {
    binary := compiled.binary
    size := compiled.binary.length
    arch := some (resolveArch req.arch req.adapter)
    status := some "success"
    info := some {
      gprCount := compiled.info.gprCount
      instrCount := compiled.info.instrCount
      sharedMemBytes := compiled.info.sharedMemBytes
      barrierCount := compiled.info.barrierCount
      workgroupSize := compiled.info.localSize
      waveSize := waveSizeFor options.target
      localMemory := compiled.info.localMemBytes }
    dispatchHints := some {
      hardwareHint := dispatchHintFromPrecisionAdvice req.precisionAdvice
      binaryFormat := some (binaryFormatFor options.target)
      executionModel := some "simt" }
    spirvBinary := spirv }

end CoralReef.Compile
