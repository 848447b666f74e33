import CoralReef.Codegen.LowerParCopies.Proofs.Correct
import CoralReef.Codegen.AssignRegs.Proofs.PhiWebs
import CoralReef.Codegen.EntryLiveIn.Proofs.Correct
import CoralReef.Codegen.Liveness.Proofs.Exact
import CoralReef.Codegen.OptDce.Proofs.Closed
import CoralReef.Codegen.OptInstrSched.Prepass.Proofs.Correct
import CoralReef.Codegen.Amd.Proofs.Patch
import CoralReef.Codegen.Amd.Proofs.Vgprs
import CoralReef.Codegen.NagaTranslate.Proofs.Resources
import CoralReef.Codegen.OptJumpThread.Proofs.Correct
import CoralReef.Codegen.CalcInstrDeps.Proofs.Separated
import CoralReef.Codegen.OptLop.Proofs.Correct
import CoralReef.Codegen.OptPrmt.Proofs.Correct
import CoralReef.Ipc.Proofs.Lossless
import CoralReef.Ipc.Proofs.Interop
import CoralReef.Codegen.Nv.Proofs.ControlFlow
import CoralReef.Codegen.Nv.PtxEmit.Proofs.MathMatrix
import CoralReef.Codegen.Nv.PtxEmit.Proofs.SubgroupGather
import CoralReef.Ipc.Proofs.MethodGate
import CoralReef.Ipc.Proofs.Alike
import CoralReef.Codegen.NagaTranslate.Proofs.BuiltIns
import CoralReef.Codegen.NagaTranslate.Proofs.Casts
import CoralReef.Codegen.NagaTranslate.Proofs.MathRounding
import CoralReef.Bitview.Proofs.Subset
import CoralReef.Codegen.NagaTranslate.Proofs.Atomic
import CoralReef.Codegen.Ir.Proofs.GprLimit
import CoralReef.Stubs.Cfg.Loops
import CoralReef.Ipc.TransportEndpoint
import CoralReef.Compile.Proofs.Entry
import CoralReef.Codegen.Builder.Proofs.Compare
import CoralReef.Codegen.Builder.Proofs.Logic
import CoralReef.Stubs.BitSet.Proofs.Members
import CoralReef.Stubs.BitSet.Proofs.Range
import CoralReef.Stubs.Dataflow.Least
import CoralReef.Codegen.UnionFind.Proofs.Height
import CoralReef.Codegen.SpillValues.Chooser
import CoralReef.Codegen.Ir.Proofs.SsaRef
import CoralReef.Codegen.Ir.Proofs.Fold
import CoralReef.Ipc.B64Encode
