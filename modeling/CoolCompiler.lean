import CoolCompiler.Main
import CoolCompiler.Proofs.Grammar.Concrete
import CoolCompiler.Proofs.Emit.Stack
import CoolCompiler.Proofs.Emit.Annotation
import CoolCompiler.Proofs.Value.Correctness
import CoolCompiler.Proofs.Emit.Manifest
import CoolCompiler.Proofs.Typing.Reordering
import CoolCompiler.Proofs.Machine.Dispatch
import CoolCompiler.Proofs.Machine.SelfType
import CoolCompiler.Proofs.Machine.InitOrder
import CoolCompiler.Proofs.Machine.Operations
import CoolCompiler.Proofs.Typing.Joins
import CoolCompiler.Proofs.Emit.Truncation
import CoolCompiler.Proofs.Emit.FrameUse
import CoolCompiler.Proofs.Emit.StaticObjects
import CoolCompiler.Proofs.Import.Body
import CoolCompiler.Proofs.Command.Inputs
import CoolCompiler.Proofs.ObjectModel.Places
import CoolCompiler.Proofs.Token.Positions
import CoolCompiler.Proofs.Emit.Numbering
import CoolCompiler.Proofs.Typing.Acyclic
import CoolCompiler.Proofs.Grammar.Recovery
