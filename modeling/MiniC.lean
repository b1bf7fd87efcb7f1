import MiniC.Wire
import MiniC.Main
import MiniC.Proofs.Snapshot.Programs
import MiniC.Proofs.Compilation.Convention
import MiniC.Proofs.Compilation.Shadowing
import MiniC.Proofs.Naming.Hygiene
import MiniC.Proofs.Emission.Truth
import MiniC.Proofs.Emission.Stores
import MiniC.Proofs.Source.Progress
import MiniC.Proofs.Lowering.Failures
import MiniC.Proofs.Lowering.Loops
import MiniC.Proofs.Storage.Failures
import MiniC.Proofs.Storage.Ranking
import MiniC.Proofs.Emission.Escapes
import MiniC.Proofs.Lowering.Confinement
import MiniC.Proofs.Emission.StackAccesses
import MiniC.Proofs.CommandLine.Outputs
import MiniC.Proofs.Source.Evaluation
