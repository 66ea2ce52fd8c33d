import LoopNest.Watch
import LoopNest.Main
import LoopNest.Proofs.Graph.Holding
import LoopNest.Proofs.Graph.Layering
import LoopNest.Proofs.Node.Wire
import LoopNest.Proofs.Flow.Schedulability
import LoopNest.Proofs.Flow.Rearrangement
import LoopNest.Proofs.Flow.Compilation
import LoopNest.Proofs.Program.Conservation
import LoopNest.Proofs.Description.Survival
import LoopNest.Proofs.Flow.Leading
import LoopNest.Proofs.Program.Pending
import LoopNest.Proofs.Program.Admission
import LoopNest.Proofs.CommandLine.Listing
import LoopNest.Proofs.Graph.Searching
import LoopNest.Proofs.Flow.Extension
