import Simpletron.Bench
import Simpletron.CommandLine
import Simpletron.Main
import Simpletron.Terminal.Fuse
import Simpletron.Terminal.Script
import Simpletron.Proofs.Execution
import Simpletron.Proofs.Reachable
import Simpletron.Proofs.Atomicity
import Simpletron.Proofs.Outcome
import Simpletron.Proofs.Faults
import Simpletron.Proofs.Ideal
import Simpletron.Proofs.Refinement
import Simpletron.Proofs.Interruption
import Simpletron.Proofs.Transcript
import Simpletron.Proofs.Scan
import Simpletron.Proofs.Entry
import Simpletron.Proofs.Influence
import Simpletron.Proofs.LifeCycle
import Simpletron.Proofs.Rerun
import Simpletron.Proofs.Rendering
import Simpletron.Proofs.Recovery
import Simpletron.Proofs.Shortage
import Simpletron.Proofs.ReadBack
import Simpletron.Proofs.Report
import Simpletron.Proofs.Sentinel
import Simpletron.Proofs.Supply
import Simpletron.Proofs.History
import Simpletron.Proofs.Handles
import Simpletron.Proofs.Progress
import Simpletron.Proofs.Loading
import Simpletron.Proofs.Asking
import Simpletron.Proofs.Decoding
import Simpletron.Proofs.Imaging
import Simpletron.Proofs.Writing
import Simpletron.Proofs.Agreement
import Simpletron.Proofs.Splitting
import Simpletron.Proofs.Interplay
