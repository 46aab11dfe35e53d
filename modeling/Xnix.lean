import Xnix.Proofs.Derivation
import Xnix.Proofs.Duplicate
import Xnix.Proofs.Authority
import Xnix.Proofs.EndpointCount
import Xnix.Proofs.Rights
import Xnix.Proofs.Sync
import Xnix.Proofs.PipeRuns
import Xnix.Proofs.PipeWakeups
import Xnix.Proofs.EventBits
import Xnix.Proofs.Poll
import Xnix.Proofs.CallRuns
import Xnix.Proofs.WaitRuns
import Xnix.Proofs.Signals
import Xnix.Proofs.Ends
import Xnix.Proofs.Scheduler
import Xnix.Proofs.PagingRuns
import Xnix.Proofs.ElfResults
import Xnix.Proofs.IdAlloc
import Xnix.Proofs.HeapRuns
import Xnix.Proofs.RamFiles
import Xnix.Proofs.VfsPaths
import Xnix.Proofs.VfsMounts
import Xnix.Proofs.VfsErrors
import Xnix.Proofs.VfsDirs
import Xnix.Proofs.Ini
import Xnix.Proofs.SvcOrder
import Xnix.Proofs.SvcRestart
import Xnix.Proofs.Timeouts
import Xnix.Proofs.IrqUser
import Xnix.Proofs.Watches
import Xnix.Proofs.Terminal
import Xnix.Proofs.Mouse
import Xnix.Proofs.PageInit
