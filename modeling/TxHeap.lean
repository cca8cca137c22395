import TxHeap.Engine.Control
import TxHeap.Main
import TxHeap.Proofs.Event.Recording
import TxHeap.Proofs.Machine.Nesting
import TxHeap.Proofs.Machine.Callbacks
import TxHeap.Proofs.Machine.Deadlock
import TxHeap.Proofs.Machine.Exhaustion
import TxHeap.Proofs.Machine.Opacity
import TxHeap.Proofs.Machine.Pausing
import TxHeap.Proofs.Machine.Refusals
import TxHeap.Proofs.Machine.Rollback
import TxHeap.Proofs.Queue.History
import TxHeap.Scenario.Workers
import TxHeap.Proofs.Arena.Canonical
