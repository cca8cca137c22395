/-! The kinds of records an engine writes to its event log. -/

namespace TxHeap.Event

inductive Kind
  | header
  | transactionStart
  | transactionCommit
  | transactionAbort
  | becomeInevitable
  | contention
  | waitFreeSegment
  | waitSyncPause
  | waitOtherInevitable
  | waitDone
  | minorCollectStart
  | minorCollectDone
  | majorCollectStart
  | majorCollectDone
  | arenaResize
  | privateCopy
  | summary
deriving DecidableEq, Repr

namespace Kind

def name : Kind → String
  | header => "header"
  | transactionStart => "transaction_start"
  | transactionCommit => "transaction_commit"
  | transactionAbort => "transaction_abort"
  | becomeInevitable => "become_inevitable"
  | contention => "contention"
  | waitFreeSegment => "wait_free_segment"
  | waitSyncPause => "wait_sync_pause"
  | waitOtherInevitable => "wait_other_inevitable"
  | waitDone => "wait_done"
  | minorCollectStart => "minor_collect_start"
  | minorCollectDone => "minor_collect_done"
  | majorCollectStart => "major_collect_start"
  | majorCollectDone => "major_collect_done"
  | arenaResize => "arena_resize"
  | privateCopy => "private_copy"
  | summary => "summary"

def all : List Kind :=
  [header, transactionStart, transactionCommit, transactionAbort, becomeInevitable, contention,
    waitFreeSegment, waitSyncPause, waitOtherInevitable, waitDone, minorCollectStart,
    minorCollectDone, majorCollectStart, majorCollectDone, arenaResize, privateCopy, summary]

theorem mem_all (k : Kind) : k ∈ all := by
  cases k <;> simp [all]

end Kind

end TxHeap.Event
