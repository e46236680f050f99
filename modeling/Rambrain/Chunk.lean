import Rambrain.Lib.Run

/-!
The managed chunk as the manager's use operations see it (`managedMemoryChunk.h`):
its status and its use counter.

`MemoryStatus` lists the values of the `memoryStatus` enumeration under the source's
names; `code` is the number behind each, because the source tests statuses with
bit masks (`status & MEM_ALLOCATED`) whose results depend on those numbers.
-/

namespace Rambrain

/-- `enum memoryStatus`. -/
inductive MemoryStatus where
  | root
  | allocatedInuseRead
  | allocatedInuseWrite
  | allocatedInuse
  | allocated
  | swapped
  | swapin
  | swapout
  deriving DecidableEq, Repr

namespace MemoryStatus

/-- The number the enumeration gives each status. -/
def code : MemoryStatus → Nat
  | root => 0
  | allocatedInuseRead => 4 + 1
  | allocatedInuseWrite => 4 + 2 + 1
  | allocatedInuse => 1
  | allocated => 4
  | swapped => 8
  | swapin => 16
  | swapout => 32

/-- `status & flag` used as a truth value. -/
def hasFlag (status flag : MemoryStatus) : Bool := status.code &&& flag.code != 0

theorem hasFlag_allocated (status : MemoryStatus) :
    status.hasFlag .allocated = true ↔
      status = .allocated ∨ status = .allocatedInuseRead ∨ status = .allocatedInuseWrite := by
  cases status <;> decide

/-- The mask `MEM_ALLOCATED_INUSE_READ` is `4 + 1`, so it also matches
`MEM_ALLOCATED` itself. -/
theorem hasFlag_inuseRead (status : MemoryStatus) :
    status.hasFlag .allocatedInuseRead = true ↔
      status = .allocated ∨ status = .allocatedInuse ∨ status = .allocatedInuseRead ∨
        status = .allocatedInuseWrite := by
  cases status <;> decide

end MemoryStatus

/-- The part of `managedMemoryChunk` that the use operations read and write. The
counter is an `unsigned short`. -/
structure ManagedMemoryChunk where
  status : MemoryStatus
  useCnt : UInt16
  deriving DecidableEq, Repr

/-- A chunk as `mmalloc` hands it out. -/
def ManagedMemoryChunk.fresh : ManagedMemoryChunk := ⟨.allocated, 0⟩

/-- `swapErrorCode`. -/
inductive SwapErrorCode where
  | success
  | swapFull
  | moreThanTotalRam
  | notEnoughCandidates
  deriving DecidableEq, Repr

/-- The text of the exception that `ensureEnoughSpace` throws for it. -/
def SwapErrorCode.couldNotSwap : SwapErrorCode → String
  | moreThanTotalRam =>
      "Could not swap memory: Object size requested is bigger than actual RAM limits"
  | notEnoughCandidates => "Could not swap memory: Too much used elements to make room"
  | swapFull => "Could not swap memory: Swap is unrecoverably full"
  | success => "Could not swap memory, I don't know why"

/-! ### What the swap does to a chunk -/

/-- The status changes the scheduler and the swap make on their own account. -/
inductive SwapEvent where
  /-- `managedFileSwap::swapIn` schedules the read. -/
  | swapIn
  /-- `completeTransactionOn` accounts for a swap-in or a swap-out. -/
  | complete
  /-- `managedFileSwap::swapOut` schedules the write of a new swap copy. -/
  | swapOut
  /-- `managedFileSwap::swapOut` on a chunk whose swap copy is still valid. -/
  | swapOutCached
  deriving DecidableEq, Repr

/-- The chunk after a swap event, `none` where the source does not take it: the
scheduler lists for eviction only chunks with `status == MEM_ALLOCATED` and
`useCnt == 0`, the swap loads only swapped chunks, and a transaction completes only
on a chunk in transit. -/
def SwapEvent.apply : SwapEvent → ManagedMemoryChunk → Option ManagedMemoryChunk
  | swapIn, c => if c.status = .swapped then some { c with status := .swapin } else none
  | complete, c =>
      match c.status with
      | .swapin =>
          some { c with status := if c.useCnt = 0 then .allocated else .allocatedInuseRead }
      | .swapout => some { c with status := .swapped }
      | _ => none
  | swapOut, c =>
      if c.status = .allocated ∧ c.useCnt = 0 then some { c with status := .swapout } else none
  | swapOutCached, c =>
      if c.status = .allocated ∧ c.useCnt = 0 then some { c with status := .swapped } else none

/-- What a swap event can do: the counter stays, the chunk was not in use, and the
status moves along the documented scheme. -/
theorem SwapEvent.apply_cases {e : SwapEvent} {c d : ManagedMemoryChunk}
    (taken : e.apply c = some d) :
    d.useCnt = c.useCnt ∧
      ((c.status = .swapped ∧ d.status = .swapin) ∨
        (c.status = .swapin ∧
          d.status = if c.useCnt = 0 then .allocated else .allocatedInuseRead) ∨
        (c.status = .swapout ∧ d.status = .swapped) ∨
        (c.status = .allocated ∧ c.useCnt = 0 ∧
          (d.status = .swapout ∨ d.status = .swapped))) := by
  cases e with
  | swapIn =>
      simp only [apply] at taken
      split at taken
      · rename_i atSwapped
        cases taken
        exact ⟨rfl, .inl ⟨atSwapped, rfl⟩⟩
      · cases taken
  | complete =>
      simp only [apply] at taken
      split at taken
      · rename_i atSwapin
        cases taken
        exact ⟨rfl, .inr (.inl ⟨atSwapin, rfl⟩)⟩
      · rename_i atSwapout
        cases taken
        exact ⟨rfl, .inr (.inr (.inl ⟨atSwapout, rfl⟩))⟩
      · cases taken
  | swapOut =>
      simp only [apply] at taken
      split at taken
      · rename_i idle
        cases taken
        exact ⟨rfl, .inr (.inr (.inr ⟨idle.1, idle.2, .inl rfl⟩))⟩
      · cases taken
  | swapOutCached =>
      simp only [apply] at taken
      split at taken
      · rename_i idle
        cases taken
        exact ⟨rfl, .inr (.inr (.inr ⟨idle.1, idle.2, .inr rfl⟩))⟩
      · cases taken

end Rambrain
