import Rambrain.Use
import Rambrain.Lib.LockFlow

/-!
Which mutexes the entry points of the memory manager hold when they are left.

Every function that takes or releases `stateChangeMutex` or `cyclicTopoLock`, waits on
the condition variable, or throws, is written as a lock flow: its `if`, `while` and
`switch` in the source's order, its calls, its throws. What it tests is a `Query` with a
free answer, since the tests read data that other threads and the kernel change; code
that takes no lock, calls nothing and throws nothing is left out. Loops run on fuel.

The exceptions leave at different depths. Some throws release the mutexes first
(`ensureEnoughSpace`, the empty ring in `swapOut`, the plain `swapIn`); the others do not,
and each of these leaves at least `stateChangeMutex` locked. `waitForCleanExit` polls
without the mutex that `checkForAIO` releases while it waits.
-/

namespace Rambrain.LockDiscipline

open Lib.LockFlow
open Lib.LockFlow.Prog (acquire release test when loop)

inductive Mutex where
  | stateChangeMutex
  | cyclicTopoLock
  deriving DecidableEq, Repr

/-- Who has called `checkForAIO`. -/
inductive Caller where
  /-- A thread that holds `stateChangeMutex`. -/
  | underMutex
  /-- `waitForCleanExit`. -/
  | cleanExit
  deriving DecidableEq, Repr

/-- What the modelled functions test. -/
inductive Query where
  -- `checkForAIO` and `asyncIoArrived`
  | aioWaiterLockTaken
  | nothingQueued
  | noneArrived (caller : Caller)
  | getEventsFailed
  | interrupted (caller : Caller)
  | eventsLeft
  | foundPending
  | transferComplete (caller : Caller)
  | lastPart
  -- `completeTransactionOn`
  | transactionIsSwapin
  | transactionIsSwapout (caller : Caller)
  -- status tests of the chunk at hand
  | statusIs (status : MemoryStatus)
  | statusHas (flags : MemoryStatus)
  | hasSwapBuf
  -- swap files
  | aioPending
  | aioLocked
  | partsLeft
  | chunksLeft
  | cachedElement
  | cleanedUpEnough
  | noFreeSpace
  | oneLocationFits
  | totalSpaceTooSmall
  | totalSpaceSuffices
  | sizeLeft
  | exceedsCurrentSize
  | ftruncateFailed
  | bufAllocated
  | exceedsSwapFree
  | filesLeft
  | fileOpened
  | retryWithoutDMA
  | policyIsFixed
  | policyIsAutoextendable
  | exceedsDiskSpace
  | extensionRefused
  | notAnInteger
  -- the scheduler
  | onlyElement
  | isActive
  | isBeforeActive
  | isAfterActive
  | noPreemptiveStart
  | nothingPassed
  | decayIncomplete
  | noCounterActive
  | exceedsMemoryMax
  | swapFreeTooSmall
  | noCandidates
  | nothingUnloaded
  | unloadedEnough
  | wantsDecay
  | loadsPreemptively
  | swapInIncomplete
  | arrivedNonetheless
  | swappedIn
  | preemptiveSwapOut
  | freesForPreemptives
  -- the manager
  | exceedsFree
  | exceedsFreeAndTobefreed
  | nothingTobefreed
  | outOfSwapIsFatal
  | sizeIsZero
  | mallocFailed
  | raisesLimit
  | belowUsed
  | noUnsets
  | tooManyUnsets
  | hasSwap
  | swapActionsQueued
  deriving DecidableEq, Repr

abbrev Flow := Prog Mutex Query MemoryException

/-- The answers that the code does not clean up after: the calls that fail where a mutex is
held, and the poll of `waitForCleanExit` that finds no event. -/
def leavesLocked : Query → Bool → Bool
  | .noneArrived caller, true => caller = .cleanExit
  | .interrupted caller, false => caller = .underMutex
  | .transferComplete caller, false => caller = .underMutex
  | .transactionIsSwapout caller, false => caller = .underMutex
  | .totalSpaceSuffices, false => true
  | .ftruncateFailed, true => true
  | .retryWithoutDMA, false => true
  | .decayIncomplete, true => true
  | .arrivedNonetheless, false => true
  | .mallocFailed, true => true
  | _, _ => false

/-! ### Waiting for the swap -/

/-- `pthread_cond_wait ( &swappingCond, &stateChangeMutex )`. -/
def condWait : Flow Unit := do
  release .stateChangeMutex
  acquire .stateChangeMutex

def lockIf (lock : Bool) : Flow Unit :=
  if lock then acquire .stateChangeMutex else pure ()

def unlockIf (lock : Bool) : Flow Unit :=
  if lock then release .stateChangeMutex else pure ()

def completeTransactionOn (caller : Caller) (lock : Bool) : Flow Unit := do
  if ← test .transactionIsSwapin then
    lockIf lock
    unlockIf lock
  else if ← test (.transactionIsSwapout caller) then
    lockIf lock
    unlockIf lock
  else .throw ⟨"AIO Synchronization broken!"⟩

def asyncIoArrived (caller : Caller) : Flow Unit := do
  if ← test (.transferComplete caller) then
    when .lastPart (completeTransactionOn caller false)
  else .throw ⟨"unknown aio error"⟩

/-- `checkForAIO` from `tryagain` to the events. -/
def getEvents (caller : Caller) : Nat → Flow Unit
  | 0 => .running
  | fuel + 1 => do
      when (.noneArrived caller) condWait
      if ← test .getEventsFailed then
        if ← test (.interrupted caller) then getEvents caller fuel
        else .throw ⟨"AIO Error"⟩
      else pure ()

def checkForAio (fuel : Nat) (caller : Caller) : Flow Bool := do
  if ← test .aioWaiterLockTaken then pure false
  else if ← test .nothingQueued then pure true
  else
    getEvents caller fuel
    loop fuel .eventsLeft (when .foundPending (asyncIoArrived caller))
    pure true

/-- Also the loop body in `pffree`. -/
def waitForAio (fuel : Nat) : Flow Unit := do
  let arrived ← checkForAio fuel .underMutex
  if arrived then pure () else condWait

def waitForSwapin (fuel : Nat) (keepSwapLock : Bool) : Flow Bool := do
  if ← test (.statusIs .swapout) then
    unlockIf (!keepSwapLock)
    pure false
  else if ← test (.statusIs .swapped) then
    unlockIf (!keepSwapLock)
    pure false
  else
    loop fuel (.statusIs .swapin) (waitForAio fuel)
    unlockIf (!keepSwapLock)
    test (.statusHas .allocated)

def waitForSwapout (fuel : Nat) (keepSwapLock : Bool) : Flow Bool := do
  if ← test (.statusIs .swapin) then
    unlockIf (!keepSwapLock)
    pure false
  else if ← test (.statusHas .allocated) then
    unlockIf (!keepSwapLock)
    pure false
  else
    loop fuel (.statusIs .swapout) (waitForAio fuel)
    unlockIf (!keepSwapLock)
    test (.statusIs .swapped)

/-! ### `managedFileSwap` -/

namespace FileSwap

/-- `pffree` of one location: the wait for its transfer. -/
def awaitLocation (fuel : Nat) : Flow Unit :=
  when .aioPending (loop fuel .aioLocked (waitForAio fuel))

def pffree (fuel : Nat) : Flow Unit := do
  awaitLocation fuel
  loop fuel .partsLeft (awaitLocation fuel)

def cleanupCachedElements (fuel : Nat) : Flow Bool := do
  loop fuel .chunksLeft (when .cachedElement (pffree fuel))
  test .cleanedUpEnough

def invalidateCacheFor (fuel : Nat) : Flow Unit :=
  when .hasSwapBuf (pffree fuel)

def swapDelete (fuel : Nat) : Flow Unit :=
  when .hasSwapBuf (pffree fuel)

/-- Whether a location was found. -/
def pfmalloc (fuel : Nat) : Flow Bool := do
  if ← test .noFreeSpace then pure false
  else if ← test .oneLocationFits then pure true
  else
    when .totalSpaceTooSmall (do let _ ← cleanupCachedElements fuel)
    if ← test .totalSpaceSuffices then
      if ← test .sizeLeft then
        pffree fuel
        pure false
      else pure true
    else .throw ⟨"Out of swap space"⟩

def scheduleCopy : Flow Unit :=
  when .exceedsCurrentSize do
    if ← test .ftruncateFailed then .throw ⟨"Could not resize swap file"⟩
    else pure ()

def copyMem (fuel : Nat) : Flow Unit := do
  scheduleCopy
  loop fuel .partsLeft scheduleCopy
  when .lastPart (completeTransactionOn .underMutex false)

/-- `swapIn` of one chunk. -/
def swapIn (fuel : Nat) : Flow Unit := do
  if ← test .hasSwapBuf then
    if ← test (.statusIs .swapin) then pure ()
    else if ← test .bufAllocated then
      if ← test (.statusHas .allocated) then pure () else copyMem fuel
    else pure ()
  else pure ()

/-- `swapIn` of a list. -/
def swapInList (fuel : Nat) : Flow Unit :=
  loop fuel .chunksLeft (swapIn fuel)

/-- `swapOut` of one chunk. -/
def swapOut (fuel : Nat) : Flow Unit := do
  if ← test .exceedsSwapFree then pure ()
  else if ← test (.statusIs .swapped) then pure ()
  else if ← test (.statusIs .swapout) then pure ()
  else if ← test .hasSwapBuf then pure ()
  else
    let newAlloced ← pfmalloc fuel
    if newAlloced then copyMem fuel else pure ()

/-- `swapOut` of a list. -/
def swapOutList (fuel : Nat) : Flow Unit :=
  loop fuel .chunksLeft (swapOut fuel)

def openSwapFileRange : Nat → Flow Bool
  | 0 => .running
  | fuel + 1 => do
      if ← test .filesLeft then
        if ← test .fileOpened then openSwapFileRange fuel
        else if ← test .retryWithoutDMA then pure false
        else .throw ⟨"Could not open swap file."⟩
      else pure true

def extendSwap (fuel : Nat) : Flow Bool := do
  if ← test .exceedsDiskSpace then pure false else openSwapFileRange fuel

def extendSwapByPolicy (fuel : Nat) : Flow Bool := do
  if ← test .policyIsFixed then pure false
  else if ← test .policyIsAutoextendable then
    if ← test .exceedsDiskSpace then pure false else extendSwap fuel
  else
    loop fuel .extensionRefused (loop fuel .notAnInteger (pure ()))
    extendSwap fuel

end FileSwap

/-! ### `cyclicManagedMemory` -/

namespace Cyclic

def schedulerRegister : Flow Unit := do
  acquire .cyclicTopoLock
  release .cyclicTopoLock

def schedulerDelete : Flow Unit := do
  acquire .cyclicTopoLock
  if ← test .onlyElement then release .cyclicTopoLock
  else release .cyclicTopoLock

def touch : Flow Unit := do
  acquire .cyclicTopoLock
  if ← test .isActive then release .cyclicTopoLock
  else if ← test .isBeforeActive then release .cyclicTopoLock
  else if ← test .isAfterActive then release .cyclicTopoLock
  else release .cyclicTopoLock

def decay (fuel : Nat) : Flow Unit := do
  if ← test .noPreemptiveStart then pure ()
  else if ← test .nothingPassed then pure ()
  else
    FileSwap.swapOutList fuel
    if ← test .decayIncomplete then
      .throw ⟨"Could not swap out bytes even though swap claimed to be able to swap out this."⟩
    else
      acquire .cyclicTopoLock
      release .cyclicTopoLock

/-- `swapOut` while it looks for free swap; `false` is `ERR_SWAPFULL`. -/
def freeSwap (fuel : Nat) : Flow Bool := do
  if ← test .swapFreeTooSmall then
    let _ ← FileSwap.cleanupCachedElements fuel
    if ← test .swapFreeTooSmall then FileSwap.extendSwapByPolicy fuel else pure true
  else pure true

/-- `swapOut` from its first round on. -/
def unload (fuel : Nat) : Flow SwapErrorCode := do
  if ← test .noCandidates then
    release .cyclicTopoLock
    pure .notEnoughCandidates
  else
    FileSwap.swapOutList fuel
    if ← test .nothingUnloaded then
      release .cyclicTopoLock
      pure .notEnoughCandidates
    else
      release .cyclicTopoLock
      if ← test .unloadedEnough then pure .success else pure .notEnoughCandidates

def swapOut (fuel : Nat) : Flow SwapErrorCode := do
  acquire .cyclicTopoLock
  if ← test .noCounterActive then
    release .stateChangeMutex
    release .cyclicTopoLock
    .throw ⟨"I can't swap out anything if there's nothing to swap out."⟩
  else if ← test .exceedsMemoryMax then
    release .cyclicTopoLock
    pure .moreThanTotalRam
  else
    let found ← freeSwap fuel
    if found then unload fuel
    else
      release .cyclicTopoLock
      pure .swapFull

end Cyclic

/-! ### `managedMemory` -/

/-- `orisSwappedin && ( … & MEM_ALLOCATED || … == MEM_SWAPIN )`. -/
def alreadyThere (orisSwappedin : Bool) : Flow Bool := do
  if orisSwappedin then
    if ← test (.statusHas .allocated) then pure true else test (.statusIs .swapin)
  else pure false

/-- The swap out in `ensureEnoughSpace`; `true` is its `continue`. -/
def makeRoom (fuel : Nat) (cacheCleaned : Bool) : Flow Bool := do
  if ← test .exceedsFreeAndTobefreed then
    let err ← Cyclic.swapOut fuel
    if err = .success then pure false
    else if ← test .nothingTobefreed then
      if cacheCleaned then
        if ← test .outOfSwapIsFatal then
          release .stateChangeMutex
          .throw ⟨err.couldNotSwap⟩
        else
          let _ ← FileSwap.cleanupCachedElements fuel
          pure false
      else
        let _ ← FileSwap.cleanupCachedElements fuel
        pure true
    else pure false
  else pure false

def ensureEnoughSpace (orisSwappedin cacheCleaned : Bool) : Nat → Flow Bool
  | 0 => .running
  | fuel + 1 => do
      if ← test .exceedsFree then
        let there ← alreadyThere orisSwappedin
        if there then pure true
        else
          let cleaned ← makeRoom fuel cacheCleaned
          if cleaned then ensureEnoughSpace orisSwappedin true fuel
          else
            when .exceedsFree (waitForAio fuel)
            ensureEnoughSpace orisSwappedin cacheCleaned fuel
      else alreadyThere orisSwappedin

namespace Cyclic

/-- The preemptive `swapIn` while it makes room; `true` when the chunk is already there. -/
def preemptiveRoom (fuel : Nat) : Flow Bool := do
  if ← test .exceedsMemoryMax then
    let err ← swapOut fuel
    if err = .success then ensureEnoughSpace true false fuel
    else
      let there ← ensureEnoughSpace true false fuel
      if there then pure true else ensureEnoughSpace true false fuel
  else pure false

/-- The preemptive `swapIn` once the ring is reordered. -/
def finishSwapIn : Flow Bool := do
  release .cyclicTopoLock
  touch
  pure true

def preemptiveSwapIn (fuel : Nat) : Flow Bool := do
  let there ← preemptiveRoom fuel
  if there then
    let _ ← waitForSwapin fuel true
    pure true
  else
    acquire .cyclicTopoLock
    FileSwap.swapInList fuel
    if ← test .swapInIncomplete then
      if ← test .arrivedNonetheless then finishSwapIn
      else .throw ⟨"managedSwap failed to swap in :-("⟩
    else finishSwapIn

def plainSwapIn (fuel : Nat) : Flow Bool := do
  let there ← ensureEnoughSpace true false fuel
  if there then pure true
  else
    FileSwap.swapIn fuel
    if ← test .swappedIn then
      touch
      acquire .cyclicTopoLock
      release .cyclicTopoLock
      pure true
    else
      release .stateChangeMutex
      .throw ⟨"Could not swap in an element."⟩

def swapIn (fuel : Nat) : Flow Bool := do
  let there ← alreadyThere true
  if there then pure true
  else
    when .wantsDecay (decay fuel)
    if ← test .loadsPreemptively then preemptiveSwapIn fuel else plainSwapIn fuel

def untouch (fuel : Nat) : Flow Unit :=
  when .preemptiveSwapOut (when .freesForPreemptives (do let _ ← swapOut fuel))

end Cyclic

def mmalloc (fuel : Nat) : Flow Unit := do
  acquire .stateChangeMutex
  let _ ← ensureEnoughSpace false false fuel
  Cyclic.schedulerRegister
  Cyclic.touch
  if ← test .sizeIsZero then release .stateChangeMutex
  -- the unlock after the throw is never reached
  else if ← test .mallocFailed then .throw ⟨"Malloc failed"⟩
  else release .stateChangeMutex

/-- `prepareUse` under the mutex. -/
def prepareUseSection (fuel : Nat) (acquireLock : Bool) : Flow Bool := do
  if ← test (.statusIs .swapout) then
    let swapped ← waitForSwapout fuel true
    if swapped then
      let done ← Cyclic.swapIn fuel
      unlockIf acquireLock
      pure done
    else
      unlockIf acquireLock
      pure true
  else if ← test (.statusIs .swapped) then
    let done ← Cyclic.swapIn fuel
    unlockIf acquireLock
    pure done
  else
    unlockIf acquireLock
    pure true

def prepareUse (fuel : Nat) (acquireLock : Bool) : Flow Bool := do
  lockIf acquireLock
  prepareUseSection fuel acquireLock

/-- `setUse` from its last `case` on. -/
def finishUse : Flow Bool := do
  Cyclic.touch
  release .stateChangeMutex
  pure true

/-- `setUse` from `case MEM_ALLOCATED` on. -/
def useAllocated (fuel : Nat) (writeAccess : Bool) : Flow Bool := do
  if writeAccess then
    FileSwap.invalidateCacheFor fuel
    finishUse
  else finishUse

/-- `setUse` from `case MEM_SWAPIN` on. -/
def useSwapin (fuel : Nat) (writeAccess : Bool) : Flow Bool := do
  let there ← waitForSwapin fuel true
  if there then useAllocated fuel writeAccess
  else if ← test (.statusHas .allocated) then useAllocated fuel writeAccess
  else
    release .stateChangeMutex
    pure false

/-- `setUse` from `case MEM_SWAPPED` on. -/
def useSwapped (fuel : Nat) (writeAccess : Bool) : Flow Bool := do
  let prepared ← prepareUse fuel false
  if prepared then useSwapin fuel writeAccess
  else
    release .stateChangeMutex
    pure false

def setUse (fuel : Nat) (writeAccess : Bool) : Flow Bool := do
  acquire .stateChangeMutex
  if ← test (.statusIs .swapout) then useSwapped fuel writeAccess
  else if ← test (.statusIs .swapped) then useSwapped fuel writeAccess
  else if ← test (.statusIs .swapin) then useSwapin fuel writeAccess
  else if ← test (.statusIs .root) then
    release .stateChangeMutex
    pure false
  else if ← test (.statusIs .allocatedInuseWrite) then finishUse
  else useAllocated fuel writeAccess

def unsetUse (fuel : Nat) : Flow Bool := do
  acquire .stateChangeMutex
  if ← test .noUnsets then
    release .stateChangeMutex
    .throw ⟨"Cannot unset zero uses"⟩
  else if ← test .tooManyUnsets then
    release .stateChangeMutex
    .throw ⟨"Can not unset use of not used memory"⟩
  else
    Cyclic.untouch fuel
    release .stateChangeMutex
    pure true

def setMemoryLimit (fuel : Nat) : Flow Bool := do
  acquire .stateChangeMutex
  if ← test .raisesLimit then
    release .stateChangeMutex
    pure true
  else if ← test .belowUsed then
    let err ← Cyclic.swapOut fuel
    if err = .success then
      let _ ← Cyclic.swapOut fuel
      release .stateChangeMutex
      pure true
    else
      release .stateChangeMutex
      pure false
  else
    release .stateChangeMutex
    pure true

def mfree (fuel : Nat) (inCleanup : Bool) : Flow Unit := do
  acquire .stateChangeMutex
  if ← test (.statusHas .allocatedInuse) then
    release .stateChangeMutex
    .throw ⟨"Can not free memory which is in use"⟩
  else
    if inCleanup then pure () else Cyclic.schedulerDelete
    when .hasSwapBuf (FileSwap.swapDelete fuel)
    release .stateChangeMutex

def linearMfree (fuel : Nat) : Flow Unit :=
  loop fuel .chunksLeft (mfree fuel true)

def waitForCleanExit (fuel : Nat) : Flow Unit :=
  loop fuel .swapActionsQueued (do let _ ← checkForAio fuel .cleanExit)

/-- `~managedMemory`. -/
def destructor (fuel : Nat) : Flow Unit := do
  when .hasSwap (waitForCleanExit fuel)
  linearMfree fuel

/-- The calls that are made with both mutexes free. -/
inductive EntryPoint where
  | mmalloc
  | mfree (inCleanup : Bool)
  | setUse (writeAccess : Bool)
  | unsetUse
  /-- `prepareUse` with `acquireLock`. -/
  | prepareUse
  | setMemoryLimit
  | destructor
  deriving DecidableEq, Repr

def EntryPoint.flow (fuel : Nat) : EntryPoint → Flow Unit
  | .mmalloc => LockDiscipline.mmalloc fuel
  | .mfree inCleanup => LockDiscipline.mfree fuel inCleanup
  | .setUse writeAccess => do let _ ← LockDiscipline.setUse fuel writeAccess
  | .unsetUse => do let _ ← LockDiscipline.unsetUse fuel
  | .prepareUse => do let _ ← LockDiscipline.prepareUse fuel true
  | .setMemoryLimit => do let _ ← LockDiscipline.setMemoryLimit fuel
  | .destructor => LockDiscipline.destructor fuel

/-! ### The mutexes held -/

abbrev locked : Finset Mutex := {.stateChangeMutex}

abbrev both : Finset Mutex := {.cyclicTopoLock, .stateChangeMutex}

section
variable {bad : Query → Bool → Bool}

theorem lockState : Behaves bad ∅ (acquire .stateChangeMutex : Flow Unit) locked :=
  .acquire (Finset.notMem_empty _)

theorem unlockState : Behaves bad locked (release .stateChangeMutex : Flow Unit) ∅ :=
  .release (Finset.mem_singleton_self _)

theorem lockTopo : Behaves bad locked (acquire .cyclicTopoLock : Flow Unit) both :=
  .acquire (by decide)

theorem unlockTopo : Behaves bad both (release .cyclicTopoLock : Flow Unit) locked :=
  .release (Finset.mem_insert_self _ _)

theorem unlockStateFirst :
    Behaves bad both (release .stateChangeMutex : Flow Unit) {.cyclicTopoLock} :=
  .release (by decide)

theorem unlockTopoLast :
    Behaves bad {.cyclicTopoLock} (release .cyclicTopoLock : Flow Unit) ∅ :=
  .release (Finset.mem_singleton_self _)

end

/-- The mutexes a caller of `checkForAIO` holds. -/
def Caller.Holds (H : Finset Mutex) : Caller → Prop
  | .underMutex => .stateChangeMutex ∈ H
  | .cleanExit => H = ∅

theorem Caller.Holds.under {H : Finset Mutex} (held : .stateChangeMutex ∈ H) :
    Caller.underMutex.Holds H := held

theorem Caller.Holds.isUnder {H : Finset Mutex} {caller : Caller} (holds : caller.Holds H) :
    decide (caller = .underMutex) = decide (H ≠ ∅) := by
  cases caller with
  | underMutex => exact (decide_eq_true (Finset.ne_empty_of_mem holds)).symm
  | cleanExit =>
      have free : H = ∅ := holds
      rw [free]
      rfl

/-! ### Every function behaves -/

/-- The wait gives the mutex back. -/
theorem behaves_condWait {bad : Query → Bool → Bool} {H : Finset Mutex}
    (held : .stateChangeMutex ∈ H) : Behaves bad H condWait H := by
  have again : Behaves bad (H.erase .stateChangeMutex)
      (acquire .stateChangeMutex : Flow Unit) H := by
    have taken : Behaves bad (H.erase .stateChangeMutex)
        (acquire .stateChangeMutex : Flow Unit) (insert .stateChangeMutex (H.erase _)) :=
      .acquire (Finset.notMem_erase Mutex.stateChangeMutex H)
    rwa [Finset.insert_erase held] at taken
  exact (Behaves.release held).bind fun _ => again

section Waiting
variable {H : Finset Mutex} {caller : Caller}

theorem behaves_completeTransactionOn (holds : caller.Holds H) :
    Behaves leavesLocked H (completeTransactionOn caller false) H := by
  refine .ask (fun _ => rfl) ?_ ?_
  · exact (Behaves.pure H ()).bind fun _ => .pure H ()
  · refine .throwUnless holds.isUnder rfl ?_
    exact (Behaves.pure H ()).bind fun _ => .pure H ()

theorem behaves_asyncIoArrived (holds : caller.Holds H) :
    Behaves leavesLocked H (asyncIoArrived caller) H := by
  refine .throwUnless holds.isUnder rfl ?_
  exact .when (fun _ => rfl) (behaves_completeTransactionOn holds)

/-- The wait inside `checkForAIO`; without the mutex it is a misuse. -/
theorem behaves_noneArrived (holds : caller.Holds H) :
    Behaves leavesLocked H (when (.noneArrived caller) condWait) H := by
  cases caller with
  | underMutex => exact .when (fun b => by cases b <;> rfl) (behaves_condWait holds)
  | cleanExit =>
      have free : H = ∅ := holds
      subst free
      refine .test fun b => ?_
      cases b with
      | true => exact rfl
      | false => exact Behaves.pure ∅ ()

theorem behaves_getEvents (holds : caller.Holds H) :
    ∀ fuel, Behaves leavesLocked H (getEvents caller fuel) H
  | 0 => trivial
  | fuel + 1 => by
      refine (behaves_noneArrived holds).bind fun _ => ?_
      refine .ask (fun _ => rfl) ?_ (.pure H ())
      exact .throwUnless holds.isUnder rfl (behaves_getEvents holds fuel)

theorem behaves_checkForAio (holds : caller.Holds H) (fuel : Nat) :
    Behaves leavesLocked H (checkForAio fuel caller) H := by
  refine .ask (fun _ => rfl) (.pure H false) ?_
  refine .ask (fun _ => rfl) (.pure H true) ?_
  refine (behaves_getEvents holds fuel).bind fun _ => ?_
  refine (Behaves.loop (fun _ => rfl) ?_ fuel).bind fun _ => .pure H true
  exact .when (fun _ => rfl) (behaves_asyncIoArrived holds)

end Waiting

section Swapping
variable {H : Finset Mutex} (held : Mutex.stateChangeMutex ∈ H) (fuel : Nat)
include held

theorem behaves_waitForAio : Behaves leavesLocked H (waitForAio fuel) H := by
  refine (behaves_checkForAio (.under held) fuel).bind fun arrived => ?_
  cases arrived with
  | true => exact .pure H ()
  | false => exact behaves_condWait held

theorem behaves_waitForSwapin : Behaves leavesLocked H (waitForSwapin fuel true) H := by
  refine .ask (fun _ => rfl) ((Behaves.pure H ()).bind fun _ => .pure H false) ?_
  refine .ask (fun _ => rfl) ((Behaves.pure H ()).bind fun _ => .pure H false) ?_
  refine (Behaves.loop (fun _ => rfl) (behaves_waitForAio held fuel) fuel).bind fun _ => ?_
  exact (Behaves.pure H ()).bind fun _ => .answer fun _ => rfl

theorem behaves_waitForSwapout : Behaves leavesLocked H (waitForSwapout fuel true) H := by
  refine .ask (fun _ => rfl) ((Behaves.pure H ()).bind fun _ => .pure H false) ?_
  refine .ask (fun _ => rfl) ((Behaves.pure H ()).bind fun _ => .pure H false) ?_
  refine (Behaves.loop (fun _ => rfl) (behaves_waitForAio held fuel) fuel).bind fun _ => ?_
  exact (Behaves.pure H ()).bind fun _ => .answer fun _ => rfl

namespace FileSwap

theorem behaves_awaitLocation : Behaves leavesLocked H (awaitLocation fuel) H :=
  .when (fun _ => rfl) (.loop (fun _ => rfl) (behaves_waitForAio held fuel) fuel)

theorem behaves_pffree : Behaves leavesLocked H (pffree fuel) H := by
  refine (behaves_awaitLocation held fuel).bind fun _ => ?_
  exact .loop (fun _ => rfl) (behaves_awaitLocation held fuel) fuel

theorem behaves_cleanupCachedElements :
    Behaves leavesLocked H (cleanupCachedElements fuel) H := by
  have element : Behaves leavesLocked H (when .cachedElement (pffree fuel)) H :=
    .when (fun _ => rfl) (behaves_pffree held fuel)
  exact (Behaves.loop (fun _ => rfl) element fuel).bind fun _ => .answer fun _ => rfl

theorem behaves_invalidateCacheFor : Behaves leavesLocked H (invalidateCacheFor fuel) H :=
  .when (fun _ => rfl) (behaves_pffree held fuel)

theorem behaves_swapDelete : Behaves leavesLocked H (swapDelete fuel) H :=
  .when (fun _ => rfl) (behaves_pffree held fuel)

theorem throws_held : true = decide (H ≠ ∅) :=
  (decide_eq_true (Finset.ne_empty_of_mem held)).symm

theorem behaves_pfmalloc : Behaves leavesLocked H (pfmalloc fuel) H := by
  refine .ask (fun _ => rfl) (.pure H false) ?_
  refine .ask (fun _ => rfl) (.pure H true) ?_
  have cleanup : Behaves leavesLocked H
      (when .totalSpaceTooSmall (do let _ ← cleanupCachedElements fuel)) H :=
    .when (fun _ => rfl) ((behaves_cleanupCachedElements held fuel).bind fun _ => .pure H ())
  refine cleanup.bind fun _ => .throwUnless (throws_held held) rfl ?_
  refine .ask (fun _ => rfl) ?_ (.pure H true)
  exact (behaves_pffree held fuel).bind fun _ => .pure H false

omit fuel in
theorem behaves_scheduleCopy : Behaves leavesLocked H scheduleCopy H :=
  .when (fun _ => rfl) (.throwIf (throws_held held) rfl (.pure H ()))

theorem behaves_copyMem : Behaves leavesLocked H (copyMem fuel) H := by
  refine (behaves_scheduleCopy held).bind fun _ => ?_
  refine (Behaves.loop (fun _ => rfl) (behaves_scheduleCopy held) fuel).bind fun _ => ?_
  exact .when (fun _ => rfl) (behaves_completeTransactionOn (.under held))

theorem behaves_swapIn : Behaves leavesLocked H (swapIn fuel) H := by
  refine .ask (fun _ => rfl) ?_ (.pure H ())
  refine .ask (fun _ => rfl) (.pure H ()) ?_
  refine .ask (fun _ => rfl) ?_ (.pure H ())
  exact .ask (fun _ => rfl) (.pure H ()) (behaves_copyMem held fuel)

theorem behaves_swapInList : Behaves leavesLocked H (swapInList fuel) H :=
  .loop (fun _ => rfl) (behaves_swapIn held fuel) fuel

theorem behaves_swapOut : Behaves leavesLocked H (swapOut fuel) H := by
  refine .ask (fun _ => rfl) (.pure H ()) ?_
  refine .ask (fun _ => rfl) (.pure H ()) ?_
  refine .ask (fun _ => rfl) (.pure H ()) ?_
  refine .ask (fun _ => rfl) (.pure H ()) ?_
  refine (behaves_pfmalloc held fuel).bind fun newAlloced => ?_
  cases newAlloced with
  | true => exact behaves_copyMem held fuel
  | false => exact .pure H ()

theorem behaves_swapOutList : Behaves leavesLocked H (swapOutList fuel) H :=
  .loop (fun _ => rfl) (behaves_swapOut held fuel) fuel

omit fuel in
theorem behaves_openSwapFileRange :
    ∀ fuel, Behaves leavesLocked H (openSwapFileRange fuel) H
  | 0 => trivial
  | fuel + 1 => by
      refine .ask (fun _ => rfl) ?_ (.pure H true)
      refine .ask (fun _ => rfl) (behaves_openSwapFileRange fuel) ?_
      exact .throwUnless (throws_held held) rfl (.pure H false)

theorem behaves_extendSwap : Behaves leavesLocked H (extendSwap fuel) H :=
  .ask (fun _ => rfl) (.pure H false) (behaves_openSwapFileRange held fuel)

theorem behaves_extendSwapByPolicy : Behaves leavesLocked H (extendSwapByPolicy fuel) H := by
  refine .ask (fun _ => rfl) (.pure H false) ?_
  refine .ask (fun _ => rfl) ?_ ?_
  · exact .ask (fun _ => rfl) (.pure H false) (behaves_extendSwap held fuel)
  · have reading : Behaves leavesLocked H (loop fuel .notAnInteger (pure ()) : Flow Unit) H :=
      .loop (fun _ => rfl) (.pure H ()) fuel
    refine (Behaves.loop (fun _ => rfl) reading fuel).bind fun _ => ?_
    exact behaves_extendSwap held fuel

end FileSwap

end Swapping

theorem mem_locked : Mutex.stateChangeMutex ∈ locked := Finset.mem_singleton_self _

theorem mem_both : Mutex.stateChangeMutex ∈ both := by decide

namespace Cyclic

theorem behaves_schedulerRegister :
    Behaves leavesLocked locked schedulerRegister locked :=
  lockTopo.bind fun _ => unlockTopo

theorem behaves_schedulerDelete : Behaves leavesLocked locked schedulerDelete locked :=
  lockTopo.bind fun _ => .ask (fun _ => rfl) unlockTopo unlockTopo

theorem behaves_touch : Behaves leavesLocked locked touch locked := by
  refine lockTopo.bind fun _ => ?_
  refine .ask (fun _ => rfl) unlockTopo ?_
  refine .ask (fun _ => rfl) unlockTopo ?_
  exact .ask (fun _ => rfl) unlockTopo unlockTopo

variable (fuel : Nat)

theorem behaves_decay : Behaves leavesLocked locked (decay fuel) locked := by
  refine .ask (fun _ => rfl) (.pure locked ()) ?_
  refine .ask (fun _ => rfl) (.pure locked ()) ?_
  refine (FileSwap.behaves_swapOutList mem_locked fuel).bind fun _ => ?_
  refine .throwIf rfl rfl ?_
  exact lockTopo.bind fun _ => unlockTopo

theorem behaves_freeSwap : Behaves leavesLocked both (freeSwap fuel) both := by
  refine .ask (fun _ => rfl) ?_ (.pure both true)
  refine (FileSwap.behaves_cleanupCachedElements mem_both fuel).bind fun _ => ?_
  exact .ask (fun _ => rfl) (FileSwap.behaves_extendSwapByPolicy mem_both fuel) (.pure both true)

theorem behaves_unload : Behaves leavesLocked both (unload fuel) locked := by
  have noneUnloaded : Behaves leavesLocked both
      (do release .cyclicTopoLock; pure .notEnoughCandidates : Flow SwapErrorCode) locked :=
    unlockTopo.bind fun _ => .pure locked _
  refine .ask (fun _ => rfl) noneUnloaded ?_
  refine (FileSwap.behaves_swapOutList mem_both fuel).bind fun _ => ?_
  refine .ask (fun _ => rfl) noneUnloaded ?_
  refine unlockTopo.bind fun _ => ?_
  exact .ask (fun _ => rfl) (.pure locked _) (.pure locked _)

/-- Under the empty ring's throw both mutexes are already free. -/
theorem behaves_swapOut : Behaves leavesLocked locked (swapOut fuel) locked := by
  refine lockTopo.bind fun _ => ?_
  refine .ask (fun _ => rfl) ?_ ?_
  · refine unlockStateFirst.bind fun _ => ?_
    exact unlockTopoLast.bind fun _ => .throw _
  refine .ask (fun _ => rfl) (unlockTopo.bind fun _ => .pure locked _) ?_
  refine (behaves_freeSwap fuel).bind fun found => ?_
  cases found with
  | true => exact behaves_unload fuel
  | false => exact unlockTopo.bind fun _ => .pure locked _

end Cyclic

section Making
variable (fuel : Nat)

theorem behaves_alreadyThere (orisSwappedin : Bool) :
    Behaves leavesLocked locked (alreadyThere orisSwappedin) locked := by
  cases orisSwappedin with
  | true => exact .ask (fun _ => rfl) (.pure locked true) (.answer fun _ => rfl)
  | false => exact .pure locked false

/-- The throw comes after `stateChangeMutex` is released. -/
theorem behaves_makeRoom (cacheCleaned : Bool) :
    Behaves leavesLocked locked (makeRoom fuel cacheCleaned) locked := by
  have cleanup (a : Bool) : Behaves leavesLocked locked
      (do let _ ← FileSwap.cleanupCachedElements fuel; pure a : Flow Bool) locked :=
    (FileSwap.behaves_cleanupCachedElements mem_locked fuel).bind fun _ => .pure locked a
  refine .ask (fun _ => rfl) ?_ (.pure locked false)
  refine (Cyclic.behaves_swapOut fuel).bind fun err => ?_
  split
  · exact .pure locked false
  · refine .ask (fun _ => rfl) ?_ (.pure locked false)
    cases cacheCleaned with
    | true =>
        refine .ask (fun _ => rfl) ?_ (cleanup false)
        exact unlockState.bind fun _ => .throw _
    | false => exact cleanup true

theorem behaves_ensureEnoughSpace (orisSwappedin cacheCleaned : Bool) :
    Behaves leavesLocked locked (ensureEnoughSpace orisSwappedin cacheCleaned fuel) locked := by
  induction fuel generalizing cacheCleaned with
  | zero => trivial
  | succ fuel ih =>
      refine .ask (fun _ => rfl) ?_ (behaves_alreadyThere orisSwappedin)
      refine (behaves_alreadyThere orisSwappedin).bind fun there => ?_
      cases there with
      | true => exact .pure locked true
      | false =>
          refine (behaves_makeRoom fuel cacheCleaned).bind fun cleaned => ?_
          cases cleaned with
          | true => exact ih true
          | false =>
              have wait : Behaves leavesLocked locked
                  (when .exceedsFree (waitForAio fuel)) locked :=
                .when (fun _ => rfl) (behaves_waitForAio mem_locked fuel)
              exact wait.bind fun _ => ih cacheCleaned

namespace Cyclic

theorem behaves_preemptiveRoom :
    Behaves leavesLocked locked (preemptiveRoom fuel) locked := by
  have ensure := behaves_ensureEnoughSpace fuel true false
  refine .ask (fun _ => rfl) ?_ (.pure locked false)
  refine (behaves_swapOut fuel).bind fun err => ?_
  split
  · exact ensure
  · refine ensure.bind fun there => ?_
    cases there with
    | true => exact .pure locked true
    | false => exact ensure

theorem behaves_finishSwapIn : Behaves leavesLocked both finishSwapIn locked := by
  refine unlockTopo.bind fun _ => ?_
  exact behaves_touch.bind fun _ => .pure locked true

theorem behaves_preemptiveSwapIn :
    Behaves leavesLocked locked (preemptiveSwapIn fuel) locked := by
  refine (behaves_preemptiveRoom fuel).bind fun there => ?_
  cases there with
  | true => exact (behaves_waitForSwapin mem_locked fuel).bind fun _ => .pure locked true
  | false =>
      refine lockTopo.bind fun _ => ?_
      refine (FileSwap.behaves_swapInList mem_both fuel).bind fun _ => ?_
      refine .ask (fun _ => rfl) ?_ behaves_finishSwapIn
      exact .throwUnless rfl rfl behaves_finishSwapIn

theorem behaves_plainSwapIn : Behaves leavesLocked locked (plainSwapIn fuel) locked := by
  refine (behaves_ensureEnoughSpace fuel true false).bind fun there => ?_
  cases there with
  | true => exact .pure locked true
  | false =>
      refine (FileSwap.behaves_swapIn mem_locked fuel).bind fun _ => ?_
      refine .ask (fun _ => rfl) ?_ (unlockState.bind fun _ => .throw _)
      refine behaves_touch.bind fun _ => ?_
      exact lockTopo.bind fun _ => unlockTopo.bind fun _ => .pure locked true

theorem behaves_swapIn : Behaves leavesLocked locked (swapIn fuel) locked := by
  refine (behaves_alreadyThere true).bind fun there => ?_
  cases there with
  | true => exact .pure locked true
  | false =>
      have decays : Behaves leavesLocked locked (when .wantsDecay (decay fuel)) locked :=
        .when (fun _ => rfl) (behaves_decay fuel)
      refine decays.bind fun _ => ?_
      exact .ask (fun _ => rfl) (behaves_preemptiveSwapIn fuel) (behaves_plainSwapIn fuel)

theorem behaves_untouch : Behaves leavesLocked locked (untouch fuel) locked := by
  refine .when (fun _ => rfl) (.when (fun _ => rfl) ?_)
  exact (behaves_swapOut fuel).bind fun _ => .pure locked ()

end Cyclic

/-! ### The entry points -/

theorem behaves_mmalloc : Behaves leavesLocked ∅ (mmalloc fuel) ∅ := by
  refine lockState.bind fun _ => ?_
  refine (behaves_ensureEnoughSpace fuel false false).bind fun _ => ?_
  refine Cyclic.behaves_schedulerRegister.bind fun _ => ?_
  refine Cyclic.behaves_touch.bind fun _ => ?_
  exact .ask (fun _ => rfl) unlockState (.throwIf rfl rfl unlockState)

theorem behaves_prepareUseSection {acquireLock : Bool} {H : Finset Mutex}
    (unlock : Behaves leavesLocked locked (unlockIf acquireLock) H) :
    Behaves leavesLocked locked (prepareUseSection fuel acquireLock) H := by
  have done (a : Bool) : Behaves leavesLocked locked
      (do unlockIf acquireLock; pure a : Flow Bool) H :=
    unlock.bind fun _ => .pure H a
  have swap : Behaves leavesLocked locked
      (do let done ← Cyclic.swapIn fuel; unlockIf acquireLock; pure done : Flow Bool) H :=
    (Cyclic.behaves_swapIn fuel).bind done
  refine .ask (fun _ => rfl) ?_ (.ask (fun _ => rfl) swap (done true))
  refine (behaves_waitForSwapout mem_locked fuel).bind fun swapped => ?_
  cases swapped with
  | true => exact swap
  | false => exact done true

/-- `prepareUse` inside `setUse`. -/
theorem behaves_prepareUse_locked : Behaves leavesLocked locked (prepareUse fuel false) locked :=
  (Behaves.pure locked ()).bind fun _ => behaves_prepareUseSection fuel (.pure locked ())

theorem behaves_prepareUse : Behaves leavesLocked ∅ (prepareUse fuel true) ∅ :=
  lockState.bind fun _ => behaves_prepareUseSection fuel unlockState

omit fuel in
theorem behaves_finishUse : Behaves leavesLocked locked finishUse ∅ := by
  refine Cyclic.behaves_touch.bind fun _ => ?_
  exact unlockState.bind fun _ => .pure ∅ true

theorem behaves_useAllocated (writeAccess : Bool) :
    Behaves leavesLocked locked (useAllocated fuel writeAccess) ∅ := by
  cases writeAccess with
  | true =>
      exact (FileSwap.behaves_invalidateCacheFor mem_locked fuel).bind fun _ => behaves_finishUse
  | false => exact behaves_finishUse

omit fuel in
theorem behaves_giveUp :
    Behaves leavesLocked locked (do release .stateChangeMutex; pure false : Flow Bool) ∅ :=
  unlockState.bind fun _ => .pure ∅ false

theorem behaves_useSwapin (writeAccess : Bool) :
    Behaves leavesLocked locked (useSwapin fuel writeAccess) ∅ := by
  refine (behaves_waitForSwapin mem_locked fuel).bind fun there => ?_
  cases there with
  | true => exact behaves_useAllocated fuel writeAccess
  | false => exact .ask (fun _ => rfl) (behaves_useAllocated fuel writeAccess) behaves_giveUp

theorem behaves_useSwapped (writeAccess : Bool) :
    Behaves leavesLocked locked (useSwapped fuel writeAccess) ∅ := by
  refine (behaves_prepareUse_locked fuel).bind fun prepared => ?_
  cases prepared with
  | true => exact behaves_useSwapin fuel writeAccess
  | false => exact behaves_giveUp

theorem behaves_setUse (writeAccess : Bool) :
    Behaves leavesLocked ∅ (setUse fuel writeAccess) ∅ := by
  refine lockState.bind fun _ => ?_
  refine .ask (fun _ => rfl) (behaves_useSwapped fuel writeAccess) ?_
  refine .ask (fun _ => rfl) (behaves_useSwapped fuel writeAccess) ?_
  refine .ask (fun _ => rfl) (behaves_useSwapin fuel writeAccess) ?_
  refine .ask (fun _ => rfl) behaves_giveUp ?_
  exact .ask (fun _ => rfl) behaves_finishUse (behaves_useAllocated fuel writeAccess)

theorem behaves_unsetUse : Behaves leavesLocked ∅ (unsetUse fuel) ∅ := by
  refine lockState.bind fun _ => ?_
  refine .ask (fun _ => rfl) (unlockState.bind fun _ => .throw _) ?_
  refine .ask (fun _ => rfl) (unlockState.bind fun _ => .throw _) ?_
  refine (Cyclic.behaves_untouch fuel).bind fun _ => ?_
  exact unlockState.bind fun _ => .pure ∅ true

theorem behaves_setMemoryLimit : Behaves leavesLocked ∅ (setMemoryLimit fuel) ∅ := by
  have leave (a : Bool) : Behaves leavesLocked locked
      (do release .stateChangeMutex; pure a : Flow Bool) ∅ :=
    unlockState.bind fun _ => .pure ∅ a
  refine lockState.bind fun _ => ?_
  refine .ask (fun _ => rfl) (leave true) ?_
  refine .ask (fun _ => rfl) ?_ (leave true)
  refine (Cyclic.behaves_swapOut fuel).bind fun err => ?_
  split
  · exact (Cyclic.behaves_swapOut fuel).bind fun _ => leave true
  · exact leave false

theorem behaves_mfree (inCleanup : Bool) :
    Behaves leavesLocked ∅ (mfree fuel inCleanup) ∅ := by
  have delete : Behaves leavesLocked locked
      (when .hasSwapBuf (FileSwap.swapDelete fuel)) locked :=
    .when (fun _ => rfl) (FileSwap.behaves_swapDelete mem_locked fuel)
  refine lockState.bind fun _ => ?_
  refine .ask (fun _ => rfl) (unlockState.bind fun _ => .throw _) ?_
  cases inCleanup with
  | true => exact delete.bind fun _ => unlockState
  | false =>
      refine Cyclic.behaves_schedulerDelete.bind fun _ => ?_
      exact delete.bind fun _ => unlockState

theorem behaves_waitForCleanExit : Behaves leavesLocked ∅ (waitForCleanExit fuel) ∅ := by
  refine .loop (fun _ => rfl) ?_ fuel
  exact (behaves_checkForAio (show Caller.cleanExit.Holds ∅ from rfl) fuel).bind fun _ => .pure ∅ ()

theorem behaves_destructor : Behaves leavesLocked ∅ (destructor fuel) ∅ := by
  have exit : Behaves leavesLocked ∅ (when .hasSwap (waitForCleanExit fuel)) ∅ :=
    .when (fun _ => rfl) (behaves_waitForCleanExit fuel)
  refine exit.bind fun _ => ?_
  exact .loop (fun _ => rfl) (behaves_mfree fuel true) fuel

theorem behaves_flow (entry : EntryPoint) : Behaves leavesLocked ∅ (entry.flow fuel) ∅ := by
  cases entry with
  | mmalloc => exact behaves_mmalloc fuel
  | mfree inCleanup => exact behaves_mfree fuel inCleanup
  | setUse writeAccess => exact (behaves_setUse fuel writeAccess).bind fun _ => .pure ∅ ()
  | unsetUse => exact (behaves_unsetUse fuel).bind fun _ => .pure ∅ ()
  | prepareUse => exact (behaves_prepareUse fuel).bind fun _ => .pure ∅ ()
  | setMemoryLimit => exact (behaves_setMemoryLimit fuel).bind fun _ => .pure ∅ ()
  | destructor => exact behaves_destructor fuel

end Making

/-- An entry point uses the mutexes properly and leaves both free exactly when none of the
calls fails that the code does not clean up after. -/
theorem entry_disciplined_iff (entry : EntryPoint) (fuel : Nat) (answers : List Bool)
    (o : Outcome Mutex Query MemoryException Unit)
    (ran : exec (entry.flow fuel) ∅ answers = some o) :
    Disciplined o ↔ Tainted leavesLocked o.asked = false :=
  disciplined_iff (behaves_flow fuel entry) ran

/-- What an `mmalloc` that finds room tests. -/
def roomyMmalloc (failed : Bool) : List (Query × Bool) :=
  [(.exceedsFree, false), (.isActive, true), (.sizeIsZero, false), (.mallocFailed, failed)]

theorem entry_disciplined_mmalloc :
    exec (EntryPoint.mmalloc.flow 1) ∅ ((roomyMmalloc false).map Prod.snd) =
        some ⟨.returned (), ∅, roomyMmalloc false⟩ ∧
      (Disciplined (⟨.returned (), ∅, roomyMmalloc false⟩ :
          Outcome Mutex Query MemoryException Unit) ↔
        Tainted leavesLocked (roomyMmalloc false) = false) :=
  ⟨by decide, entry_disciplined_iff .mmalloc 1 ((roomyMmalloc false).map Prod.snd)
    ⟨.returned (), ∅, roomyMmalloc false⟩ (by decide)⟩

/-- `mmalloc` finds room, `_mm_malloc` returns `NULL`, and the exception leaves with
`stateChangeMutex` locked. -/
theorem mmalloc_leaves_locked :
    exec (EntryPoint.mmalloc.flow 1) ∅ ((roomyMmalloc true).map Prod.snd) =
        some ⟨.thrown ⟨"Malloc failed"⟩, {.stateChangeMutex}, roomyMmalloc true⟩ ∧
      ¬ ∀ (entry : EntryPoint) (fuel : Nat) (answers : List Bool)
          (o : Outcome Mutex Query MemoryException Unit),
          exec (entry.flow fuel) ∅ answers = some o → Disciplined o := by
  have ran : exec (EntryPoint.mmalloc.flow 1) ∅ ((roomyMmalloc true).map Prod.snd) =
      some ⟨.thrown ⟨"Malloc failed"⟩, {.stateChangeMutex}, roomyMmalloc true⟩ := by decide
  refine ⟨ran, fun disciplined => ?_⟩
  have free : ({.stateChangeMutex} : Finset Mutex) = ∅ := disciplined _ _ _ _ ran
  cases Finset.singleton_ne_empty _ free

end Rambrain.LockDiscipline
