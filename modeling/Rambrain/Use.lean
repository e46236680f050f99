import Rambrain.Chunk

/-!
`managedMemory::setUse` and `managedMemory::unsetUse`.

`setUse` is one fall-through `switch` entered with the status before a wait and
continued with the status after it. A call is cut here at the points where
`stateChangeMutex` is free: `setUse` runs from the call to the first pause or to the
return, `resumeUse` from a pause to the next one. What happens to the chunk in
between is up to the other threads and the swap.

`touch` and `invalidateCacheFor` change neither the status nor the counter of the
chunk and do not release the mutex, so they leave no trace in this part of the model.
-/

namespace Rambrain

/-- `memoryException`. -/
structure MemoryException where
  what : String
  deriving DecidableEq, Repr

/-- Where a `setUse` call stands while the mutex is free. -/
inductive Pause where
  /-- `while ( chunk.status == MEM_SWAPOUT ) waitForAIO()`. -/
  | waitForSwapout
  /-- Inside the scheduler's `swapIn ( chunk )`. -/
  | swapIn
  /-- `while ( chunk.status == MEM_SWAPIN ) waitForAIO()`. -/
  | waitForSwapin
  deriving DecidableEq, Repr

/-- What a section under the mutex ends with. -/
inductive Progress where
  | paused (pause : Pause)
  | returned (result : Bool)
  deriving DecidableEq, Repr

/-! ### The waiting functions -/

/-- One test of `waitForSwapin ( chunk, true )`: `none` as long as it waits. -/
def waitForSwapin (status : MemoryStatus) : Option Bool :=
  if status = .swapout ∨ status = .swapped then some false
  else if status = .swapin then none
  else some (status.hasFlag .allocated)

/-- One test of `waitForSwapout ( chunk, true )`. -/
def waitForSwapout (status : MemoryStatus) : Option Bool :=
  if status = .swapin ∨ status.hasFlag .allocated then some false
  else if status = .swapout then none
  else some (status = .swapped)

/-- `case MEM_SWAPOUT` of `prepareUse`; it falls through to the swap-in only when the
chunk has become swapped. -/
def prepareUseSwapout (status : MemoryStatus) : Progress :=
  match waitForSwapout status with
  | none => .paused .waitForSwapout
  | some false => .returned true
  | some true => .paused .swapIn

/-- `prepareUse ( chunk, false )` up to its first pause. -/
def prepareUse (status : MemoryStatus) : Progress :=
  match status with
  | .swapout => prepareUseSwapout status
  | .swapped => .paused .swapIn
  | _ => .returned true

/-! ### `setUse` -/

/-- The `switch` from `case MEM_ALLOCATED_INUSE` on. -/
def useInuse (c : ManagedMemoryChunk) (writeAccess : Bool) : ManagedMemoryChunk :=
  if writeAccess then { c with status := .allocatedInuseWrite } else c

/-- The `switch` from `case MEM_ALLOCATED` on. -/
def useAllocated (c : ManagedMemoryChunk) (writeAccess : Bool) : ManagedMemoryChunk :=
  useInuse { c with status := .allocatedInuseRead } writeAccess

/-- The `switch` from `case MEM_SWAPIN` on. -/
def useSwapin (c : ManagedMemoryChunk) (writeAccess : Bool) : ManagedMemoryChunk × Progress :=
  match waitForSwapin c.status with
  | none => (c, .paused .waitForSwapin)
  | some arrived =>
      if !arrived && !c.status.hasFlag .allocated then (c, .returned false)
      else (useAllocated c writeAccess, .returned true)

/-- The `switch` after `prepareUse` has made some progress. -/
def usePrepared (c : ManagedMemoryChunk) (writeAccess : Bool) :
    Progress → ManagedMemoryChunk × Progress
  | .paused p => (c, .paused p)
  | .returned false => (c, .returned false)
  | .returned true => useSwapin c writeAccess

/-- `setUse` from the call on. -/
def setUse (c : ManagedMemoryChunk) (writeAccess : Bool) : ManagedMemoryChunk × Progress :=
  let c := { c with useCnt := c.useCnt + 1 }
  match c.status with
  | .swapout | .swapped => usePrepared c writeAccess (prepareUse c.status)
  | .swapin => useSwapin c writeAccess
  | .allocated => (useAllocated c writeAccess, .returned true)
  | .allocatedInuse | .allocatedInuseRead => (useInuse c writeAccess, .returned true)
  | .allocatedInuseWrite => (c, .returned true)
  | .root => (c, .returned false)

/-- `setUse` from a pause on; `swapInResult` is what the scheduler's `swapIn` returned. -/
def resumeUse (c : ManagedMemoryChunk) (writeAccess : Bool) (pause : Pause) (swapInResult : Bool) :
    ManagedMemoryChunk × Progress :=
  match pause with
  | .waitForSwapout => usePrepared c writeAccess (prepareUseSwapout c.status)
  | .swapIn => usePrepared c writeAccess (.returned swapInResult)
  | .waitForSwapin => useSwapin c writeAccess

/-! ### `unsetUse` -/

/-- `unsetUse` up to its call of `untouch`. -/
def unsetUse (c : ManagedMemoryChunk) (noUnsets : UInt32) :
    Except MemoryException ManagedMemoryChunk :=
  if noUnsets = 0 then .error ⟨"Cannot unset zero uses"⟩
  else if c.useCnt.toUInt32 < noUnsets then .error ⟨"Can not unset use of not used memory"⟩
  else
    let c := { c with useCnt := (c.useCnt.toUInt32 - noUnsets).toUInt16 }
    if c.status.hasFlag .allocatedInuseRead then
      .ok { c with status := if c.useCnt = 0 then .allocated else c.status }
    else .ok c

/-! ### What a section can do -/

@[simp] theorem useInuse_useCnt (c : ManagedMemoryChunk) (w : Bool) :
    (useInuse c w).useCnt = c.useCnt := by
  unfold useInuse
  split <;> rfl

@[simp] theorem useAllocated_useCnt (c : ManagedMemoryChunk) (w : Bool) :
    (useAllocated c w).useCnt = c.useCnt := by
  simp [useAllocated]

theorem useAllocated_status (c : ManagedMemoryChunk) (w : Bool) :
    (useAllocated c w).status = if w then .allocatedInuseWrite else .allocatedInuseRead := by
  unfold useAllocated useInuse
  split <;> rfl

/-- From `case MEM_SWAPIN` on, the chunk changes only when the use is granted, and
then the status before the wait no longer matters. -/
theorem useSwapin_cases (c : ManagedMemoryChunk) (w : Bool) :
    (c.status = .swapin ∧ useSwapin c w = (c, .paused .waitForSwapin)) ∨
      (c.status ≠ .swapin ∧ c.status.hasFlag .allocated = false ∧
        useSwapin c w = (c, .returned false)) ∨
      (c.status.hasFlag .allocated = true ∧
        useSwapin c w = (useAllocated c w, .returned true)) := by
  cases status : c.status <;>
    simp [useSwapin, waitForSwapin, status, MemoryStatus.hasFlag, MemoryStatus.code]

/-- The same for a call that is inside `prepareUse`. -/
theorem usePrepared_cases (c : ManagedMemoryChunk) (w : Bool) (p : Progress) :
    (∃ q, usePrepared c w p = (c, .paused q)) ∨
      usePrepared c w p = (c, .returned false) ∨
      (c.status.hasFlag .allocated = true ∧ p = .returned true ∧
        usePrepared c w p = (useAllocated c w, .returned true)) := by
  cases p with
  | paused q => exact .inl ⟨q, rfl⟩
  | returned result =>
      cases result with
      | false => exact .inr (.inl rfl)
      | true =>
          rcases useSwapin_cases c w with ⟨_, waits⟩ | ⟨_, _, fails⟩ | ⟨resident, granted⟩
          · exact .inl ⟨_, waits⟩
          · exact .inr (.inl fails)
          · exact .inr (.inr ⟨resident, rfl, granted⟩)

/-- What a resumed `setUse` can do: pause again, give up, or be granted. -/
theorem resumeUse_cases (c : ManagedMemoryChunk) (w : Bool) (p : Pause) (r : Bool) :
    (∃ q, resumeUse c w p r = (c, .paused q)) ∨
      resumeUse c w p r = (c, .returned false) ∨
      (c.status.hasFlag .allocated = true ∧
        resumeUse c w p r = (useAllocated c w, .returned true)) := by
  cases p with
  | waitForSwapout =>
      rcases usePrepared_cases c w (prepareUseSwapout c.status) with h | h | ⟨h, _, h'⟩
      · exact .inl h
      · exact .inr (.inl h)
      · exact .inr (.inr ⟨h, h'⟩)
  | swapIn =>
      rcases usePrepared_cases c w (.returned r) with h | h | ⟨h, _, h'⟩
      · exact .inl h
      · exact .inr (.inl h)
      · exact .inr (.inr ⟨h, h'⟩)
  | waitForSwapin =>
      rcases useSwapin_cases c w with ⟨_, h⟩ | ⟨_, _, h⟩ | h
      · exact .inl ⟨_, h⟩
      · exact .inr (.inl h)
      · exact .inr (.inr h)

theorem resumeUse_useCnt (c : ManagedMemoryChunk) (w : Bool) (p : Pause) (r : Bool) :
    (resumeUse c w p r).1.useCnt = c.useCnt := by
  rcases resumeUse_cases c w p r with ⟨_, again⟩ | failed | ⟨_, granted⟩
  · rw [again]
  · rw [failed]
  · rw [granted, useAllocated_useCnt]

/-- What the first section of `setUse` can do. The counter is raised in every case,
also when the call gives up. -/
theorem setUse_cases (c : ManagedMemoryChunk) (w : Bool) :
    (setUse c w).1.useCnt = c.useCnt + 1 ∧
      ((c.status.hasFlag .allocated = false ∧ c.status ≠ .allocatedInuse ∧
          (setUse c w).1.status = c.status ∧ (setUse c w).2 ≠ .returned true) ∨
        ((setUse c w).2 = .returned true ∧ (setUse c w).1.status.hasFlag .allocatedInuse = true ∧
          (setUse c w).1.status =
            if w then .allocatedInuseWrite
            else if c.status = .allocated then .allocatedInuseRead else c.status)) := by
  cases status : c.status <;> cases w <;>
    simp [setUse, status, usePrepared, prepareUse, prepareUseSwapout, waitForSwapout, useSwapin,
      waitForSwapin, useAllocated, useInuse, MemoryStatus.hasFlag, MemoryStatus.code]

/-- `unsetUse` throws exactly when asked for none or for more than the counter holds. -/
theorem unsetUse_error_iff (c : ManagedMemoryChunk) (n : UInt32) :
    (∃ e, unsetUse c n = .error e) ↔ n.toNat = 0 ∨ c.useCnt.toNat < n.toNat := by
  have sameZero : n.toNat = 0 ↔ n = 0 := ⟨fun h => UInt32.toNat_inj.mp h, fun h => h ▸ rfl⟩
  have same : c.useCnt.toUInt32 < n ↔ c.useCnt.toNat < n.toNat := by
    rw [UInt32.lt_iff_toNat_lt, UInt16.toNat_toUInt32]
  rw [sameZero]
  unfold unsetUse
  by_cases zero : n = 0
  · simp [zero]
  · by_cases more : c.useCnt.toUInt32 < n
    · simp [zero, more, same.mp more]
    · have notMore : ¬ c.useCnt.toNat < n.toNat := fun h => more (same.mpr h)
      simp only [zero, more, notMore, if_false, or_false, iff_false]
      split <;> simp

/-- What an accepted `unsetUse` does. -/
theorem unsetUse_ok {c d : ManagedMemoryChunk} {n : UInt32} (taken : unsetUse c n = .ok d) :
    n.toNat ≠ 0 ∧ n.toNat ≤ c.useCnt.toNat ∧ d.useCnt.toNat = c.useCnt.toNat - n.toNat ∧
      d.status = if c.status.hasFlag .allocatedInuseRead ∧ d.useCnt = 0 then .allocated
        else c.status := by
  have accepted : ¬ ∃ e, unsetUse c n = .error e := by
    rintro ⟨e, failed⟩
    rw [failed] at taken
    cases taken
  rw [unsetUse_error_iff, not_or, Nat.not_lt] at accepted
  obtain ⟨positive, enough⟩ := accepted
  have fits : c.useCnt.toNat < 2 ^ 16 := c.useCnt.toNat_lt
  have left : (c.useCnt.toUInt32 - n).toUInt16.toNat = c.useCnt.toNat - n.toNat := by
    have le : n ≤ c.useCnt.toUInt32 := by
      rw [UInt32.le_iff_toNat_le, UInt16.toNat_toUInt32]
      exact enough
    rw [UInt32.toNat_toUInt16, UInt32.toNat_sub_of_le _ _ le, UInt16.toNat_toUInt32]
    omega
  have notLess : ¬ c.useCnt.toUInt32 < n := by
    rw [UInt32.lt_iff_toNat_lt, UInt16.toNat_toUInt32]
    omega
  have notZero : ¬ n = 0 := fun h => positive (h ▸ rfl)
  refine ⟨positive, enough, ?_⟩
  simp only [unsetUse, notZero, notLess, if_false] at taken
  split at taken
  · rename_i flagged
    cases taken
    exact ⟨left, by simp only [flagged, true_and]⟩
  · rename_i plain
    cases taken
    exact ⟨left, (if_neg fun h => plain h.1).symm⟩

/-! ### `adhereTo` -/

universe u

/-- The members of `adhereTo`. -/
structure AdhereTo (ι : Type u) where
  data : ι
  loadedWritable : Bool
  loadedReadable : Bool
  deriving DecidableEq, Repr

/-- The number of flags set: the `unsigned char loaded` of the destructor. -/
def AdhereTo.loaded {ι : Type u} (a : AdhereTo ι) : UInt8 :=
  (if a.loadedReadable then 1 else 0) + (if a.loadedWritable then 1 else 0)

end Rambrain
