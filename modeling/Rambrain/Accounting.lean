import Rambrain.Use
import Rambrain.Lib.Table

/-!
The byte counters of the manager and of `managedFileSwap`.

`memory_used`, `memory_swapped`, `memory_tobefreed` and `swapUsed` are claimed and released at
different moments: by `mmalloc` and `mfree`, when a transfer is scheduled, and when its last part
has arrived. The events are these moments. Which chunk the scheduler picks is left open, so runs
of events contain every run of the program; `setMemoryLimit` and `prepareUse` are the swap events
they cause. While `mfree` waits in `pffree`, only transactions complete.

`Inv` says what the counters hold, `step_inv` that every event keeps it, except an `mfree` of a
chunk that is still being swapped in: `mfree` looks at the status before it waits, so it never
gives these bytes back.
-/

namespace Rambrain.Accounting

open Lib

/-- A `managedMemoryChunk`; `swapBuf` and `locPtr` say whether the pointers are set. -/
structure Chunk extends ManagedMemoryChunk where
  size : Nat
  swapBuf : Bool
  locPtr : Bool
  deriving DecidableEq

structure State where
  chunks : Table Nat Chunk
  memIDPace : Nat
  memoryUsed : Int
  memorySwapped : Int
  memoryTobefreed : Int
  swapUsed : Int
  /-- The chunk in `mfree`, with the bytes `mfree` has already taken off `memory_used`. -/
  freeing : Option (Nat × Nat)

namespace State

variable (s : State)

/-- `managedSwap::claimUsageof` with the manager's `claimUsageof`. -/
def claimUsageof (bytes : Nat) (rambytes used : Bool) : State :=
  let signed : Int := if used then bytes else -bytes
  if rambytes then { s with memoryUsed := s.memoryUsed + signed }
  else
    { s with
      memorySwapped := s.memorySwapped + signed
      swapUsed := s.swapUsed + signed }

def claimTobefreed (bytes : Nat) (tobefreed : Bool) : State :=
  { s with memoryTobefreed := s.memoryTobefreed + if tobefreed then (bytes : Int) else -bytes }

def setChunk (id : Nat) (c : Chunk) : State := { s with chunks := s.chunks.put id c }

/-- `mmalloc` behind `ensureEnoughSpace`; `allocated` is whether `_mm_malloc` succeeds. -/
def mmalloc (memoryAlignment sizereq : Nat) (allocated : Bool) : State :=
  let size := sizereq +
    if sizereq % memoryAlignment = 0 then 0 else memoryAlignment - sizereq % memoryAlignment
  let s := { s with memoryUsed := s.memoryUsed + size, memIDPace := s.memIDPace + 1 }
  s.setChunk (s.memIDPace - 1) ⟨.fresh, size, false, decide (size ≠ 0) && allocated⟩

/-- `managedFileSwap::swapIn`. -/
def swapIn (id : Nat) (c : Chunk) : Option State :=
  if c.swapBuf then
    (SwapEvent.swapIn.apply c.toManagedMemoryChunk).map fun d =>
      (s.claimUsageof c.size true true).setChunk id
        { c with toManagedMemoryChunk := d, locPtr := true }
  else none

/-- `managedFileSwap::swapOut` of a chunk that is taken. -/
def swapOut (id : Nat) (c : Chunk) : Option State :=
  if c.swapBuf then
    (SwapEvent.swapOutCached.apply c.toManagedMemoryChunk).map fun d =>
      ((s.claimUsageof c.size true false).claimUsageof c.size false true).setChunk id
        { c with toManagedMemoryChunk := d, locPtr := false }
  else
    (SwapEvent.swapOut.apply c.toManagedMemoryChunk).map fun d =>
      ((s.claimUsageof c.size false true).claimTobefreed c.size true).setChunk id
        { c with toManagedMemoryChunk := d, swapBuf := true }

/-- `completeTransactionOn`. -/
def complete (id : Nat) (c : Chunk) : Option State :=
  (SwapEvent.complete.apply c.toManagedMemoryChunk).map fun d =>
    if c.status = .swapin then
      (s.claimUsageof c.size false false).setChunk id { c with toManagedMemoryChunk := d }
    else
      ((s.claimUsageof c.size true false).claimTobefreed c.size false).setChunk id
        { c with toManagedMemoryChunk := d, locPtr := false }

/-- `mfree` up to `swapDelete`. -/
def mfree (id : Nat) (c : Chunk) : Option State :=
  if c.status.hasFlag .allocatedInuse then none
  else
    let bytes := if c.status = .allocated then c.size else 0
    some { s with memoryUsed := s.memoryUsed - bytes, freeing := some (id, bytes) }

/-- `swapDelete`, where `pffree` has waited for the parts in flight, and the end of `mfree`. -/
def finishMfree (id : Nat) (c : Chunk) : Option State :=
  if c.swapBuf ∧ (c.status = .swapin ∨ c.status = .swapout) then none
  else
    let s := if c.swapBuf ∧ c.locPtr = false then s.claimUsageof c.size false false else s
    some { s with chunks := s.chunks.remove id, freeing := none }

/-- An event that needs the mutex no `mfree` holds. -/
def between (id : Nat) (f : Chunk → Option State) : Option State :=
  if s.freeing = none then (s.chunks.get? id).bind f else none

end State

inductive Event where
  | mmalloc (sizereq : Nat) (allocated : Bool)
  | setUse (id : Nat) (writeAccess : Bool)
  | resumeUse (id : Nat) (writeAccess : Bool) (pause : Pause) (swapInResult : Bool)
  | unsetUse (id : Nat) (noUnsets : UInt32)
  | swapIn (id : Nat)
  | swapOut (id : Nat)
  | complete (id : Nat)
  /-- `cleanupCachedElements` or `invalidateCacheFor` on a chunk. -/
  | dropCache (id : Nat)
  | mfree (id : Nat)
  | finishMfree

/-- One event; `none` when it cannot happen or the call throws. -/
def step (memoryAlignment : Nat) (s : State) : Event → Option State
  | .mmalloc sizereq allocated =>
      if s.freeing = none then some (s.mmalloc memoryAlignment sizereq allocated) else none
  | .setUse id writeAccess => s.between id fun c =>
      some (s.setChunk id { c with
        toManagedMemoryChunk := (setUse c.toManagedMemoryChunk writeAccess).1 })
  | .resumeUse id writeAccess pause swapInResult => s.between id fun c =>
      some (s.setChunk id { c with
        toManagedMemoryChunk :=
          (resumeUse c.toManagedMemoryChunk writeAccess pause swapInResult).1 })
  | .unsetUse id noUnsets => s.between id fun c =>
      match unsetUse c.toManagedMemoryChunk noUnsets with
      | .ok d => some (s.setChunk id { c with toManagedMemoryChunk := d })
      | .error _ => none
  | .swapIn id => s.between id (s.swapIn id)
  | .swapOut id => s.between id (s.swapOut id)
  | .complete id => (s.chunks.get? id).bind (s.complete id)
  | .dropCache id => s.between id fun c =>
      if c.status.hasFlag .allocated ∧ c.swapBuf then
        some (s.setChunk id { c with swapBuf := false })
      else none
  | .mfree id => s.between id (s.mfree id)
  | .finishMfree => s.freeing.bind fun f => (s.chunks.get? f.1).bind (s.finishMfree f.1)

/-- A manager without chunks. -/
def init : State := ⟨.empty, 1, 0, 0, 0, 0, none⟩

/-! ### What the counters should hold -/

/-- In RAM, or on the way from or to it. -/
def Chunk.usedBytes (c : Chunk) : Nat :=
  if c.status.hasFlag .allocated ∨ c.status = .swapin ∨ c.status = .swapout then c.size else 0

def Chunk.swappedBytes (c : Chunk) : Nat :=
  if c.status = .swapped ∨ c.status = .swapin ∨ c.status = .swapout then c.size else 0

def Chunk.tobefreedBytes (c : Chunk) : Nat := if c.status = .swapout then c.size else 0

/-- Every counter holds the sum it stands for. -/
def Exact (s : State) : Prop :=
  s.memoryUsed = s.chunks.total Chunk.usedBytes ∧
    s.memorySwapped = s.chunks.total Chunk.swappedBytes ∧
    s.swapUsed = s.chunks.total Chunk.swappedBytes ∧
    s.memoryTobefreed = s.chunks.total Chunk.tobefreedBytes

/-- What the status of a chunk says about its pointers. -/
structure Regular (c : Chunk) : Prop where
  known : c.status ≠ .root ∧ c.status ≠ .allocatedInuse
  swapBuf : c.status.hasFlag .allocated = false → c.swapBuf = true
  gone : c.status = .swapped → c.locPtr = false
  there : c.swapBuf = true → c.status ≠ .swapped → c.status ≠ .swapout → c.locPtr = true

/-- The bytes `mfree` has taken off are those the chunk will have at the end. -/
def Released (c : Chunk) (bytes : Nat) : Prop :=
  (c.status = .allocated ∧ bytes = c.size) ∨
    (bytes = 0 ∧ (c.status = .swapped ∨ c.status = .swapout ∨ c.size = 0))

/-- The bytes taken off `memory_used` for a chunk that is still registered. -/
def State.released (s : State) : Nat := (s.freeing.map Prod.snd).getD 0

structure Inv (s : State) : Prop where
  regular : ∀ id c, s.chunks.get? id = some c → Regular c
  fresh : ∀ id c, s.chunks.get? id = some c → id < s.memIDPace
  used : s.memoryUsed + s.released = s.chunks.total Chunk.usedBytes
  swapped : s.memorySwapped = s.chunks.total Chunk.swappedBytes
  swapUsed : s.swapUsed = s.chunks.total Chunk.swappedBytes
  tobefreed : s.memoryTobefreed = s.chunks.total Chunk.tobefreedBytes
  freeing : ∀ id bytes, s.freeing = some (id, bytes) →
    ∃ c, s.chunks.get? id = some c ∧ Released c bytes

theorem inv_init : Inv init where
  regular := by intro id c found; simp [init] at found
  fresh := by intro id c found; simp [init] at found
  used := rfl
  swapped := rfl
  swapUsed := rfl
  tobefreed := rfl
  freeing := by intro id bytes found; cases found

/-! ### The events -/

section
variable {s : State} {id : Nat} {c : Chunk}

/-- A chunk changes, and each counter moves by what this makes of the chunk's bytes. -/
theorem Inv.setChunk (h : Inv s) (found : s.chunks.get? id = some c) {d : Chunk} {t : State}
    (regular : Regular d)
    (chunks : t.chunks = s.chunks.put id d) (memIDPace : t.memIDPace = s.memIDPace)
    (freeing : t.freeing = s.freeing)
    (held : ∀ bytes, Released c bytes → Released d bytes ∨ s.freeing = none)
    (used : t.memoryUsed + c.usedBytes = s.memoryUsed + d.usedBytes)
    (swapped : t.memorySwapped + c.swappedBytes = s.memorySwapped + d.swappedBytes)
    (swapUsed : t.swapUsed + c.swappedBytes = s.swapUsed + d.swappedBytes)
    (tobefreed : t.memoryTobefreed + c.tobefreedBytes = s.memoryTobefreed + d.tobefreedBytes) :
    Inv t where
  regular := by
    intro j e foundJ
    rw [chunks, Table.get?_put] at foundJ
    split at foundJ
    · cases foundJ
      exact regular
    · exact h.regular j e foundJ
  fresh := by
    intro j e foundJ
    rw [chunks, Table.get?_put] at foundJ
    rw [memIDPace]
    split at foundJ
    · rename_i same
      exact same ▸ h.fresh id c found
    · exact h.fresh j e foundJ
  used := by
    have total := Table.total_put Chunk.usedBytes found d
    have before := h.used
    rw [chunks, State.released, freeing]
    rw [State.released] at before
    omega
  swapped := by
    have total := Table.total_put Chunk.swappedBytes found d
    have before := h.swapped
    rw [chunks]
    omega
  swapUsed := by
    have total := Table.total_put Chunk.swappedBytes found d
    have before := h.swapUsed
    rw [chunks]
    omega
  tobefreed := by
    have total := Table.total_put Chunk.tobefreedBytes found d
    have before := h.tobefreed
    rw [chunks]
    omega
  freeing := by
    intro j bytes isFreeing
    rw [freeing] at isFreeing
    obtain ⟨e, foundJ, released⟩ := h.freeing j bytes isFreeing
    rw [chunks, Table.get?_put]
    by_cases same : j = id
    · subst same
      rw [found] at foundJ
      cases foundJ
      refine ⟨d, if_pos rfl, (held bytes released).resolve_right ?_⟩
      rw [isFreeing]
      exact Option.some_ne_none _
    · exact ⟨e, by rw [if_neg same]; exact foundJ, released⟩

theorem between_eq_some {f : Chunk → Option State} {t : State}
    (taken : s.between id f = some t) :
    s.freeing = none ∧ ∃ c, s.chunks.get? id = some c ∧ f c = some t := by
  unfold State.between at taken
  split at taken
  · rename_i idle
    exact ⟨idle, Option.bind_eq_some_iff.mp taken⟩
  · cases taken

/-- A use leaves the chunk as the counters see it. -/
def KeepsStatus (c d : ManagedMemoryChunk) : Prop :=
  d.status = c.status ∨
    (c.status.hasFlag .allocated = true ∧ d.status.hasFlag .allocated = true)

theorem setUse_keepsStatus (c : ManagedMemoryChunk) (w : Bool)
    (known : c.status ≠ .root ∧ c.status ≠ .allocatedInuse) : KeepsStatus c (setUse c w).1 := by
  obtain ⟨status, useCnt⟩ := c
  obtain ⟨notRoot, notInuse⟩ := known
  cases status <;> cases w <;>
    simp_all [KeepsStatus, setUse, usePrepared, prepareUse, prepareUseSwapout, waitForSwapout,
      useSwapin, waitForSwapin, useAllocated, useInuse, MemoryStatus.hasFlag, MemoryStatus.code]

theorem useAllocated_keepsStatus (c : ManagedMemoryChunk) (w : Bool)
    (inRam : c.status.hasFlag .allocated = true) : KeepsStatus c (useAllocated c w) := by
  obtain ⟨status, useCnt⟩ := c
  rcases (MemoryStatus.hasFlag_allocated status).mp inRam with rfl | rfl | rfl <;> cases w <;>
    simp [KeepsStatus, useAllocated, useInuse, MemoryStatus.hasFlag, MemoryStatus.code]

theorem resumeUse_keepsStatus (c : ManagedMemoryChunk) (w : Bool) (p : Pause) (r : Bool) :
    KeepsStatus c (resumeUse c w p r).1 := by
  rcases resumeUse_cases c w p r with ⟨q, pauses⟩ | fails | ⟨inRam, granted⟩
  · exact .inl (by rw [pauses])
  · exact .inl (by rw [fails])
  · rw [granted]
    exact useAllocated_keepsStatus c w inRam

theorem unsetUse_keepsStatus {c d : ManagedMemoryChunk} {n : UInt32}
    (known : c.status ≠ .allocatedInuse) (taken : unsetUse c n = .ok d) : KeepsStatus c d := by
  obtain ⟨_, _, _, status⟩ := unsetUse_ok taken
  by_cases flagged : c.status.hasFlag .allocatedInuseRead ∧ d.useCnt = 0
  · rw [if_pos flagged] at status
    refine .inr ⟨?_, by rw [status]; decide⟩
    rcases (MemoryStatus.hasFlag_inuseRead c.status).mp flagged.1 with
      resident | inUse | readUse | writeUse
    · rw [resident]; decide
    · exact absurd inUse known
    · rw [readUse]; decide
    · rw [writeUse]; decide
  · rw [if_neg flagged] at status
    exact .inl status

/-- In RAM a chunk is neither swapped nor in transit. -/
theorem inRam_status {status : MemoryStatus} (inRam : status.hasFlag .allocated = true) :
    status ≠ .root ∧ status ≠ .allocatedInuse ∧ status ≠ .swapped ∧ status ≠ .swapin ∧
      status ≠ .swapout := by
  rcases (MemoryStatus.hasFlag_allocated status).mp inRam with rfl | rfl | rfl <;> decide

theorem Regular.status_cases (regular : Regular c) :
    c.status.hasFlag .allocated = true ∨ c.status = .swapped ∨ c.status = .swapin ∨
      c.status = .swapout := by
  obtain ⟨notRoot, notInuse⟩ := regular.known
  cases status : c.status with
  | root => exact absurd status notRoot
  | allocatedInuse => exact absurd status notInuse
  | allocatedInuseRead => exact .inl (by decide)
  | allocatedInuseWrite => exact .inl (by decide)
  | allocated => exact .inl (by decide)
  | swapped => exact .inr (.inl rfl)
  | swapin => exact .inr (.inr (.inl rfl))
  | swapout => exact .inr (.inr (.inr rfl))

/-- In RAM and in no use. -/
theorem allocated_of_inRam {status : MemoryStatus} (inRam : status.hasFlag .allocated = true)
    (free : ¬ status.hasFlag .allocatedInuse = true) : status = .allocated := by
  rcases (MemoryStatus.hasFlag_allocated status).mp inRam with rfl | rfl | rfl
  · rfl
  · exact absurd (by decide) free
  · exact absurd (by decide) free

theorem usedBytes_of_inRam (inRam : c.status.hasFlag .allocated = true) :
    c.usedBytes = c.size ∧ c.swappedBytes = 0 ∧ c.tobefreedBytes = 0 := by
  obtain ⟨_, _, notSwapped, notIn, notOut⟩ := inRam_status inRam
  exact ⟨if_pos (.inl inRam), if_neg (by tauto), if_neg notOut⟩

theorem usedBytes_of_swapped (stored : c.status = .swapped) :
    c.usedBytes = 0 ∧ c.swappedBytes = c.size ∧ c.tobefreedBytes = 0 := by
  simp [Chunk.usedBytes, Chunk.swappedBytes, Chunk.tobefreedBytes, stored, MemoryStatus.hasFlag,
    MemoryStatus.code]

theorem usedBytes_of_swapin (loading : c.status = .swapin) :
    c.usedBytes = c.size ∧ c.swappedBytes = c.size ∧ c.tobefreedBytes = 0 := by
  simp [Chunk.usedBytes, Chunk.swappedBytes, Chunk.tobefreedBytes, loading]

theorem usedBytes_of_swapout (writing : c.status = .swapout) :
    c.usedBytes = c.size ∧ c.swappedBytes = c.size ∧ c.tobefreedBytes = c.size := by
  simp [Chunk.usedBytes, Chunk.swappedBytes, Chunk.tobefreedBytes, writing]

/-- An event between two calls that keeps what the counters see. -/
theorem Inv.keep (h : Inv s) (idle : s.freeing = none) (found : s.chunks.get? id = some c)
    {d : Chunk} (regular : Regular d) (used : d.usedBytes = c.usedBytes)
    (swapped : d.swappedBytes = c.swappedBytes) (tobefreed : d.tobefreedBytes = c.tobefreedBytes) :
    Inv (s.setChunk id d) :=
  h.setChunk found regular rfl rfl rfl (fun _ _ => .inr idle) (by rw [used]; rfl)
    (by rw [swapped]; rfl) (by rw [swapped]; rfl) (by rw [tobefreed]; rfl)

theorem Inv.use (h : Inv s) (idle : s.freeing = none) (found : s.chunks.get? id = some c)
    {d : ManagedMemoryChunk} (keeps : KeepsStatus c.toManagedMemoryChunk d) :
    Inv (s.setChunk id { c with toManagedMemoryChunk := d }) := by
  have regular := h.regular id c found
  rcases keeps with same | ⟨before, after⟩
  · refine h.keep idle found ?_ ?_ ?_ ?_
    · exact {
        known := by rw [same]; exact regular.known
        swapBuf := by rw [same]; exact regular.swapBuf
        gone := by rw [same]; exact regular.gone
        there := by rw [same]; exact regular.there }
    · simp only [Chunk.usedBytes, same]
    · simp only [Chunk.swappedBytes, same]
    · simp only [Chunk.tobefreedBytes, same]
  · obtain ⟨used, swapped, tobefreed⟩ := usedBytes_of_inRam before
    obtain ⟨used', swapped', tobefreed'⟩ :=
      usedBytes_of_inRam (c := { c with toManagedMemoryChunk := d }) after
    obtain ⟨notRoot, notInuse, notSwapped, _, _⟩ := inRam_status after
    obtain ⟨_, _, wasNotSwapped, _, wasNotOut⟩ := inRam_status before
    refine h.keep idle found ?_ (by rw [used, used']) (by rw [swapped, swapped'])
      (by rw [tobefreed, tobefreed'])
    exact {
      known := ⟨notRoot, notInuse⟩
      swapBuf := by
        intro not
        rw [after] at not
        cases not
      gone := fun stored => absurd stored notSwapped
      there := fun cached _ _ => regular.there cached wasNotSwapped wasNotOut }

theorem Inv.mmalloc (h : Inv s) (idle : s.freeing = none) (memoryAlignment sizereq : Nat)
    (allocated : Bool) : Inv (s.mmalloc memoryAlignment sizereq allocated) := by
  have new : s.chunks.get? s.memIDPace = none := by
    cases found : s.chunks.get? s.memIDPace with
    | none => rfl
    | some c => exact absurd (h.fresh _ c found) (Nat.lt_irrefl _)
  have pace : s.memIDPace + 1 - 1 = s.memIDPace := Nat.add_sub_cancel ..
  unfold State.mmalloc State.setChunk
  simp only [pace]
  generalize sizereq + _ = size
  have inRam : ManagedMemoryChunk.fresh.status.hasFlag .allocated = true := by decide
  have regular : Regular ⟨.fresh, size, false, decide (size ≠ 0) && allocated⟩ :=
    ⟨by simp [ManagedMemoryChunk.fresh], fun not => absurd (not.symm.trans inRam) (by decide),
      by simp [ManagedMemoryChunk.fresh], by simp⟩
  obtain ⟨used, swapped, tobefreed⟩ := usedBytes_of_inRam
    (c := ⟨.fresh, size, false, decide (size ≠ 0) && allocated⟩) inRam
  exact {
    regular := by
      intro j e foundJ
      rw [Table.get?_put] at foundJ
      split at foundJ
      · cases foundJ
        exact regular
      · exact h.regular j e foundJ
    fresh := by
      intro j e foundJ
      rw [Table.get?_put] at foundJ
      split at foundJ
      · rename_i same
        exact same ▸ Nat.lt_succ_self _
      · exact Nat.lt_succ_of_lt (h.fresh j e foundJ)
    used := by
      have before := h.used
      simp only [State.released, idle] at before ⊢
      rw [Table.total_put_new _ new, used]
      push_cast
      simp at before
      simp
      omega
    swapped := by
      rw [Table.total_put_new _ new, swapped, Nat.zero_add]
      exact h.swapped
    swapUsed := by
      rw [Table.total_put_new _ new, swapped, Nat.zero_add]
      exact h.swapUsed
    tobefreed := by
      rw [Table.total_put_new _ new, tobefreed, Nat.zero_add]
      exact h.tobefreed
    freeing := by
      intro j bytes isFreeing
      rw [idle] at isFreeing
      cases isFreeing }

theorem Inv.swapIn (h : Inv s) (idle : s.freeing = none) (found : s.chunks.get? id = some c)
    {t : State} (taken : s.swapIn id c = some t) : Inv t := by
  unfold State.swapIn at taken
  split at taken
  · rename_i cached
    obtain ⟨d, applied, rfl⟩ := Option.map_eq_some_iff.mp taken
    simp only [SwapEvent.apply] at applied
    split at applied
    · rename_i stored
      cases applied
      obtain ⟨used, swapped, tobefreed⟩ := usedBytes_of_swapped stored
      obtain ⟨used', swapped', tobefreed'⟩ := usedBytes_of_swapin (c := { c with
        status := .swapin, locPtr := true }) rfl
      have regular : Regular { c with status := .swapin, locPtr := true } :=
        ⟨⟨by simp, by simp⟩, fun _ => cached, fun loading => absurd loading (by simp),
         fun _ _ _ => rfl⟩
      refine h.setChunk found regular rfl rfl rfl (fun _ _ => .inr idle) ?_ ?_ ?_ ?_
      · rw [used, used']
        simp [State.claimUsageof, State.setChunk]
      · rw [swapped, swapped']
        rfl
      · rw [swapped, swapped']
        rfl
      · rw [tobefreed, tobefreed']
        rfl
    · cases applied
  · cases taken

theorem Inv.swapOut (h : Inv s) (idle : s.freeing = none) (found : s.chunks.get? id = some c)
    {t : State} (taken : s.swapOut id c = some t) : Inv t := by
  unfold State.swapOut at taken
  split at taken
  · rename_i cached
    obtain ⟨d, applied, rfl⟩ := Option.map_eq_some_iff.mp taken
    simp only [SwapEvent.apply] at applied
    split at applied
    · rename_i resident
      cases applied
      obtain ⟨used, swapped, tobefreed⟩ := usedBytes_of_inRam (c := c) (by rw [resident.1]; decide)
      obtain ⟨used', swapped', tobefreed'⟩ := usedBytes_of_swapped (c := { c with
        status := .swapped, locPtr := false }) rfl
      have regular : Regular { c with status := .swapped, locPtr := false } :=
        ⟨⟨by simp, by simp⟩, fun _ => cached, fun _ => rfl, fun _ not => absurd rfl not⟩
      refine h.setChunk found regular rfl rfl rfl (fun _ _ => .inr idle) ?_ ?_ ?_ ?_
      · rw [used, used']
        simp [State.claimUsageof, State.setChunk]
      · rw [swapped, swapped']
        simp [State.claimUsageof, State.setChunk]
      · rw [swapped, swapped']
        simp [State.claimUsageof, State.setChunk]
      · rw [tobefreed, tobefreed']
        rfl
    · cases applied
  · obtain ⟨d, applied, rfl⟩ := Option.map_eq_some_iff.mp taken
    simp only [SwapEvent.apply] at applied
    split at applied
    · rename_i resident
      cases applied
      obtain ⟨used, swapped, tobefreed⟩ := usedBytes_of_inRam (c := c) (by rw [resident.1]; decide)
      obtain ⟨used', swapped', tobefreed'⟩ := usedBytes_of_swapout (c := { c with
        status := .swapout, swapBuf := true }) rfl
      have regular : Regular { c with status := .swapout, swapBuf := true } :=
        ⟨⟨by simp, by simp⟩, fun _ => rfl, fun writing => absurd writing (by simp),
          fun _ _ not => absurd rfl not⟩
      refine h.setChunk found regular rfl rfl rfl (fun _ _ => .inr idle) ?_ ?_ ?_ ?_
      · rw [used, used']
        rfl
      · rw [swapped, swapped']
        simp [State.claimUsageof, State.claimTobefreed, State.setChunk]
      · rw [swapped, swapped']
        simp [State.claimUsageof, State.claimTobefreed, State.setChunk]
      · rw [tobefreed, tobefreed']
        simp [State.claimUsageof, State.claimTobefreed, State.setChunk]
    · cases applied

theorem Inv.complete (h : Inv s) (found : s.chunks.get? id = some c) {t : State}
    (taken : s.complete id c = some t) : Inv t := by
  have regular := h.regular id c found
  obtain ⟨d, applied, rfl⟩ := Option.map_eq_some_iff.mp taken
  simp only [SwapEvent.apply] at applied
  split at applied
  · rename_i loading
    cases applied
    have inRam : (if c.useCnt = 0 then MemoryStatus.allocated
        else .allocatedInuseRead).hasFlag .allocated = true := by
      split <;> decide
    obtain ⟨used, swapped, tobefreed⟩ := usedBytes_of_swapin loading
    obtain ⟨used', swapped', tobefreed'⟩ := usedBytes_of_inRam (c := { c with
      status := if c.useCnt = 0 then .allocated else .allocatedInuseRead }) inRam
    obtain ⟨notRoot, notInuse, notSwapped, notIn, notOut⟩ := inRam_status inRam
    rw [if_pos loading]
    have regular' : Regular { c with
        status := if c.useCnt = 0 then .allocated else .allocatedInuseRead } := by
      refine ⟨⟨notRoot, notInuse⟩, fun not => ?_, fun eq => absurd eq notSwapped, ?_⟩
      · exact absurd (not.symm.trans inRam) (by decide)
      · intro cached _ _
        exact regular.there cached (by rw [loading]; decide) (by rw [loading]; decide)
    refine h.setChunk found regular' rfl rfl rfl ?_ ?_ ?_ ?_ ?_
    · rintro bytes (⟨is, _⟩ | ⟨zero, is | is | empty⟩)
      · rw [loading] at is
        cases is
      · rw [loading] at is
        cases is
      · rw [loading] at is
        cases is
      · exact .inl (.inr ⟨zero, .inr (.inr empty)⟩)
    · rw [used, used']
      rfl
    · rw [swapped, swapped']
      simp [State.claimUsageof, State.setChunk]
    · rw [swapped, swapped']
      simp [State.claimUsageof, State.setChunk]
    · rw [tobefreed, tobefreed']
      rfl
  · rename_i writing
    cases applied
    obtain ⟨used, swapped, tobefreed⟩ := usedBytes_of_swapout writing
    obtain ⟨used', swapped', tobefreed'⟩ := usedBytes_of_swapped (c := { c with
      status := .swapped, locPtr := false }) rfl
    rw [if_neg (by rw [writing]; decide)]
    have regular' : Regular { c with status := .swapped, locPtr := false } :=
      ⟨⟨by simp, by simp⟩, fun _ => regular.swapBuf (by rw [writing]; decide), fun _ => rfl,
        fun _ not => absurd rfl not⟩
    refine h.setChunk found regular' rfl rfl rfl ?_ ?_ ?_ ?_ ?_
    · rintro bytes (⟨is, _⟩ | ⟨zero, _⟩)
      · rw [writing] at is
        cases is
      · exact .inl (.inr ⟨zero, .inl rfl⟩)
    · rw [used, used']
      simp [State.claimUsageof, State.claimTobefreed, State.setChunk]
    · rw [swapped, swapped']
      rfl
    · rw [swapped, swapped']
      rfl
    · rw [tobefreed, tobefreed']
      simp [State.claimUsageof, State.claimTobefreed, State.setChunk]
  · cases applied

/-- The chunk of an `mfree` is not being swapped in, or it has no bytes. -/
def Releases (s : State) : Event → Prop
  | .mfree id => ∀ c ∈ s.chunks.get? id, c.status = .swapin → c.size = 0
  | _ => True

instance (s : State) (e : Event) : Decidable (Releases s e) := by
  cases e with
  | mfree id =>
      exact inferInstanceAs
        (Decidable (∀ c ∈ s.chunks.get? id, c.status = .swapin → c.size = 0))
  | _ => exact isTrue trivial

theorem Inv.mfree (h : Inv s) (idle : s.freeing = none) (found : s.chunks.get? id = some c)
    (releases : c.status = .swapin → c.size = 0) {t : State} (taken : s.mfree id c = some t) :
    Inv t := by
  have regular := h.regular id c found
  unfold State.mfree at taken
  split at taken
  · cases taken
  · rename_i free
    cases taken
    exact {
      regular := h.regular
      fresh := h.fresh
      used := by
        have before := h.used
        simp only [State.released, idle] at before ⊢
        simp at before ⊢
        omega
      swapped := h.swapped
      swapUsed := h.swapUsed
      tobefreed := h.tobefreed
      freeing := by
        intro j bytes isFreeing
        cases isFreeing
        refine ⟨c, found, ?_⟩
        by_cases resident : c.status = .allocated
        · exact .inl ⟨resident, if_pos resident⟩
        · refine .inr ⟨if_neg resident, ?_⟩
          rcases regular.status_cases with inRam | swapped | swapin | swapout
          · exact absurd (allocated_of_inRam inRam free) resident
          · exact .inl swapped
          · exact .inr (.inr (releases swapin))
          · exact .inr (.inl swapout) }

theorem Inv.finishMfree (h : Inv s) {bytes : Nat} (isFreeing : s.freeing = some (id, bytes))
    (found : s.chunks.get? id = some c) {t : State} (taken : s.finishMfree id c = some t) :
    Inv t := by
  have regular := h.regular id c found
  obtain ⟨c', found', released⟩ := h.freeing id bytes isFreeing
  rw [found] at found'
  cases found'
  unfold State.finishMfree at taken
  split at taken
  · cases taken
  rename_i arrived
  -- what is left of the chunk in the counters
  have left : c.usedBytes = bytes ∧ c.tobefreedBytes = 0 ∧
      c.swappedBytes = if c.swapBuf ∧ c.locPtr = false then c.size else 0 := by
    by_cases inRam : c.status.hasFlag .allocated = true
    · obtain ⟨used, swapped, tobefreed⟩ := usedBytes_of_inRam inRam
      obtain ⟨_, _, notSwapped, _, notOut⟩ := inRam_status inRam
      refine ⟨?_, tobefreed, ?_⟩
      · rcases released with ⟨_, all⟩ | ⟨zero, gone | gone | empty⟩
        · rw [used, all]
        · exact absurd gone notSwapped
        · exact absurd gone notOut
        · rw [used, zero, empty]
      · rw [swapped, if_neg]
        rintro ⟨cached, gone⟩
        rw [regular.there cached notSwapped notOut] at gone
        cases gone
    · have cached := regular.swapBuf (by simpa using inRam)
      have status : c.status = .swapped := by
        rcases regular.status_cases with is | swapped | swapin | swapout
        · exact absurd is inRam
        · exact swapped
        · exact absurd ⟨cached, .inl swapin⟩ arrived
        · exact absurd ⟨cached, .inr swapout⟩ arrived
      obtain ⟨used, swapped, tobefreed⟩ := usedBytes_of_swapped status
      refine ⟨?_, tobefreed, by rw [swapped, if_pos ⟨cached, regular.gone status⟩]⟩
      rcases released with ⟨is, _⟩ | ⟨zero, _⟩
      · rw [status] at is
        cases is
      · rw [used, zero]
  obtain ⟨usedIs, tobefreedIs, swappedIs⟩ := left
  have used := Table.total_remove Chunk.usedBytes found
  have swapped := Table.total_remove Chunk.swappedBytes found
  have tobefreed := Table.total_remove Chunk.tobefreedBytes found
  have usedNow := h.used
  have swappedNow := h.swapped
  have swapUsedNow := h.swapUsed
  have tobefreedNow := h.tobefreed
  simp only [State.released, isFreeing, Option.map_some, Option.getD_some] at usedNow
  have chunks : (if c.swapBuf ∧ c.locPtr = false then s.claimUsageof c.size false false
      else s).chunks = s.chunks := by
    split <;> rfl
  have memIDPace : (if c.swapBuf ∧ c.locPtr = false then s.claimUsageof c.size false false
      else s).memIDPace = s.memIDPace := by
    split <;> rfl
  cases taken
  exact {
    regular := by
      intro j e foundJ
      simp only [chunks] at foundJ
      exact h.regular j e (Table.of_get?_remove foundJ).2
    fresh := by
      intro j e foundJ
      simp only [chunks, memIDPace] at foundJ ⊢
      exact h.fresh j e (Table.of_get?_remove foundJ).2
    used := by
      split <;> simp [State.claimUsageof, State.released] <;> omega
    swapped := by
      split
      · rename_i gone
        rw [if_pos gone] at swappedIs
        simp only [State.claimUsageof, Bool.false_eq_true, if_false]
        omega
      · rename_i kept
        rw [if_neg kept] at swappedIs
        simp only
        omega
    swapUsed := by
      split
      · rename_i gone
        rw [if_pos gone] at swappedIs
        simp only [State.claimUsageof, Bool.false_eq_true, if_false]
        omega
      · rename_i kept
        rw [if_neg kept] at swappedIs
        simp only
        omega
    tobefreed := by
      split <;> simp only [State.claimUsageof, Bool.false_eq_true, if_false] <;> omega
    freeing := by
      intro j bytes impossible
      cases impossible }

end

/-! ### Runs -/

theorem inv_step {memoryAlignment : Nat} {s t : State} (event : Event) (h : Inv s)
    (releases : Releases s event) (taken : step memoryAlignment s event = some t) : Inv t := by
  cases event with
  | mmalloc sizereq allocated =>
      simp only [step] at taken
      split at taken
      · rename_i idle
        cases taken
        exact h.mmalloc idle memoryAlignment sizereq allocated
      · cases taken
  | setUse id writeAccess =>
      obtain ⟨idle, c, found, applied⟩ := between_eq_some taken
      cases applied
      exact h.use idle found (setUse_keepsStatus _ _ (h.regular id c found).known)
  | resumeUse id writeAccess pause swapInResult =>
      obtain ⟨idle, c, found, applied⟩ := between_eq_some taken
      cases applied
      exact h.use idle found (resumeUse_keepsStatus _ _ _ _)
  | unsetUse id noUnsets =>
      obtain ⟨idle, c, found, applied⟩ := between_eq_some taken
      split at applied
      · rename_i d ok
        cases applied
        exact h.use idle found (unsetUse_keepsStatus (h.regular id c found).known.2 ok)
      · cases applied
  | swapIn id =>
      obtain ⟨idle, c, found, applied⟩ := between_eq_some taken
      exact h.swapIn idle found applied
  | swapOut id =>
      obtain ⟨idle, c, found, applied⟩ := between_eq_some taken
      exact h.swapOut idle found applied
  | complete id =>
      obtain ⟨c, found, applied⟩ := Option.bind_eq_some_iff.mp taken
      exact h.complete found applied
  | dropCache id =>
      obtain ⟨idle, c, found, applied⟩ := between_eq_some taken
      split at applied
      · rename_i cached
        cases applied
        have regular := h.regular id c found
        obtain ⟨_, _, notSwapped, _, _⟩ := inRam_status cached.1
        refine h.keep idle found ⟨regular.known, fun not => ?_, fun is => absurd is notSwapped, ?_⟩
          rfl rfl rfl
        · exact absurd (not.symm.trans cached.1) (by decide)
        · intro lacks
          cases lacks
      · cases applied
  | mfree id =>
      obtain ⟨idle, c, found, applied⟩ := between_eq_some taken
      exact h.mfree idle found (releases c found) applied
  | finishMfree =>
      obtain ⟨⟨id, bytes⟩, freeing, rest⟩ := Option.bind_eq_some_iff.mp taken
      obtain ⟨c, found, applied⟩ := Option.bind_eq_some_iff.mp rest
      exact h.finishMfree freeing found applied

/-- In a run that frees no chunk while it is being swapped in, every counter holds its sum after
each operation. -/
theorem counters_exact (memoryAlignment : Nat) (events : List Event) {t : State}
    (releases : Along (step memoryAlignment) Releases init events)
    (reached : run (step memoryAlignment) init events = some t) (between : t.freeing = none) :
    Exact t := by
  have h : Inv t := run_invariant_of_guard Inv
    (fun s e u inv ok taken => inv_step e inv ok taken) events inv_init releases reached
  have used := h.used
  rw [State.released, between] at used
  refine ⟨?_, h.swapped, h.swapUsed, h.tobefreed⟩
  simpa using used

/-- A chunk goes to the swap and is loaded and freed again. -/
def roundTrip : List Event :=
  [.mmalloc 30 true, .swapOut 1, .complete 1, .swapIn 1, .complete 1, .mfree 1, .finishMfree]

theorem counters_exact_roundTrip :
    ∃ t, run (step 32) init roundTrip = some t ∧ t.freeing = none ∧ t.memoryUsed = 0 ∧
      Exact t := by
  have taken : (run (step 32) init roundTrip).isSome = true := by decide
  obtain ⟨t, reached⟩ := Option.isSome_iff_exists.mp taken
  have is : (run (step 32) init roundTrip).map (fun t => (t.freeing, t.memoryUsed)) =
      some (none, 0) := by decide
  rw [reached] at is
  obtain ⟨between, used⟩ := Prod.ext_iff.mp (Option.some.inj is)
  exact ⟨t, reached, between, used, counters_exact 32 roundTrip (by decide) reached between⟩

/-- The same, freed while its last part is still in flight. -/
def freedInTransit : List Event :=
  [.mmalloc 500 true, .swapOut 1, .complete 1, .swapIn 1, .mfree 1, .complete 1, .finishMfree]

theorem bytes_stay_claimed :
    ¬ ∀ (events : List Event) (t : State), run (step 512) init events = some t →
      t.freeing = none → Exact t := by
  intro exactly
  have taken : (run (step 512) init freedInTransit).isSome = true := by decide
  obtain ⟨t, reached⟩ := Option.isSome_iff_exists.mp taken
  have is : (run (step 512) init freedInTransit).map
      (fun t => (t.freeing, t.memoryUsed, t.chunks.total Chunk.usedBytes)) =
        some (none, 512, 0) := by decide
  rw [reached] at is
  obtain ⟨between, rest⟩ := Prod.ext_iff.mp (Option.some.inj is)
  obtain ⟨used, total⟩ := Prod.ext_iff.mp rest
  have equal := (exactly freedInTransit t reached between).1
  simp only at used total
  rw [used, total] at equal
  exact absurd equal (by decide)

end Rambrain.Accounting
