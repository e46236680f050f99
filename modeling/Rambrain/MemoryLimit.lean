import Rambrain.Use
import Rambrain.Lib.Run
import Rambrain.Lib.Table
import Mathlib.Algebra.BigOperators.Group.Finset.Basic

/-!
`memory_used` and the limit.

The functions that raise `memory_used` are `mmalloc` and `swapIn`; both compare with `memory_max`
first, behind `ensureEnoughSpace` or in the selection of `swapIn`. What the scheduler decides is
left open: which chunks it chooses and the swap takes, where the swap throws, the volumes it
computes from its fractions, and which transfers complete while a call waits. Each of these is an
argument of the operation, so the runs contain the runs of the program, over either swap.

`Kept s t` is what everything but these two does: neither `memory_used` nor what of it will not
become free has grown. `Fits` adds that it may have grown up to the limit.

`setMemoryLimit` sets the new limit before it asks for a second `swapOut`. An exception of the swap
leaves it from there: the limit has changed, and the call has not returned `true`.
-/

namespace Rambrain.MemoryLimit

open Lib

inductive ManagedSwap where
  | file
  | dummy
  deriving DecidableEq

/-- A `managedMemoryChunk`; `swapBuf` says whether the pointer is set. -/
structure Chunk extends ManagedMemoryChunk where
  size : Nat
  swapBuf : Bool

structure State where
  chunks : Table Nat Chunk
  memIDPace : Nat
  memoryUsed : Int
  memoryTobefreed : Int
  memoryMax : Nat

/-- What the swap does about the chunks that `swapOut` chooses. An exception of `pfmalloc` is thrown
before the chunk is taken, one of `ftruncate` behind it. -/
inductive Answer where
  | takes (id : Nat)
  /-- The copies that `pfmalloc` drops when it finds no space. -/
  | cleans (ids : List Nat)
  | throws
  deriving DecidableEq

/-- How `swapOut` ends; `done` is `ERR_SUCCESS`. -/
inductive Unloading where
  | done
  | failed
  | threw
  deriving DecidableEq

/-- What one turn of the loop in `ensureEnoughSpace` meets: what `swapOut` chooses and the swap
does about it, the copies that `cleanupCachedElements` drops, the transfers that complete. -/
structure Round where
  chosen : List Answer
  cleaned : List Nat
  arrived : List Nat

/-- How `ensureEnoughSpace` ends. -/
inductive Room where
  | enough
  | alreadyThere
  | threw

/-- What one call of `swapIn` meets. -/
structure Loading where
  /-- What `decay` evicts; that the swap takes too little throws as well. -/
  decayed : List Answer
  /-- `preemtiveSwapIn && preemptiveAutoon`. -/
  preemptive : Bool
  targetReadinVol : Nat
  targetSwapoutVol : Nat
  maxPreemptive : Nat
  chosen : List Answer
  retried : List Round
  rounds : List Round
  /-- The chunks from the one asked for backwards to `oldBorder`. -/
  walk : List Nat
  /-- Whether `_mm_malloc` succeeds for a chunk. -/
  allocates : Nat → Bool

namespace State

variable (s : State)

/-! ### The swap -/

/-- `swapOut ( chunk )` of a chunk the swap takes. -/
def swapOutChunk (swap : ManagedSwap) (id : Nat) (c : Chunk) : State :=
  if swap = .file ∧ c.swapBuf = false then
    { s with
      memoryTobefreed := s.memoryTobefreed + c.size
      chunks := s.chunks.put id { c with status := .swapout, swapBuf := true } }
  else
    { s with
      memoryUsed := s.memoryUsed - c.size
      chunks := s.chunks.put id { c with status := .swapped, swapBuf := true } }

/-- `swapIn ( chunk )` with a buffer. -/
def swapInChunk (swap : ManagedSwap) (id : Nat) (c : Chunk) : State :=
  if c.status = .swapped ∧ c.swapBuf then
    { s with
      memoryUsed := s.memoryUsed + c.size
      chunks := s.chunks.put id (if swap = .file then { c with status := .swapin }
        else { c with status := .allocated, swapBuf := false }) }
  else s

/-- `completeTransactionOn` a chunk in transit. -/
def complete (id : Nat) (c : Chunk) : State :=
  match c.status with
  | .swapin =>
      { s with
        chunks := s.chunks.put id { c with
          status := if c.useCnt = 0 then .allocated else .allocatedInuseRead } }
  | .swapout =>
      { s with
        memoryUsed := s.memoryUsed - c.size
        memoryTobefreed := s.memoryTobefreed - c.size
        chunks := s.chunks.put id { c with status := .swapped } }
  | _ => s

/-- Does `f` to the chunk, if there is one. -/
def atChunk (id : Nat) (f : Chunk → State) : State :=
  match s.chunks.get? id with
  | some c => f c
  | none => s

def arrive (ids : List Nat) : State := ids.foldl (fun s id => s.atChunk id (s.complete id)) s

/-- The copies of these resident chunks are dropped. -/
def dropCaches (ids : List Nat) : State :=
  ids.foldl (fun s id => s.atChunk id fun c =>
    if c.status.hasFlag .allocated then
      { s with chunks := s.chunks.put id { c with swapBuf := false } }
    else s) s

/-- The swap takes those of the chunks that can be evicted; the bytes are what it reports, unless
it throws. -/
def evict (swap : ManagedSwap) : List Answer → State → State × Option Nat
  | [], s => (s, some 0)
  | .throws :: _, s => (s, none)
  | .cleans ids :: answers, s => evict swap answers (s.dropCaches ids)
  | .takes id :: answers, s =>
      match s.chunks.get? id with
      | some c =>
          if c.status = .allocated ∧ c.useCnt = 0 then
            let (t, realUnloaded) := evict swap answers (s.swapOutChunk swap id c)
            (t, realUnloaded.map (c.size + ·))
          else evict swap answers s
      | none => evict swap answers s

def load (swap : ManagedSwap) (allocates : Nat → Bool) (ids : List Nat) : State :=
  ids.foldl (fun s id => s.atChunk id fun c =>
    if allocates id then s.swapInChunk swap id c else s) s

/-! ### The manager -/

/-- `swapOut ( min_size )`. -/
def swapOut (swap : ManagedSwap) (minSize : Nat) (chosen : List Answer) : State × Unloading :=
  if s.memoryMax < minSize then (s, .failed)
  else
    match evict swap chosen s with
    | (t, some realUnloaded) =>
        (t, if realUnloaded ≠ 0 ∧ minSize ≤ realUnloaded then .done else .failed)
    | (t, none) => (t, .threw)

/-- `orisSwappedin` is resident or will be. -/
def isThere (orisSwappedin : Option Nat) : Bool :=
  match orisSwappedin.bind s.chunks.get? with
  | some c => c.status.hasFlag .allocated || c.status = .swapin
  | none => false

/-- One turn of the loop in `ensureEnoughSpace`; `false` when it throws. -/
def turn (swap : ManagedSwap) (sizereq : Nat) (r : Round) : State × Bool :=
  if s.memoryMax < sizereq + s.memoryUsed - s.memoryTobefreed then
    match s.swapOut swap (sizereq - (s.memoryMax - s.memoryUsed) - s.memoryTobefreed).toNat
        r.chosen with
    | (t, .threw) => (t, false)
    | (t, _) => ((t.dropCaches r.cleaned).arrive r.arrived, true)
  else (s.arrive r.arrived, true)

/-- The loop throws, or waits on, when nothing more happens. -/
def ensureEnoughSpace (swap : ManagedSwap) (sizereq : Nat) (orisSwappedin : Option Nat) :
    List Round → State → State × Room
  | rounds, s =>
      if s.memoryMax < sizereq + s.memoryUsed ∧ s.isThere orisSwappedin = false then
        match rounds with
        | [] => (s, .threw)
        | r :: rounds =>
            match s.turn swap sizereq r with
            | (t, true) => ensureEnoughSpace swap sizereq orisSwappedin rounds t
            | (t, false) => (t, .threw)
      else (s, if s.isThere orisSwappedin then .alreadyThere else .enough)

/-- `mmalloc`; a throw leaves what was evicted. -/
def mmalloc (swap : ManagedSwap) (memoryAlignment sizereq : Nat) (rounds : List Round) : State :=
  let size := sizereq +
    if sizereq % memoryAlignment = 0 then 0 else memoryAlignment - sizereq % memoryAlignment
  match ensureEnoughSpace swap size none rounds s with
  | (s, .enough) =>
      { s with
        memoryUsed := s.memoryUsed + size
        memIDPace := s.memIDPace + 1
        chunks := s.chunks.put s.memIDPace ⟨.fresh, size, false⟩ }
  | (s, _) => s

/-- `mfree`; `pffree` waits for the chunk's own transfer, and others complete meanwhile. -/
def mfree (id : Nat) (arrived : List Nat) : State :=
  s.atChunk id fun c =>
    if c.status.hasFlag .allocatedInuse then s
    else
      let s := if c.status = .allocated then { s with memoryUsed := s.memoryUsed - c.size } else s
      let s := (s.arrive arrived).arrive [id]
      { s with chunks := s.chunks.remove id }

/-- The selection loops of `swapIn`. -/
def select (maxPreemptive targetReadinVol : Nat) : List Nat → Nat → Nat → List Nat
  | [], _, _ => []
  | id :: walk, selectedReadinVol, preemptivelySelected =>
      match s.chunks.get? id with
      | some c =>
          if selectedReadinVol + c.size + s.memoryUsed ≤ s.memoryMax ∧ c.status = .swapped ∧
              (selectedReadinVol = 0 ∨ preemptivelySelected + c.size ≤ maxPreemptive) then
            let preemptively :=
              if 0 < selectedReadinVol then preemptivelySelected + c.size else preemptivelySelected
            let selected := selectedReadinVol + c.size
            if targetReadinVol ≤ selected ∨ (0 < selected ∧ preemptively = maxPreemptive) then [id]
            else id :: select maxPreemptive targetReadinVol walk selected preemptively
          else select maxPreemptive targetReadinVol walk selectedReadinVol preemptivelySelected
      | none => select maxPreemptive targetReadinVol walk selectedReadinVol preemptivelySelected

/-- Room for the volume of a preemptive `swapIn`, or at least for the chunk. -/
def makeRoom (swap : ManagedSwap) (id size : Nat) (l : Loading) : State × Room × Nat :=
  if s.memoryMax < l.targetReadinVol + s.memoryUsed then
    match s.swapOut swap l.targetSwapoutVol l.chosen with
    | (s, .threw) => (s, .threw, l.targetSwapoutVol)
    | (s, .done) =>
        let (s, room) := ensureEnoughSpace swap l.targetSwapoutVol (some id) l.rounds s
        (s, room, l.targetSwapoutVol)
    | (s, .failed) =>
        match ensureEnoughSpace swap size (some id) l.retried s with
        | (s, .enough) =>
            let (s, room) := ensureEnoughSpace swap size (some id) l.rounds s
            (s, room, size)
        | (s, room) => (s, room, size)
  else (s, .enough, l.targetReadinVol)

/-- `swapIn` behind `decay`. -/
def swapInDecayed (swap : ManagedSwap) (id size : Nat) (l : Loading) : State :=
  if l.preemptive then
    match s.makeRoom swap id size l with
    | (s, .enough, targetReadinVol) =>
        s.load swap l.allocates (s.select l.maxPreemptive targetReadinVol l.walk 0 0)
    | (s, _, _) => s
  else
    match ensureEnoughSpace swap size (some id) l.rounds s with
    | (s, .enough) => s.load swap l.allocates [id]
    | (s, _) => s

/-- `cyclicManagedMemory::swapIn`. -/
def swapIn (swap : ManagedSwap) (id : Nat) (l : Loading) : State :=
  s.atChunk id fun c =>
    if c.status.hasFlag .allocated ∨ c.status = .swapin then s
    else
      match evict swap l.decayed s with
      | (s, none) => s
      | (s, some _) => s.swapInDecayed swap id c.size l

/-- What `setUse` and `unsetUse` do to the chunk itself. -/
def use (id : Nat) (status : MemoryStatus) (useCnt : UInt16) : State :=
  s.atChunk id fun c =>
    if status = c.status ∨ (status.hasFlag .allocated ∧ c.status.hasFlag .allocated) then
      { s with chunks := s.chunks.put id { c with status, useCnt } }
    else s

/-- `setMemoryLimit`; without a result when the swap throws. -/
def setMemoryLimit (swap : ManagedSwap) (size : Nat) (chosen further : List Answer) :
    State × Option Bool :=
  if s.memoryMax < size then ({ s with memoryMax := size }, some true)
  else if size < s.memoryUsed then
    match s.swapOut swap (s.memoryUsed - size).toNat chosen with
    | (s, .done) =>
        match { s with memoryMax := size }.swapOut swap 0 further with
        | (s, .threw) => (s, none)
        | (s, _) => (s, some true)
    | (s, .failed) => (s, some false)
    | (s, .threw) => (s, none)
  else ({ s with memoryMax := size }, some true)

end State

/-- An operation of the manager, or transfers that complete between two of them. -/
inductive Op where
  | mmalloc (sizereq : Nat) (rounds : List Round)
  | mfree (id : Nat) (arrived : List Nat)
  /-- `prepareUse` or `setUse` of a swapped chunk. -/
  | swapIn (id : Nat) (loading : Loading)
  | use (id : Nat) (status : MemoryStatus) (useCnt : UInt16)
  /-- The `swapOut` in `untouch`, behind `unsetUse`. -/
  | untouch (tryFree : Nat) (chosen : List Answer)
  | setMemoryLimit (size : Nat) (chosen further : List Answer)
  | invalidateCache (ids : List Nat)
  | arrive (ids : List Nat)

def step (swap : ManagedSwap) (memoryAlignment : Nat) (s : State) : Op → State
  | .mmalloc sizereq rounds => s.mmalloc swap memoryAlignment sizereq rounds
  | .mfree id arrived => s.mfree id arrived
  | .swapIn id loading => s.swapIn swap id loading
  | .use id status useCnt => s.use id status useCnt
  | .untouch tryFree chosen => (s.swapOut swap tryFree chosen).1
  | .setMemoryLimit size chosen further => (s.setMemoryLimit swap size chosen further).1
  | .invalidateCache ids => s.dropCaches ids
  | .arrive ids => s.arrive ids

/-- A manager without chunks. -/
def init (memoryMax : Nat) : State := ⟨.empty, 1, 0, 0, memoryMax⟩

variable {s t u : State} {swap : ManagedSwap}

/-! ### What is kept -/

/-- The bytes of a chunk that `memory_tobefreed` counts. -/
def swapoutBytes (c : Chunk) : Nat := if c.status = .swapout then c.size else 0

structure Inv (s : State) : Prop where
  tobefreed : s.memoryTobefreed = s.chunks.total swapoutBytes
  fresh : ∀ id c, s.chunks.get? id = some c → id < s.memIDPace

/-- What `memory_used` will still count when every write has completed. -/
def State.claimed (s : State) : Int := s.memoryUsed - s.memoryTobefreed

/-- The size of a chunk. -/
def State.sizeOf (s : State) (id : Nat) : Nat := ((s.chunks.get? id).map Chunk.size).getD 0

structure Kept (s t : State) : Prop where
  inv : Inv s → Inv t
  memoryMax : t.memoryMax = s.memoryMax
  used : t.memoryUsed ≤ s.memoryUsed
  claimed : t.claimed ≤ s.claimed
  sizes : t.sizeOf = s.sizeOf

theorem Kept.refl (s : State) : Kept s s := ⟨fun h => h, rfl, le_rfl, le_rfl, rfl⟩

theorem Kept.trans (first : Kept s t) (second : Kept t u) : Kept s u where
  inv h := second.inv (first.inv h)
  memoryMax := second.memoryMax.trans first.memoryMax
  used := second.used.trans first.used
  claimed := second.claimed.trans first.claimed
  sizes := second.sizes.trans first.sizes

/-- An operation on a list of chunks keeps what it keeps on each. -/
theorem kept_foldl {f : State → Nat → State} (each : ∀ s id, Kept s (f s id)) (ids : List Nat)
    (s : State) : Kept s (ids.foldl f s) := by
  induction ids generalizing s with
  | nil => exact .refl s
  | cons id ids ih => exact (each s id).trans (ih (f s id))

theorem Inv.put {id : Nat} {c d : Chunk} (h : Inv s) (found : s.chunks.get? id = some c)
    (used tobefreed : Int)
    (moved : tobefreed + swapoutBytes c = s.memoryTobefreed + swapoutBytes d) :
    Inv { s with
      chunks := s.chunks.put id d
      memoryUsed := used
      memoryTobefreed := tobefreed } where
  tobefreed := by
    have total := Table.total_put swapoutBytes found d
    have before := h.tobefreed
    show tobefreed = ((s.chunks.put id d).total swapoutBytes : Int)
    omega
  fresh j e foundJ := by
    rw [Table.get?_put] at foundJ
    split at foundJ
    · rename_i same
      rw [same]
      exact h.fresh id c found
    · exact h.fresh j e foundJ

theorem sizeOf_put {id : Nat} {c d : Chunk} (found : s.chunks.get? id = some c)
    (size : d.size = c.size) (used tobefreed : Int) :
    State.sizeOf { s with
      chunks := s.chunks.put id d
      memoryUsed := used
      memoryTobefreed := tobefreed } = s.sizeOf := by
  funext j
  simp only [State.sizeOf, Table.get?_put]
  split
  · rename_i same
    rw [same, found, Option.map_some, Option.map_some, size]
  · rfl

theorem kept_swapOutChunk {id : Nat} {c : Chunk} (found : s.chunks.get? id = some c)
    (resident : c.status = .allocated) :
    Kept s (s.swapOutChunk swap id c) ∧
      (s.swapOutChunk swap id c).claimed = s.claimed - c.size := by
  have zero : swapoutBytes c = 0 := by simp [swapoutBytes, resident]
  unfold State.swapOutChunk
  split_ifs
  · have claimed : s.memoryUsed - (s.memoryTobefreed + c.size) = s.claimed - c.size := by
      rw [State.claimed]
      omega
    refine ⟨⟨fun h => h.put found _ _ ?_, rfl, le_rfl, ?_,
      sizeOf_put found (by rfl) _ _⟩, claimed⟩
    · rw [zero]
      simp [swapoutBytes]
    · exact claimed.le.trans (by omega)
  · have claimed : s.memoryUsed - c.size - s.memoryTobefreed = s.claimed - c.size := by
      rw [State.claimed]
      omega
    refine ⟨⟨fun h => h.put found _ _ ?_, rfl, ?_, ?_, sizeOf_put found (by rfl) _ _⟩, claimed⟩
    · rw [zero]
      simp [swapoutBytes]
    · show s.memoryUsed - c.size ≤ s.memoryUsed
      omega
    · exact claimed.le.trans (by omega)

/-- The chunk that `complete` leaves is the one of `SwapEvent.complete`. -/
theorem complete_chunk {id : Nat} {c : Chunk} (found : s.chunks.get? id = some c) :
    ((s.complete id c).chunks.get? id).map Chunk.toManagedMemoryChunk =
      some ((SwapEvent.complete.apply c.toManagedMemoryChunk).getD c.toManagedMemoryChunk) := by
  unfold State.complete SwapEvent.apply
  cases status : c.status <;> simp [found, status]

theorem kept_complete {id : Nat} {c : Chunk} (found : s.chunks.get? id = some c) :
    Kept s (s.complete id c) := by
  unfold State.complete
  split
  · rename_i loading
    refine ⟨fun h => h.put found _ _ ?_, rfl, le_rfl, le_rfl, sizeOf_put found (by rfl) _ _⟩
    have zero : swapoutBytes c = 0 := by simp [swapoutBytes, loading]
    rw [zero]
    by_cases idle : c.useCnt = 0 <;> simp [swapoutBytes, idle]
  · rename_i writing
    refine ⟨fun h => h.put found _ _ ?_, rfl, ?_, ?_, sizeOf_put found (by rfl) _ _⟩
    · simp [swapoutBytes, writing]
    · show s.memoryUsed - c.size ≤ s.memoryUsed
      omega
    · show s.memoryUsed - c.size - (s.memoryTobefreed - c.size) ≤
        s.memoryUsed - s.memoryTobefreed
      omega
  · exact .refl s

theorem kept_at {id : Nat} {f : Chunk → State}
    (each : ∀ c, s.chunks.get? id = some c → Kept s (f c)) : Kept s (s.atChunk id f) := by
  unfold State.atChunk
  split
  · rename_i c found
    exact each c found
  · exact .refl s

theorem kept_arrive (s : State) (ids : List Nat) : Kept s (s.arrive ids) :=
  kept_foldl (fun _ _ => kept_at fun _ found => kept_complete found) ids s

theorem kept_dropCaches (s : State) (ids : List Nat) : Kept s (s.dropCaches ids) := by
  refine kept_foldl (fun s id => kept_at fun c found => ?_) ids s
  split_ifs
  · exact ⟨fun h => h.put found _ _ rfl, rfl, le_rfl, le_rfl, sizeOf_put found (by rfl) _ _⟩
  · exact .refl s

/-- What is reported as unloaded is no longer claimed. -/
theorem evict_spec (swap : ManagedSwap) (answers : List Answer) (s : State) :
    Kept s (State.evict swap answers s).1 ∧ ∀ bytes, (State.evict swap answers s).2 = some bytes →
      (State.evict swap answers s).1.claimed ≤ s.claimed - bytes := by
  induction answers generalizing s with
  | nil =>
      refine ⟨.refl s, fun bytes all => ?_⟩
      obtain rfl := Option.some.inj all
      exact (sub_zero _).ge
  | cons answer answers ih =>
      cases answer with
      | throws => exact ⟨.refl s, fun bytes none => by cases none⟩
      | cleans ids =>
          have cleaned := kept_dropCaches s ids
          obtain ⟨rest, claimed⟩ := ih (s.dropCaches ids)
          refine ⟨cleaned.trans rest, fun bytes all => (claimed bytes all).trans ?_⟩
          exact Int.sub_le_sub_right cleaned.claimed _
      | takes id =>
          rw [State.evict]
          split
          · rename_i c found
            split_ifs with eligible
            · have chunk : Kept s (s.swapOutChunk swap id c) ∧
                  (s.swapOutChunk swap id c).claimed = s.claimed - c.size :=
                kept_swapOutChunk found eligible.1
              obtain ⟨kept, claimed⟩ := chunk
              obtain ⟨rest, claimed'⟩ := ih (s.swapOutChunk swap id c)
              refine ⟨kept.trans rest, fun bytes all => ?_⟩
              obtain ⟨others, taken, rfl⟩ := Option.map_eq_some_iff.mp all
              have behind := claimed' others taken
              rw [claimed] at behind
              push_cast
              exact behind.trans_eq (by ring)
            · exact ih s
          · exact ih s

theorem kept_swapOut (s : State) (swap : ManagedSwap) (minSize : Nat) (chosen : List Answer) :
    Kept s (s.swapOut swap minSize chosen).1 := by
  have evicted := (evict_spec swap chosen s).1
  unfold State.swapOut
  split_ifs
  · exact .refl s
  · split <;> rename_i is <;> rw [is] at evicted <;> exact evicted

/-- A successful `swapOut` has taken `min_size` bytes off. -/
theorem swapOut_success {minSize : Nat} {chosen : List Answer}
    (success : (s.swapOut swap minSize chosen).2 = .done) :
    (s.swapOut swap minSize chosen).1.claimed ≤ s.claimed - minSize := by
  have evicted := (evict_spec swap chosen s).2
  unfold State.swapOut at success ⊢
  split_ifs at success ⊢
  split at success
  · rename_i t bytes is
    rw [is] at evicted
    have claimed := evicted bytes rfl
    split_ifs at success with enough
    have unloaded : (minSize : Int) ≤ bytes := Int.ofNat_le.mpr enough.2
    exact claimed.trans (Int.sub_le_sub_left unloaded _)
  · cases success

/-! ### Room -/

theorem kept_turn (s : State) (swap : ManagedSwap) (sizereq : Nat) (r : Round) :
    Kept s (s.turn swap sizereq r).1 := by
  unfold State.turn
  split_ifs
  · have evicted := kept_swapOut s swap
      (sizereq - (s.memoryMax - s.memoryUsed) - s.memoryTobefreed).toNat r.chosen
    split
    · rename_i t is
      rw [is] at evicted
      exact evicted
    · rename_i t _ _ is
      rw [is] at evicted
      exact (evicted.trans (kept_dropCaches t r.cleaned)).trans (kept_arrive _ r.arrived)
  · exact kept_arrive s r.arrived

/-- `ensureEnoughSpace` raises nothing, and when it returns `false` there is room. -/
theorem ensureEnoughSpace_spec (swap : ManagedSwap) (sizereq : Nat) (orisSwappedin : Option Nat)
    (rounds : List Round) (s : State) :
    Kept s (State.ensureEnoughSpace swap sizereq orisSwappedin rounds s).1 ∧
      ((State.ensureEnoughSpace swap sizereq orisSwappedin rounds s).2 = .enough →
        sizereq + (State.ensureEnoughSpace swap sizereq orisSwappedin rounds s).1.memoryUsed ≤
          s.memoryMax) := by
  induction rounds generalizing s with
  | nil =>
      unfold State.ensureEnoughSpace
      split
      · exact ⟨.refl s, fun room => by cases room⟩
      · rename_i stays
        refine ⟨.refl s, fun room => ?_⟩
        cases there : s.isThere orisSwappedin with
        | true => simp [there] at room
        | false =>
            simp only [there, and_true] at stays
            exact Int.not_lt.mp stays
  | cons r rounds ih =>
      unfold State.ensureEnoughSpace
      split
      · have turned := kept_turn s swap sizereq r
        dsimp only
        split
        · rename_i t is
          rw [is] at turned
          obtain ⟨kept, room⟩ := ih t
          exact ⟨turned.trans kept, fun enough => (room enough).trans_eq
            (congrArg Nat.cast turned.memoryMax)⟩
        · rename_i t is
          rw [is] at turned
          exact ⟨turned, fun room => by cases room⟩
      · rename_i stays
        refine ⟨.refl s, fun room => ?_⟩
        cases there : s.isThere orisSwappedin with
        | true => simp [there] at room
        | false =>
            simp only [there, and_true] at stays
            exact Int.not_lt.mp stays

/-- `memory_used` has not grown, or is within the limit. -/
structure Fits (s t : State) : Prop where
  inv : Inv s → Inv t
  memoryMax : t.memoryMax = s.memoryMax
  within : (t.memoryUsed ≤ s.memoryUsed ∧ t.claimed ≤ s.claimed) ∨ t.memoryUsed ≤ t.memoryMax

theorem Kept.fits (kept : Kept s t) : Fits s t :=
  ⟨kept.inv, kept.memoryMax, .inl ⟨kept.used, kept.claimed⟩⟩

theorem Kept.then (first : Kept s t) (second : Fits t u) : Fits s u where
  inv h := second.inv (first.inv h)
  memoryMax := second.memoryMax.trans first.memoryMax
  within := second.within.imp_left fun lower =>
    ⟨lower.1.trans first.used, lower.2.trans first.claimed⟩

theorem fits_mmalloc (s : State) (swap : ManagedSwap) (memoryAlignment sizereq : Nat)
    (rounds : List Round) : Fits s (s.mmalloc swap memoryAlignment sizereq rounds) := by
  simp only [State.mmalloc]
  generalize sizereq + (if sizereq % memoryAlignment = 0 then 0
    else memoryAlignment - sizereq % memoryAlignment) = size
  obtain ⟨kept, room⟩ := ensureEnoughSpace_spec swap size none rounds s
  split
  · rename_i t is
    rw [is] at kept room
    refine kept.then ⟨fun h => ⟨?_, fun id c found => ?_⟩, rfl, .inr ?_⟩
    · have absent : t.chunks.get? t.memIDPace = none := by
        cases found : t.chunks.get? t.memIDPace with
        | none => rfl
        | some c => exact absurd (h.fresh _ c found) (Nat.lt_irrefl _)
      show t.memoryTobefreed = _
      rw [Table.total_put_new swapoutBytes absent, h.tobefreed]
      simp [swapoutBytes, ManagedMemoryChunk.fresh]
    · rw [Table.get?_put] at found
      show id < t.memIDPace + 1
      split at found
      · omega
      · exact Nat.lt_succ_of_lt (h.fresh id c found)
    · show t.memoryUsed + size ≤ t.memoryMax
      have max : t.memoryMax = s.memoryMax := kept.memoryMax
      have enough : size + t.memoryUsed ≤ (s.memoryMax : Int) := room rfl
      rw [max]
      omega
  · rename_i t room' _ is
    rw [is] at kept
    exact kept.fits

/-! ### `swapIn` -/

def State.sizes (s : State) (ids : List Nat) : Nat := (ids.map s.sizeOf).sum

/-- Loading raises `memory_used` by no more than the sizes. -/
structure Loaded (s t : State) (bytes : Nat) : Prop where
  inv : Inv s → Inv t
  memoryMax : t.memoryMax = s.memoryMax
  used : t.memoryUsed ≤ s.memoryUsed + bytes
  sizes : t.sizeOf = s.sizeOf

theorem loaded_chunk {id : Nat} {c : Chunk} (found : s.chunks.get? id = some c) :
    Loaded s (s.swapInChunk swap id c) c.size := by
  unfold State.swapInChunk
  split_ifs with stored file
  · exact ⟨fun h => h.put found _ _ (by simp [swapoutBytes, stored.1]), rfl, le_rfl,
      sizeOf_put found (by rfl) _ _⟩
  · exact ⟨fun h => h.put found _ _ (by simp [swapoutBytes, stored.1]), rfl, le_rfl,
      sizeOf_put found (by rfl) _ _⟩
  · exact ⟨fun h => h, rfl, by omega, rfl⟩

theorem loaded_load (swap : ManagedSwap) (allocates : Nat → Bool) (ids : List Nat) (s : State) :
    Loaded s (s.load swap allocates ids) (s.sizes ids) := by
  induction ids generalizing s with
  | nil => exact ⟨fun h => h, rfl, (add_zero _).ge, rfl⟩
  | cons id ids ih =>
      have one : Loaded s (s.atChunk id fun c =>
          if allocates id then s.swapInChunk swap id c else s) (s.sizeOf id) := by
        unfold State.atChunk
        split
        · rename_i c found
          have size : s.sizeOf id = c.size := by rw [State.sizeOf, found]; rfl
          rw [size]
          dsimp only
          split_ifs
          · exact loaded_chunk found
          · exact ⟨fun h => h, rfl, by omega, rfl⟩
        · exact ⟨fun h => h, rfl, by omega, rfl⟩
      have rest := ih (s.atChunk id fun c => if allocates id then s.swapInChunk swap id c else s)
      refine ⟨fun h => rest.inv (one.inv h), rest.memoryMax.trans one.memoryMax, ?_,
        rest.sizes.trans one.sizes⟩
      have used := rest.used
      have first := one.used
      simp only [State.sizes, one.sizes] at used
      simp only [State.sizes, List.map_cons, List.sum_cons]
      push_cast at used ⊢
      exact used.trans (by omega)

/-- What is selected fits, all of it together. -/
theorem select_fits (s : State) (maxPreemptive target : Nat) (walk : List Nat) :
    ∀ (selected preemptively : Nat), s.select maxPreemptive target walk selected preemptively ≠ [] →
      selected + s.sizes (s.select maxPreemptive target walk selected preemptively) +
        s.memoryUsed ≤ s.memoryMax := by
  induction walk with
  | nil =>
      intro selected preemptively nonempty
      exact absurd rfl nonempty
  | cons id walk ih =>
      intro selected preemptively nonempty
      rw [State.select] at nonempty ⊢
      cases found : s.chunks.get? id with
      | none =>
          simp only [found] at nonempty ⊢
          exact ih selected preemptively nonempty
      | some c =>
          simp only [found] at nonempty ⊢
          have alone : s.sizes [id] = c.size := by
            simp [State.sizes, State.sizeOf, found]
          by_cases fits : selected + c.size + s.memoryUsed ≤ s.memoryMax ∧ c.status = .swapped ∧
              (selected = 0 ∨ preemptively + c.size ≤ maxPreemptive)
          · simp only [if_pos fits]
            generalize (if 0 < selected then preemptively + c.size else preemptively) = preemptive
            by_cases full : target ≤ selected + c.size ∨
                (0 < selected + c.size ∧ preemptive = maxPreemptive)
            · rw [if_pos full, alone]
              exact fits.1
            · rw [if_neg full]
              by_cases last : s.select maxPreemptive target walk (selected + c.size) preemptive = []
              · rw [last, alone]
                exact fits.1
              · have rest := ih (selected + c.size) preemptive last
                have cons : ∀ l, s.sizes (id :: l) = c.size + s.sizes l := fun l => by
                  simp [State.sizes, State.sizeOf, found]
                rw [cons]
                push_cast at rest ⊢
                omega
          · simp only [if_neg fits] at nonempty ⊢
            exact ih selected preemptively nonempty

/-- Loading what fits stays within the limit. -/
theorem Loaded.fits {bytes : Nat} (loaded : Loaded s t bytes)
    (room : bytes + s.memoryUsed ≤ s.memoryMax) : Fits s t := by
  refine ⟨loaded.inv, loaded.memoryMax, .inr ?_⟩
  have used := loaded.used
  rw [loaded.memoryMax]
  omega

theorem kept_makeRoom (s : State) (swap : ManagedSwap) (id size : Nat) (l : Loading) :
    Kept s (s.makeRoom swap id size l).1 := by
  unfold State.makeRoom
  split_ifs
  · have evicted := kept_swapOut s swap l.targetSwapoutVol l.chosen
    split
    · rename_i t is
      rw [is] at evicted
      exact evicted
    · rename_i t is
      rw [is] at evicted
      exact evicted.trans
        (ensureEnoughSpace_spec swap l.targetSwapoutVol (some id) l.rounds t).1
    · rename_i t is
      rw [is] at evicted
      have retried := (ensureEnoughSpace_spec swap size (some id) l.retried t).1
      split
      · rename_i u is'
        rw [is'] at retried
        exact (evicted.trans retried).trans
          (ensureEnoughSpace_spec swap size (some id) l.rounds u).1
      · rename_i u _ _ is'
        rw [is'] at retried
        exact evicted.trans retried
  · exact .refl s

theorem fits_swapInDecayed (s : State) (swap : ManagedSwap) (id : Nat) (l : Loading) :
    Fits s (s.swapInDecayed swap id (s.sizeOf id) l) := by
  unfold State.swapInDecayed
  split_ifs with preemptive
  · have made := kept_makeRoom s swap id (s.sizeOf id) l
    split
    · rename_i t target is
      rw [is] at made
      apply made.then
      -- all that is selected fits, or nothing is
      have loaded := loaded_load swap l.allocates (t.select l.maxPreemptive target l.walk 0 0) t
      by_cases empty : t.select l.maxPreemptive target l.walk 0 0 = []
      · rw [empty]
        exact (Kept.refl t).fits
      · have room := select_fits t l.maxPreemptive target l.walk 0 0 empty
        exact loaded.fits (by push_cast at room; omega)
    · rename_i t _ _ _ is
      rw [is] at made
      exact made.fits
  · obtain ⟨kept, room⟩ := ensureEnoughSpace_spec swap (s.sizeOf id) (some id) l.rounds s
    split
    · rename_i t is
      rw [is] at kept room
      refine kept.then ((loaded_load swap l.allocates [id] t).fits ?_)
      have max : t.memoryMax = s.memoryMax := kept.memoryMax
      have enough : s.sizeOf id + t.memoryUsed ≤ (s.memoryMax : Int) := room rfl
      have same : t.sizeOf = s.sizeOf := kept.sizes
      simp only [State.sizes, List.map_cons, List.map_nil, List.sum_cons, List.sum_nil,
        add_zero, same, max]
      exact enough
    · rename_i t _ _ is
      rw [is] at kept
      exact kept.fits

theorem fits_swapIn (s : State) (swap : ManagedSwap) (id : Nat) (l : Loading) :
    Fits s (s.swapIn swap id l) := by
  unfold State.swapIn State.atChunk
  cases found : s.chunks.get? id with
  | none => exact (Kept.refl s).fits
  | some c =>
      dsimp only
      split_ifs with there
      · exact (Kept.refl s).fits
      · have decayed := (evict_spec swap l.decayed s).1
        split
        · rename_i t is
          rw [is] at decayed
          exact decayed.fits
        · rename_i t bytes is
          rw [is] at decayed
          have size : t.sizeOf id = c.size := by
            rw [decayed.sizes, State.sizeOf, found]
            rfl
          rw [← size]
          exact decayed.then (fits_swapInDecayed t swap id l)

/-! ### The other operations -/

theorem kept_use (s : State) (id : Nat) (status : MemoryStatus) (useCnt : UInt16) :
    Kept s (s.use id status useCnt) := by
  refine kept_at fun c found => ?_
  split_ifs with allowed
  · refine ⟨fun h => h.put found _ _ ?_, rfl, le_rfl, le_rfl, sizeOf_put found (by rfl) _ _⟩
    rcases allowed with rfl | ⟨resident, resident'⟩
    · rfl
    · have never : ∀ st : MemoryStatus, st.hasFlag .allocated = true → st ≠ .swapout := by
        rintro st flag rfl
        cases flag
      simp [swapoutBytes, never _ resident, never _ resident']
  · exact .refl s

/-- A chunk whose transfer has completed is not waiting to be freed. -/
theorem complete_idle {id : Nat} {c : Chunk} (found : (s.arrive [id]).chunks.get? id = some c) :
    c.status ≠ .swapout := by
  simp only [State.arrive, List.foldl_cons, List.foldl_nil, State.atChunk] at found
  split at found
  · rename_i d before
    unfold State.complete at found
    split at found
    · rw [Table.get?_put, if_pos rfl] at found
      cases found
      dsimp only
      split_ifs <;> decide
    · rw [Table.get?_put, if_pos rfl] at found
      cases found
      intro eq
      cases eq
    · rename_i notIn notOut
      rw [before] at found
      cases found
      exact notOut
  · rename_i absent
    rw [absent] at found
    cases found

theorem Inv.remove {id : Nat} (h : Inv s)
    (idle : ∀ c, s.chunks.get? id = some c → c.status ≠ .swapout) :
    Inv { s with chunks := s.chunks.remove id } where
  tobefreed := by
    show s.memoryTobefreed = ((s.chunks.remove id).total swapoutBytes : Int)
    rw [h.tobefreed]
    cases found : s.chunks.get? id with
    | none => rw [Table.total, Table.total, Table.remove_of_get?_none found]
    | some c =>
        have total := Table.total_remove swapoutBytes found
        have zero : swapoutBytes c = 0 := by simp [swapoutBytes, idle c found]
        omega
  fresh j c found := h.fresh j c (Table.of_get?_remove found).2

/-- `mfree` has let the chunk's transfer complete, so it is not in `memory_tobefreed`. -/
theorem fits_mfree (s : State) (id : Nat) (arrived : List Nat) : Fits s (s.mfree id arrived) := by
  have freed : ∀ t, Kept s t →
      Fits s { (t.arrive arrived).arrive [id] with
        chunks := ((t.arrive arrived).arrive [id]).chunks.remove id } := by
    intro t kept
    have waited := (kept.trans (kept_arrive t arrived)).trans (kept_arrive _ [id])
    exact ⟨fun h => (waited.inv h).remove fun c => complete_idle, waited.memoryMax,
      .inl ⟨waited.used, waited.claimed⟩⟩
  unfold State.mfree State.atChunk
  cases found : s.chunks.get? id with
  | none => exact (Kept.refl s).fits
  | some c =>
      dsimp only
      split_ifs with inUse resident
      · exact (Kept.refl s).fits
      · refine freed _ ⟨fun h => ⟨h.tobefreed, h.fresh⟩, rfl, ?_, ?_, rfl⟩
        · show s.memoryUsed - c.size ≤ s.memoryUsed
          omega
        · show s.memoryUsed - c.size - s.memoryTobefreed ≤ s.memoryUsed - s.memoryTobefreed
          omega
      · exact freed s (.refl s)

theorem Inv.claimed_le (h : Inv s) : s.claimed ≤ s.memoryUsed := by
  have tobefreed := h.tobefreed
  rw [State.claimed]
  omega

/-- A lower limit is set only once enough has been unloaded for it. -/
theorem setMemoryLimit_spec (swap : ManagedSwap) (size : Nat) (chosen further : List Answer)
    (h : Inv s) (within : s.claimed ≤ s.memoryMax) :
    Inv (s.setMemoryLimit swap size chosen further).1 ∧
      (s.setMemoryLimit swap size chosen further).1.claimed ≤
        (s.setMemoryLimit swap size chosen further).1.memoryMax := by
  unfold State.setMemoryLimit
  split_ifs with more less
  · refine ⟨⟨h.tobefreed, h.fresh⟩, ?_⟩
    show s.claimed ≤ size
    omega
  · have kept := kept_swapOut s swap (s.memoryUsed - size).toNat chosen
    have refused : Inv (s.swapOut swap (s.memoryUsed - size).toNat chosen).1 ∧
        (s.swapOut swap (s.memoryUsed - size).toNat chosen).1.claimed ≤
          (s.swapOut swap (s.memoryUsed - size).toNat chosen).1.memoryMax := by
      rw [kept.memoryMax]
      exact ⟨kept.inv h, kept.claimed.trans within⟩
    split
    · rename_i t is
      have success : (s.swapOut swap (s.memoryUsed - size).toNat chosen).2 = .done := by rw [is]
      have claimed := swapOut_success success
      rw [is] at kept claimed
      have lowered := kept_swapOut { t with memoryMax := size } swap 0 further
      have inv := kept.inv h
      have tobefreed := h.tobefreed
      have unclaimed : t.claimed ≤ s.claimed - (s.memoryUsed - size).toNat := claimed
      have below : t.claimed ≤ size := by
        rw [State.claimed] at unclaimed ⊢
        rw [State.claimed] at unclaimed
        omega
      have both : Inv ({ t with memoryMax := size }.swapOut swap 0 further).1 ∧
          ({ t with memoryMax := size }.swapOut swap 0 further).1.claimed ≤
            ({ t with memoryMax := size }.swapOut swap 0 further).1.memoryMax := by
        rw [lowered.memoryMax]
        exact ⟨lowered.inv ⟨inv.tobefreed, inv.fresh⟩, lowered.claimed.trans below⟩
      split <;> rename_i is' <;> rw [is'] at both <;> exact both
    · rename_i t is
      rw [is] at refused
      exact refused
    · rename_i t is
      rw [is] at refused
      exact refused
  · refine ⟨⟨h.tobefreed, h.fresh⟩, ?_⟩
    have le := h.claimed_le
    show s.claimed ≤ size
    omega

/-! ### When the limit changes without a result -/

/-- The chunks that the swap is to take. -/
def taken : List Answer → Finset Nat
  | [] => ∅
  | .takes id :: answers => insert id (taken answers)
  | .cleans _ :: answers | .throws :: answers => taken answers

namespace State

/-- A chunk that can be evicted. -/
def isIdle (s : State) (id : Nat) : Bool :=
  match s.chunks.get? id with
  | some c => c.status = .allocated ∧ c.useCnt = 0
  | none => false

/-- The bytes of the chunks among these that can be evicted. -/
def unloadable (s : State) (answers : List Answer) : Nat :=
  ∑ id ∈ (taken answers).filter (s.isIdle ·), s.sizeOf id

end State

theorem isIdle_iff {id : Nat} : s.isIdle id = true ↔
    ∃ c, s.chunks.get? id = some c ∧ c.status = .allocated ∧ c.useCnt = 0 := by
  unfold State.isIdle
  split
  · rename_i c found
    rw [decide_eq_true_iff]
    constructor
    · exact fun idle => ⟨c, found, idle⟩
    · rintro ⟨d, found', idle⟩
      obtain rfl := Option.some.inj (found.symm.trans found')
      exact idle
  · rename_i absent
    constructor
    · exact fun idle => by cases idle
    · rintro ⟨c, found, _⟩
      rw [absent] at found
      cases found

theorem isIdle_put {id : Nat} {d : Chunk} (j : Nat) (used tobefreed : Int) :
    State.isIdle { s with
      chunks := s.chunks.put id d
      memoryUsed := used
      memoryTobefreed := tobefreed } j =
        if j = id then decide (d.status = .allocated ∧ d.useCnt = 0) else s.isIdle j := by
  simp only [State.isIdle, Table.get?_put]
  by_cases same : j = id <;> simp only [same, if_true, if_false]

theorem isIdle_dropCaches (s : State) (ids : List Nat) :
    (s.dropCaches ids).isIdle = s.isIdle := by
  induction ids generalizing s with
  | nil => rfl
  | cons id ids ih =>
      refine (ih _).trans (funext fun j => ?_)
      simp only [State.atChunk]
      split
      · rename_i c found
        split_ifs
        · rw [isIdle_put]
          by_cases same : j = id
          · simp only [same, if_true, State.isIdle, found]
          · rw [if_neg same]
        · rfl
      · rfl

theorem isIdle_swapOutChunk {id : Nat} {c : Chunk} (j : Nat) :
    (s.swapOutChunk swap id c).isIdle j = (s.isIdle j && decide (j ≠ id)) := by
  unfold State.swapOutChunk
  split_ifs <;> rw [isIdle_put] <;> by_cases same : j = id <;> simp [same]

theorem unloadable_congr {answers : List Answer} (idle : t.isIdle = s.isIdle)
    (sizes : t.sizeOf = s.sizeOf) : t.unloadable answers = s.unloadable answers := by
  rw [State.unloadable, State.unloadable, idle, sizes]

theorem unloadable_takes {id : Nat} {c : Chunk} {answers : List Answer}
    (found : s.chunks.get? id = some c) (eligible : c.status = .allocated ∧ c.useCnt = 0) :
    s.unloadable (.takes id :: answers) =
      c.size + (s.swapOutChunk swap id c).unloadable answers := by
  have idle : s.isIdle id = true := isIdle_iff.mpr ⟨c, found, eligible⟩
  have size : s.sizeOf id = c.size := by rw [State.sizeOf, found]; rfl
  have sizes : (s.swapOutChunk swap id c).sizeOf = s.sizeOf :=
    (kept_swapOutChunk found eligible.1).1.sizes
  have rest : (taken answers).filter ((s.swapOutChunk swap id c).isIdle ·) =
      ((taken answers).filter (s.isIdle ·)).erase id := by
    ext j
    simp only [Finset.mem_filter, Finset.mem_erase, isIdle_swapOutChunk, Bool.and_eq_true,
      decide_eq_true_eq]
    tauto
  rw [State.unloadable, State.unloadable, sizes, rest, taken, Finset.filter_insert, if_pos idle,
    ← Finset.add_sum_erase _ _ (Finset.mem_insert_self id _), Finset.erase_insert_eq_erase, size]

theorem unloadable_busy {id : Nat} {answers : List Answer} (busy : s.isIdle id = false) :
    s.unloadable (.takes id :: answers) = s.unloadable answers := by
  rw [State.unloadable, State.unloadable, taken, Finset.filter_insert, busy,
    if_neg Bool.false_ne_true]

/-- What the swap reports is fixed by the state before and by what it is to take. -/
theorem evict_bytes (swap : ManagedSwap) (answers : List Answer) (s : State) :
    (State.evict swap answers s).2 =
      if .throws ∈ answers then none else some (s.unloadable answers) := by
  induction answers generalizing s with
  | nil => rfl
  | cons answer answers ih =>
      cases answer with
      | throws => rw [if_pos List.mem_cons_self, State.evict]
      | cleans ids =>
          have same : (s.dropCaches ids).unloadable answers =
              s.unloadable (.cleans ids :: answers) :=
            unloadable_congr (isIdle_dropCaches s ids) (kept_dropCaches s ids).sizes
          simp only [State.evict, ih, same, List.mem_cons, reduceCtorEq, false_or]
      | takes id =>
          simp only [State.evict, List.mem_cons, reduceCtorEq, false_or]
          split
          · rename_i c found
            split_ifs with eligible throws throws
            · rw [ih, if_pos throws, Option.map_none]
            · rw [ih, if_neg throws, Option.map_some, unloadable_takes found eligible]
            · rw [ih, if_pos throws]
            · have busy : s.isIdle id = false := by
                simp only [State.isIdle, found, decide_eq_false_iff_not]
                exact eligible
              rw [ih, if_neg throws, unloadable_busy busy]
          · rename_i absent
            have busy : s.isIdle id = false := by
              simp only [State.isIdle, absent]
            rw [ih, unloadable_busy busy]

/-- `setMemoryLimit` comes to lower the limit, and the swap throws behind it. -/
structure ThrowsLowered (s : State) (size : Nat) (chosen further : List Answer) : Prop where
  lower : size < s.memoryMax
  used : size < s.memoryUsed
  request : s.memoryUsed - size ≤ s.memoryMax
  silent : .throws ∉ chosen
  unloaded : s.memoryUsed - size ≤ s.unloadable chosen
  throws : .throws ∈ further

theorem swapOut_ends (s : State) (swap : ManagedSwap) (minSize : Nat) (chosen : List Answer) :
    (s.swapOut swap minSize chosen).2 =
      if s.memoryMax < minSize then .failed
      else if .throws ∈ chosen then .threw
      else if s.unloadable chosen ≠ 0 ∧ minSize ≤ s.unloadable chosen then .done else .failed := by
  have bytes := evict_bytes swap chosen s
  unfold State.swapOut
  by_cases large : s.memoryMax < minSize
  · rw [if_pos large, if_pos large]
  · rw [if_neg large, if_neg large]
    generalize State.evict swap chosen s = evicted at bytes
    obtain ⟨t, reported⟩ := evicted
    obtain rfl : reported = _ := bytes
    by_cases throws : .throws ∈ chosen
    · simp only [if_pos throws]
    · simp only [if_neg throws]

theorem setMemoryLimit_returns_iff (s : State) (swap : ManagedSwap) (size : Nat)
    (chosen further : List Answer) :
    ((s.setMemoryLimit swap size chosen further).1.memoryMax ≠ s.memoryMax →
      (s.setMemoryLimit swap size chosen further).2 = some true) ↔
        ¬ ThrowsLowered s size chosen further := by
  unfold State.setMemoryLimit
  split_ifs with more less
  · exact iff_of_true (fun _ => rfl) fun throws => absurd throws.lower (by omega)
  · have kept := kept_swapOut s swap (s.memoryUsed - size).toNat chosen
    have result := swapOut_ends s swap (s.memoryUsed - size).toNat chosen
    -- the first `swapOut` is one that lets the call go on exactly under these conditions
    have goesOn : (s.swapOut swap (s.memoryUsed - size).toNat chosen).2 = .done ↔
        s.memoryUsed - size ≤ s.memoryMax ∧ .throws ∉ chosen ∧
          s.memoryUsed - size ≤ s.unloadable chosen := by
      rw [result]
      split_ifs with large throws enough
      · refine iff_of_false (by decide) ?_
        rintro ⟨request, _⟩
        omega
      · exact iff_of_false (by decide) fun ok => ok.2.1 throws
      · exact iff_of_true rfl ⟨by omega, throws, by omega⟩
      · refine iff_of_false (by decide) ?_
        rintro ⟨_, _, unloaded⟩
        exact enough ⟨by omega, by omega⟩
    split
    · rename_i t is
      rw [is] at kept goesOn
      obtain ⟨request, silent, unloaded⟩ := goesOn.mp rfl
      have lowered := kept_swapOut { t with memoryMax := size } swap 0 further
      have second := swapOut_ends { t with memoryMax := size } swap 0 further
      rw [if_neg (by simp)] at second
      split
      · rename_i u is'
        rw [is'] at lowered second
        have throws : .throws ∈ further := by
          by_contra silent'
          rw [if_neg silent'] at second
          split_ifs at second
        constructor
        · intro returns bad
          have same : u.memoryMax = size := lowered.memoryMax
          exact absurd (returns (by rw [same]; exact Nat.ne_of_lt bad.lower)) (by simp)
        · intro good changed
          have same : u.memoryMax = size := lowered.memoryMax
          rw [same] at changed
          exact absurd ⟨by omega, less, request, silent, unloaded, throws⟩ good
      · rename_i u r threw is'
        refine iff_of_true (fun _ => rfl) fun bad => ?_
        rw [is', if_pos bad.throws] at second
        exact threw second
    · rename_i t is
      rw [is] at kept goesOn
      refine iff_of_true (fun changed => absurd kept.memoryMax changed) fun bad => ?_
      cases goesOn.mpr ⟨bad.request, bad.silent, bad.unloaded⟩
    · rename_i t is
      rw [is] at kept goesOn
      refine iff_of_true (fun changed => absurd kept.memoryMax changed) fun bad => ?_
      cases goesOn.mpr ⟨bad.request, bad.silent, bad.unloaded⟩
  · exact iff_of_true (fun _ => rfl) fun throws => absurd throws.used less

def Op.setsLimit : Op → Bool
  | .setMemoryLimit _ _ _ => true
  | _ => false

theorem step_fits (s : State) (swap : ManagedSwap) (memoryAlignment : Nat) {op : Op}
    (not : op.setsLimit = false) : Fits s (step swap memoryAlignment s op) := by
  cases op with
  | mmalloc sizereq rounds => exact fits_mmalloc s swap memoryAlignment sizereq rounds
  | mfree id arrived => exact fits_mfree s id arrived
  | swapIn id loading => exact fits_swapIn s swap id loading
  | use id status useCnt => exact (kept_use s id status useCnt).fits
  | untouch tryFree chosen => exact (kept_swapOut s swap tryFree chosen).fits
  | setMemoryLimit size chosen further => cases not
  | invalidateCache ids => exact (kept_dropCaches s ids).fits
  | arrive ids => exact (kept_arrive s ids).fits

/-- The manager after a run. -/
def runFrom (swap : ManagedSwap) (memoryAlignment : Nat) (s : State) (ops : List Op) : State :=
  ops.foldl (step swap memoryAlignment) s

/-- One operation keeps the limit for what will not become free. -/
theorem step_within (swap : ManagedSwap) (memoryAlignment : Nat) (op : Op) (h : Inv s)
    (within : s.claimed ≤ s.memoryMax) :
    Inv (step swap memoryAlignment s op) ∧
      (step swap memoryAlignment s op).claimed ≤ (step swap memoryAlignment s op).memoryMax := by
  cases sets : op.setsLimit with
  | true =>
      cases op with
      | setMemoryLimit size chosen further =>
          exact setMemoryLimit_spec swap size chosen further h within
      | _ => cases sets
  | false =>
      have fits := step_fits s swap memoryAlignment sets
      have inv := fits.inv h
      refine ⟨inv, ?_⟩
      rcases fits.within with ⟨_, claimed⟩ | full
      · rw [fits.memoryMax]
        exact claimed.trans within
      · exact inv.claimed_le.trans full

theorem run_within (swap : ManagedSwap) (memoryAlignment : Nat) (ops : List Op) (h : Inv s)
    (within : s.claimed ≤ s.memoryMax) :
    Inv (runFrom swap memoryAlignment s ops) ∧
      (runFrom swap memoryAlignment s ops).claimed ≤
        (runFrom swap memoryAlignment s ops).memoryMax := by
  induction ops generalizing s with
  | nil => exact ⟨h, within⟩
  | cons op ops ih =>
      obtain ⟨inv, within⟩ := step_within swap memoryAlignment op h within
      exact ih inv within

/-- After every operation of a run, what `memory_used` counts beyond `memory_tobefreed` is within
the limit. From there, no operation but `setMemoryLimit` takes `memory_used` over the limit, or
changes the limit; and `setMemoryLimit` changes it only when it returns `true`, unless the swap
throws behind the new limit. -/
theorem memory_within_limit (swap : ManagedSwap) (memoryAlignment memoryMax : Nat)
    (ops : List Op) :
    let s := runFrom swap memoryAlignment (init memoryMax) ops
    s.memoryUsed - s.memoryTobefreed ≤ s.memoryMax ∧
      (∀ op, op.setsLimit = false →
        (step swap memoryAlignment s op).memoryMax = s.memoryMax ∧
        (s.memoryUsed ≤ s.memoryMax →
          (step swap memoryAlignment s op).memoryUsed ≤ s.memoryMax)) ∧
      ∀ size chosen further,
        ((s.setMemoryLimit swap size chosen further).1.memoryMax ≠ s.memoryMax →
          (s.setMemoryLimit swap size chosen further).2 = some true) ↔
            ¬ ThrowsLowered s size chosen further := by
  have start : Inv (init memoryMax) := ⟨rfl, fun id c found => by cases found⟩
  refine ⟨?_, fun op not => ?_, fun size chosen further => ?_⟩
  · exact (run_within swap memoryAlignment ops start (Int.natCast_nonneg memoryMax)).2
  · have fits := step_fits (runFrom swap memoryAlignment (init memoryMax) ops) swap
      memoryAlignment not
    refine ⟨fits.memoryMax, fun under => ?_⟩
    rcases fits.within with ⟨used, _⟩ | full
    · exact used.trans under
    · exact full.trans_eq (congrArg Nat.cast fits.memoryMax)
  · exact setMemoryLimit_returns_iff _ swap size chosen further

/-- The chunk of 40 bytes makes way for one of 400, which is freed, and is loaded for a use. Its
copy stays in the swap. -/
def cachedInUse : List Op :=
  [.mmalloc 40 [], .mmalloc 400 [⟨[.takes 1], [], [1]⟩], .mfree 2 [],
    .swapIn 1 ⟨[], true, 80, 0, 40, [], [], [], [1], fun _ => true⟩, .arrive [1],
    .use 1 .allocatedInuseRead 1, .mmalloc 100 [], .mmalloc 100 [], .mmalloc 100 [], .mmalloc 60 []]

/-- The second `swapOut` takes one chunk and finds no space for the next one. -/
theorem limit_lowered_by_throw : ¬ ∀ (swap : ManagedSwap) (memoryAlignment memoryMax : Nat)
    (ops : List Op) (size : Nat) (chosen further : List Answer),
    let s := runFrom swap memoryAlignment (init memoryMax) ops
    (s.setMemoryLimit swap size chosen further).1.memoryMax ≠ s.memoryMax →
      (s.setMemoryLimit swap size chosen further).2 = some true := by
  intro claim
  have returned := claim .file 1 400 cachedInUse 300 [.takes 3] [.takes 4, .cleans [1], .throws]
    (by decide +kernel)
  revert returned
  decide +kernel

end Rambrain.MemoryLimit
