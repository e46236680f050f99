import Rambrain.SwapFrame
import Rambrain.Transfer
import Rambrain.Use

/-!
The bytes of the managed memory: the buffers of the chunks, the swap files, and the transfers
between them.

`copyMem` walks along the chain of a chunk and asks the kernel for one transfer for each part. The
kernel moves the bytes of the requests one by one, in any order (`transfer`), and reports a request
when it has done with it (`arrive`). The calls under `stateChangeMutex` are one step each; a call of
`setUse` that has to wait is cut where it waits, as in `Rambrain.Use`.

A program uses a chunk between `setUse` and `unsetUse`, and writes it only with a write use; it
frees a chunk that no thread uses or waits for and that is not in transit. `granted`, `writers` and
`waiting` count, for each chunk, the uses, the write uses among them and the calls that wait. The
use counter does not overflow. `malloc` and `ftruncate` succeed, and a request is never refused.
-/

namespace Rambrain.SwapBytes

open Lib FileSwap

/-- The bytes behind a `locPtr`. -/
abbrev Buffer := Nat → UInt8

/-- The swap files are extended in steps, `pageFileSize * swapFileResizeFrac` bytes each. -/
structure Setup extends Geometry where
  resizeStep : Nat
  resize_pos : 0 < resizeStep

/-- A `struct iocb` with its `aiotracker` and its entry in `pendingAios`. -/
structure Aio where
  /-- The location that the transfer is for. -/
  ref : Nat
  /-- The chunk whose tracker it has and whose buffer it moves. -/
  chunk : Nat
  /-- Where in the buffer. -/
  ramBuf : Nat
  file : Nat
  offset : Nat
  length : Nat
  reverse : Bool
  /-- What the kernel has moved so far. -/
  moved : Finset Nat
  deriving DecidableEq

structure State where
  swap : FileSwap.State
  locPtr : Nat → Option Buffer
  /-- The bytes of the swap files. -/
  disk : Nat → Nat → UInt8
  pendingAios : List Aio
  /-- The tracker of the last `copyMem` for a chunk. -/
  tracker : Nat → Nat
  /-- The calls of `setUse` that have returned `true`, less what `unsetUse` has released. -/
  granted : Nat → Nat
  /-- Those of them with write access. -/
  writers : Nat → Nat
  /-- The calls of `setUse` that wait. -/
  waiting : Nat → Nat

variable (g : Setup)

/-- A size rounded up to `memoryAlignment`, in `mmalloc`, `scheduleCopy` and `asyncIoArrived`. -/
def aligned (size : Nat) : Nat :=
  size + if size % g.memoryAlignment = 0 then 0 else g.memoryAlignment - size % g.memoryAlignment

namespace State

variable (s : State)

/-! ### Transfers -/

/-- The chunk behind the `PAGE_END` that a walk from `ref` comes to. -/
def endOf (allSpace : SortedMap Nat PageFileLocation) : Nat → Nat → Option Nat
  | 0, _ => none
  | fuel + 1, ref =>
      (allSpace.get? ref).bind fun loc =>
        match loc.status, loc.globOffNext with
        | .pageEnd, .chunk id => some id
        | .pageEnd, _ => none
        | _, .globOffNext next => endOf allSpace fuel next
        | _, _ => none

/-- `completeTransactionOn ( ref )`; `none` where it throws. -/
def completeTransactionOn (ref : Nat) : Option State :=
  (endOf s.swap.allSpace s.swap.allSpace.entries.length ref).bind fun id =>
    (s.swap.memChunks.get? id).bind fun chunk =>
      (s.swap.completeTransactionOn id).map fun swap =>
        if chunk.status = .swapout then
          { s with swap, locPtr := Function.update s.locPtr id none }
        else { s with swap }

/-- The tracker is lowered, and the transaction completes when it stood at one. -/
def lower (ref chunk : Nat) : Option State :=
  let lastval := s.tracker chunk
  let s := { s with tracker := Function.update s.tracker chunk (lastval - 1) }
  if lastval = 1 then s.completeTransactionOn ref else some s

/-- The swap file is extended when the location lies behind its end. -/
def resizeFile (ref : PageFileLocation) (file : SwapFileDesc) : SwapFileDesc :=
  let neededSize := ref.size + ref.offset
  if file.currentSize < neededSize then
    { file with currentSize :=
        if neededSize % g.resizeStep = 0 then neededSize
        else g.resizeStep * (neededSize / g.resizeStep + 1) }
  else file

/-- `scheduleCopy` for the location `ref` at `cur`. -/
def scheduleCopy (cur : Nat) (ref : PageFileLocation) (chunk ramBuf : Nat) (reverse : Bool) :
    Option State :=
  match s.swap.swapFiles[ref.file]? with
  | some (some file) =>
      some { s with
        swap := { s.swap with
          swapFiles := s.swap.swapFiles.set ref.file (some (resizeFile g ref file)) }
        tracker := Function.update s.tracker chunk (s.tracker chunk + 1)
        pendingAios := s.pendingAios ++
          [⟨cur, chunk, ramBuf, ref.file, ref.offset, aligned g ref.size, reverse, ∅⟩] }
  | _ => none

/-- The loop of `copyMem`; it returns the location it ends with. -/
def copyParts (chunk : Nat) (reverse : Bool) : Nat → State → Nat → Nat → Option (State × Nat)
  | 0, _, _, _ => none
  | fuel + 1, s, cur, offset =>
      (s.swap.allSpace.get? cur).bind fun ref =>
        (s.scheduleCopy g cur ref chunk offset reverse).bind fun s =>
          if ref.status = .pageEnd then some (s, cur)
          else
            match ref.globOffNext with
            | .globOffNext next => copyParts chunk reverse fuel s next (offset + ref.size)
            | _ => none

def copyMem (ref chunk : Nat) (reverse : Bool) : Option State :=
  (copyParts g chunk reverse s.swap.allSpace.entries.length
    { s with tracker := Function.update s.tracker chunk 1 } ref 0).bind fun r =>
      r.1.lower r.2 chunk

/-- What a read finds behind the end of a swap file. -/
def behindEnd (aio : Aio) (i : Nat) : Prop :=
  ∀ file, s.swap.swapFiles[aio.file]? = some (some file) → file.currentSize ≤ aio.offset + i

/-- The kernel moves byte `i` of a request; `none` where the buffer is gone. -/
def transfer (n i : Nat) (aio : Aio) : Option State :=
  (s.locPtr aio.chunk).map fun buf =>
    let s := { s with pendingAios := s.pendingAios.set n { aio with moved := insert i aio.moved } }
    if aio.reverse then
      { s with
        locPtr := Function.update s.locPtr aio.chunk
          (some (Function.update buf (aio.ramBuf + i) (s.disk aio.file (aio.offset + i)))) }
    else
      { s with disk := Stretch.put s.disk (aio.file, aio.offset + i) (buf (aio.ramBuf + i)) }

/-- `asyncIoArrived`; `none` where it throws. -/
def asyncIoArrived (n : Nat) (aio : Aio) : Option State :=
  (s.swap.allSpace.get? aio.ref).bind fun ref =>
    if aio.moved.card = aligned g ref.size then
      State.lower { s with pendingAios := s.pendingAios.eraseIdx n } aio.ref aio.chunk
    else none

/-! ### Swapping -/

/-- `swapOut ( chunk )` of an eligible chunk. -/
def swapOut (id : Nat) (chunk : Chunk) : Option State :=
  match s.swap.swapOut g.toGeometry id with
  | .moved swap _ =>
      if chunk.swapBuf.isSome then
        -- the chunk is cached, nothing is scheduled
        some { s with swap, locPtr := Function.update s.locPtr id none }
      else
        ((swap.memChunks.get? id).bind Chunk.swapBuf).bind fun newAlloced =>
          copyMem g { s with swap } newAlloced id false
  | .refused swap => some { s with swap }
  | .threw swap => some { s with swap }
  | .fault => none

/-- `swapIn ( chunk )`, with what is in the new buffer. -/
def swapIn (id : Nat) (chunk : Chunk) (buf : Buffer) : Option State :=
  (s.swap.swapIn id).bind fun swap =>
    match chunk.swapBuf with
    | some swapBuf =>
        copyMem g { s with swap, locPtr := Function.update s.locPtr id (some buf) } swapBuf id true
    | none => some { s with swap }

/-! ### Uses -/

/-- How a section of `setUse` ends that makes `r` of the chunk. -/
def endUse (id : Nat) (r : ManagedMemoryChunk × Progress) (writeAccess invalidates : Bool) :
    Option State :=
  (SwapOp.step g.toGeometry s.swap (.use id r.1.status r.1.useCnt)).bind fun swap =>
    match r.2 with
    | .paused _ => some { s with swap, waiting := Function.update s.waiting id (s.waiting id + 1) }
    | .returned false => some { s with swap }
    | .returned true =>
        (if writeAccess && invalidates then
          SwapOp.step g.toGeometry swap (.invalidateCacheFor id)
        else some swap).map fun swap =>
          { s with
            swap
            granted := Function.update s.granted id (s.granted id + 1)
            writers := Function.update s.writers id
              (s.writers id + if writeAccess then 1 else 0) }

end State

/-! ### Runs -/

inductive Event where
  /-- `mmalloc`, with what is in the new buffer. -/
  | mmalloc (id sizereq : Nat) (bytes : Buffer)
  | setUse (id : Nat) (writeAccess : Bool)
  /-- A `setUse` that waits goes on. -/
  | resumeUse (id : Nat) (writeAccess : Bool) (pause : Pause) (swapInResult : Bool)
  /-- `unsetUse`, `writes` of the uses that are released being write uses. -/
  | unsetUse (id : Nat) (noUnsets : UInt32) (writes : Nat)
  /-- The program reads a byte. -/
  | read (id i : Nat) (byte : UInt8)
  /-- The program writes a byte. -/
  | write (id i : Nat) (byte : UInt8)
  | swapOut (id : Nat)
  | swapIn (id : Nat) (bytes : Buffer)
  /-- The kernel moves byte `i` of request `n`. -/
  | transfer (n i : Nat)
  /-- Request `n` has come to its end. -/
  | arrive (n : Nat)
  | mfree (id : Nat)
  | cleanupCachedElements (minimumSize : Nat)
  | extendSwap (freeDiskSpace : Nat) (opens : Nat → FileSwap.State.OpenResult) (size : Nat)

/-- The kernel has moved what there is to move. -/
def State.Finished (s : State) (aio : Aio) : Prop :=
  ∀ i, i < aio.length → i ∈ aio.moved ∨ aio.reverse = true ∧ s.behindEnd aio i

instance (s : State) (aio : Aio) (i : Nat) : Decidable (s.behindEnd aio i) :=
  match noFile : s.swap.swapFiles[aio.file]? with
  | some (some file) =>
      decidable_of_iff (file.currentSize ≤ aio.offset + i)
        ⟨fun le f is => by rw [noFile] at is; cases is; exact le, fun all => all file noFile⟩
  | some none => isTrue fun f is => by rw [noFile] at is; cases is
  | none => isTrue fun f is => by rw [noFile] at is; cases is

instance (s : State) (aio : Aio) : Decidable (s.Finished aio) :=
  inferInstanceAs (Decidable (∀ i, i < aio.length → _))

/-- One event; `none` when it cannot happen. -/
def step (s : State) : Event → Option State
  | .mmalloc id sizereq bytes =>
      if 0 < sizereq then
        (SwapOp.step g.toGeometry s.swap (.register id (aligned g sizereq))).map fun swap =>
          { s with swap, locPtr := Function.update s.locPtr id (some bytes) }
      else none
  | .setUse id writeAccess =>
      (s.swap.memChunks.get? id).bind fun c =>
        if c.useCnt.toNat < 65535 then
          s.endUse g id (Rambrain.setUse c.toManagedMemoryChunk writeAccess) writeAccess
            (c.status ≠ .allocatedInuseWrite)
        else none
  | .resumeUse id writeAccess pause swapInResult =>
      (s.swap.memChunks.get? id).bind fun c =>
        if 0 < s.waiting id then
          State.endUse g { s with waiting := Function.update s.waiting id (s.waiting id - 1) } id
            (Rambrain.resumeUse c.toManagedMemoryChunk writeAccess pause swapInResult) writeAccess
            true
        else none
  | .unsetUse id noUnsets writes =>
      (s.swap.memChunks.get? id).bind fun c =>
        if writes ≤ s.writers id ∧ writes ≤ noUnsets.toNat ∧
            noUnsets.toNat - writes ≤ s.granted id - s.writers id then
          match Rambrain.unsetUse c.toManagedMemoryChunk noUnsets with
          | .ok r =>
              (SwapOp.step g.toGeometry s.swap (.use id r.status r.useCnt)).map fun swap =>
                { s with
                  swap
                  granted := Function.update s.granted id (s.granted id - noUnsets.toNat)
                  writers := Function.update s.writers id (s.writers id - writes) }
          | .error _ => none
        else none
  | .read id i byte =>
      (s.swap.memChunks.get? id).bind fun c =>
        (s.locPtr id).bind fun buf =>
          if 0 < s.granted id ∧ i < c.size ∧ buf i = byte then some s else none
  | .write id i byte =>
      (s.swap.memChunks.get? id).bind fun c =>
        (s.locPtr id).bind fun buf =>
          if 0 < s.writers id ∧ i < c.size then
            some { s with
              locPtr := Function.update s.locPtr id (some (Function.update buf i byte)) }
          else none
  | .swapOut id =>
      (s.swap.memChunks.get? id).bind fun c =>
        if c.status = .allocated ∧ c.useCnt = 0 then s.swapOut g id c else none
  | .swapIn id bytes => (s.swap.memChunks.get? id).bind fun c => s.swapIn g id c bytes
  | .transfer n i =>
      (s.pendingAios[n]?).bind fun aio =>
        if i < aio.length ∧ ¬ (aio.reverse = true ∧ s.behindEnd aio i) then s.transfer n i aio
        else none
  | .arrive n =>
      (s.pendingAios[n]?).bind fun aio =>
        if s.Finished aio then s.asyncIoArrived g n aio else none
  | .mfree id =>
      (s.swap.memChunks.get? id).bind fun c =>
        if (c.status = .allocated ∨ c.status = .swapped) ∧ c.useCnt = 0 then
          (SwapOp.step g.toGeometry s.swap (.mfree id)).map fun swap =>
            { s with swap, locPtr := Function.update s.locPtr id none }
        else none
  | .cleanupCachedElements minimumSize =>
      (SwapOp.step g.toGeometry s.swap (.cleanupCachedElements minimumSize)).map fun swap =>
        { s with swap }
  | .extendSwap freeDiskSpace opens size =>
      (SwapOp.step g.toGeometry s.swap (.extendSwap freeDiskSpace opens size)).map fun swap =>
        { s with swap }

/-- A new manager with a new swap. -/
def start (pageFileNumber : Nat) (enableDMA : Bool) (fileno : Nat → Nat) : State where
  swap := .construct g.toGeometry pageFileNumber enableDMA fileno
  locPtr := fun _ => none
  disk := fun _ _ => 0
  pendingAios := []
  tracker := fun _ => 0
  granted := fun _ => 0
  writers := fun _ => 0
  waiting := fun _ => 0

/-! ### What the program sees -/

/-- The bytes that the program has written to a chunk. -/
structure Text where
  size : Nat
  byte : Buffer

/-- A memory without a swap: a chunk keeps what is written to it. -/
abbrev Plain := Nat → Option Text

/-- The same event in a memory without a swap, `none` for a read that finds another byte. -/
def Plain.step (p : Plain) : Event → Option Plain
  | .mmalloc id sizereq bytes =>
      some (Function.update p id (some ⟨aligned g sizereq, bytes⟩))
  | .read id i byte =>
      (p id).bind fun text => if i < text.size ∧ text.byte i = byte then some p else none
  | .write id i byte =>
      (p id).bind fun text =>
        if i < text.size then
          some (Function.update p id (some { text with byte := Function.update text.byte i byte }))
        else none
  | .mfree id => some (Function.update p id none)
  | _ => some p

end Rambrain.SwapBytes
