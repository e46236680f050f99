import Rambrain.Use
import Rambrain.FilterChain

/-!
The scheduler `cyclicManagedMemory` without preemptive loading, over `managedDummySwap`.

The state is the ring of `cyclicAtime` elements with the pointers `active` and
`counterActive`, the chunks behind the elements, and the sizes the manager accounts for. An
element is named by the id of its chunk; the sentinel of `filterChain` is element `0`, which
is no id. With preemptive loading off no chunk is ever `preemptiveLoaded`, so what the code
does for such chunks is left out. The swap copies at once and is taken to have room for
every chunk, so its free space is never what decides.

An operation of the manager is a sequence of events: `mmalloc` is the calls of `swapOut` that
`ensureEnoughSpace` makes and then `Event.mmalloc`; `setUse` of a swapped chunk is
`Event.setUse`, such calls, `Event.swapIn` and `Event.resumeUse`; `prepareUse` is such calls and
`Event.swapIn`; `unsetUse` and `setMemoryLimit` are followed or preceded by calls of `swapOut`.
Runs of events in any order therefore contain every run of the program.
-/

namespace Rambrain.Cyclic

open Lib

/-- A `managedMemoryChunk` with its size. -/
structure Chunk extends ManagedMemoryChunk where
  size : Nat

structure State where
  links : Links Nat
  active : Option Nat
  counterActive : Option Nat
  chunk : Nat → Chunk
  memChunks : Finset Nat
  memIDPace : Nat
  memoryUsed : Nat
  memoryMax : Nat
  /-- History: how many registrations and touches there were. -/
  clock : Nat
  /-- History: the last registration or touch of each chunk. -/
  lastTouch : Nat → Nat

namespace State

variable (s : State) (id : Nat)

def status : MemoryStatus := (s.chunk id).status

/-- `status == MEM_ALLOCATED && useCnt == 0`. -/
def eligible : Bool := s.status id = .allocated ∧ (s.chunk id).useCnt = 0

/-- `status & MEM_ALLOCATED`. -/
def inRam : Bool := (s.status id).hasFlag .allocated

/-- The chunk's status is one of the first list of statuses that `swapOut` filters by. -/
def separateThis : Bool := s.status id = .swapout ∨ s.status id = .swapped

/-- The history of a registration or a touch. -/
def tick : State :=
  { s with clock := s.clock + 1, lastTouch := Function.update s.lastTouch id (s.clock + 1) }

def setChunk (c : ManagedMemoryChunk) : State :=
  { s with chunk := Function.update s.chunk id ⟨c, (s.chunk id).size⟩ }

/-! ### The ring -/

def schedulerRegister : State :=
  let s := s.tick id
  match s.active with
  | none =>
      { s with links := s.links.connect id id, counterActive := some id, active := some id }
  | some active =>
      let links := (s.links.connect (s.links.prev active) id).connect id active
      let counterActive :=
        if s.counterActive = some active ∧
            (s.status active = .swapped ∨ s.status active = .swapout) then some id
        else s.counterActive
      { s with links, counterActive, active := some id }

def schedulerDelete : State :=
  let next := s.links.next id
  let prev := s.links.prev id
  if next = id then { s with active := none, counterActive := none }
  else
    { s with
      links := s.links.connect prev next
      active := if s.active = some id then some next else s.active
      counterActive := if s.counterActive = some id then some prev else s.counterActive }

def touch : State :=
  let s := s.tick id
  match s.active with
  | none => s
  | some active =>
      if active = id then s
      else
        let counterActive :=
          if s.counterActive = some id then some (s.links.prev id) else s.counterActive
        if s.links.prev active = id then { s with active := some id, counterActive }
        else if s.links.next active = id then
          let links := ((s.links.connect (s.links.prev active) id).connect id active).connect
            active (s.links.next id)
          { s with links, active := some id, counterActive }
        else
          let links := s.links.connect (s.links.prev id) (s.links.next id)
          let links := (links.connect (s.links.prev active) id).connect id active
          { s with links, active := some id, counterActive }

/-! ### `swapOut` -/

/-- The first round: the bytes and the number of chunks to unload. -/
def countUnload (memSwap : Nat) : Nat → Nat → Nat → Nat → Nat × Nat
  | 0, _, unloadSize, unload => (unloadSize, unload)
  | left + 1, countPos, unloadSize, unload =>
      if unloadSize < memSwap then
        if s.eligible countPos then
          countUnload memSwap left (s.links.prev countPos) (unloadSize + (s.chunk countPos).size)
            (unload + 1)
        else countUnload memSwap left (s.links.prev countPos) unloadSize unload
      else (unloadSize, unload)

/-- The second round: where it stops, the list of chunks, and where `active` has moved. -/
def collectUnload (unloadSize : Nat) : Nat → Nat → Nat → List Nat → Nat → Nat × List Nat × Nat
  | 0, fromPos, _, unloadlist, active => (fromPos, unloadlist, active)
  | left + 1, fromPos, unloadSize2, unloadlist, active =>
      if unloadSize2 < unloadSize then
        if s.eligible fromPos then
          collectUnload unloadSize left (s.links.prev fromPos)
            (unloadSize2 + (s.chunk fromPos).size) (unloadlist ++ [fromPos])
            (if active = fromPos then s.links.prev active else active)
        else collectUnload unloadSize left (s.links.prev fromPos) unloadSize2 unloadlist active
      else (fromPos, unloadlist, active)

/-- `managedDummySwap::swapOut` of a list. -/
def dummySwapOut (unloadlist : List Nat) : State :=
  { s with
    chunk := fun id =>
      if id ∈ unloadlist then { s.chunk id with status := .swapped } else s.chunk id
    memoryUsed := s.memoryUsed - (unloadlist.map fun id => (s.chunk id).size).sum }

/-- `mem_swap`; `allocMax` is the product of its argument with `swapOutFrac`. -/
def memSwap (allocMax : Nat → Nat) (minSize : Nat) : Nat :=
  max minSize (s.memoryUsed - allocMax s.memoryMax)

/-- `swapOut` from `fromPos = fromPos->next` on. -/
def reorder (fromPos counterActive active : Nat) : Option State :=
  let fromPos := s.links.next fromPos
  let after := if s.links.next counterActive = fromPos then none
    else some (s.links.next counterActive)
  let border := s.links.prev fromPos
  match filterChain s.separateThis 0 s.memChunks.card s.links fromPos counterActive with
  | some (links, possiblyContaminated, some (first, last)) =>
      let (links, counterActive) :=
        match possiblyContaminated, after with
        | none, some after => (insertBefore links after (some (first, last)), border)
        | none, none => (links.connect last first, active)
        | some (_, lastValid), after =>
            let links := insertBefore links (after.getD (links.next lastValid)) (some (first, last))
            (links, links.prev first)
      let active :=
        if s.inRam active ∨ s.status active = .swapin then active else counterActive
      some { s with links, counterActive := some counterActive, active := some active }
  | _ => none

/-- `none` where the code reads entries of `unloadlist` that it has not set. -/
def swapOut (allocMax : Nat → Nat) (minSize : Nat) : Option State :=
  match s.active, s.counterActive with
  | some active, some counterActive =>
      if s.memoryMax < minSize then some s
      else
        let (unloadSize, unload) :=
          s.countUnload (s.memSwap allocMax minSize) s.memChunks.card counterActive 0 0
        if unloadSize = 0 then some s
        else
          let (fromPos, unloadlist, active) :=
            s.collectUnload unloadSize s.memChunks.card counterActive 0 [] active
          if unloadlist.length = unload then
            (s.dummySwapOut unloadlist).reorder fromPos counterActive active
          else none
  | _, _ => some s

/-- `if ( counterActive->chunk->status == MEM_SWAPPED ) counterActive = active;` -/
def resetCounter : State :=
  match s.counterActive with
  | some counterActive =>
      if s.status counterActive = .swapped then { s with counterActive := s.active } else s
  | none => s

/-- `managedDummySwap::swapIn` of a chunk. -/
def dummySwapIn : State :=
  { s.setChunk id { (s.chunk id).toManagedMemoryChunk with status := .allocated } with
    memoryUsed := s.memoryUsed + (s.chunk id).size }

/-- The plain `swapIn` once there is room. -/
def swapIn : State := ((s.dummySwapIn id).touch id).resetCounter

/-- The end of a section of `setUse`: the chunk is stored, and touched when the section
returns `true`. -/
def use (result : ManagedMemoryChunk × Progress) : State :=
  let s := s.setChunk id result.1
  if result.2 = .returned true then s.touch id else s

end State

inductive Event where
  | mmalloc (size : Nat)
  | mfree (id : Nat)
  | setUse (id : Nat) (writeAccess : Bool)
  | resumeUse (id : Nat) (writeAccess : Bool)
  | unsetUse (id : Nat) (noUnsets : UInt32)
  | swapOut (minSize : Nat)
  | swapIn (id : Nat)
  | limit (size : Nat)

/-- One event; `none` when the manager cannot make the call. -/
def step (allocMax : Nat → Nat) (s : State) : Event → Option State
  | .mmalloc size =>
      let id := s.memIDPace
      let s := { s with
        memIDPace := id + 1
        memoryUsed := s.memoryUsed + size
        chunk := Function.update s.chunk id ⟨.fresh, size⟩
        memChunks := insert id s.memChunks }
      some ((s.schedulerRegister id).touch id)
  | .mfree id =>
      if id ∈ s.memChunks ∧ (s.status id).hasFlag .allocatedInuse = false then
        let s' := s.schedulerDelete id
        some { s' with
          memoryUsed := if s.status id = .allocated then s.memoryUsed - (s.chunk id).size
            else s.memoryUsed
          memChunks := s.memChunks.erase id }
      else none
  | .setUse id writeAccess =>
      if id ∈ s.memChunks then
        some (s.use id (setUse (s.chunk id).toManagedMemoryChunk writeAccess))
      else none
  | .resumeUse id writeAccess =>
      if id ∈ s.memChunks then
        some (s.use id (resumeUse (s.chunk id).toManagedMemoryChunk writeAccess .swapIn true))
      else none
  | .unsetUse id noUnsets =>
      if id ∈ s.memChunks then
        match unsetUse (s.chunk id).toManagedMemoryChunk noUnsets with
        | .ok c => some (s.setChunk id c)
        | .error _ => some s
      else none
  | .swapOut minSize => s.swapOut allocMax minSize
  | .swapIn id => if id ∈ s.memChunks ∧ s.status id = .swapped then some (s.swapIn id) else none
  | .limit size => some { s with memoryMax := size }

/-- A manager without chunks. -/
def init (memoryMax : Nat) : State where
  links := ⟨id, id⟩
  active := none
  counterActive := none
  chunk := fun _ => ⟨.fresh, 0⟩
  memChunks := ∅
  memIDPace := 1
  memoryUsed := 0
  memoryMax := memoryMax
  clock := 0
  lastTouch := fun _ => 0

end Rambrain.Cyclic
