import Rambrain.Chunk
import Rambrain.Lib.SortedMap

/-!
The allocator of `managedFileSwap`: `all_space`, `free_space`, `pfmalloc`, `pffree`, and
`extendSwap`.

A `pageFileLocation` is named by its key in `all_space`. It keeps this key as long as it is
allocated, so `glob_off_next` can hold the key of the next part; `free_space` holds the keys of
the free ones. No transfer is pending, so `pffree` never waits. Sizes and offsets are natural
numbers; `swapFree` and `swapUsed` are integers, so that a count below zero would be seen.
-/

namespace Rambrain.FileSwap

open Lib

/-- `enum pageChunkStatus`. -/
inductive PageChunkStatus where
  | pageFree
  | pagePart
  | pageEnd
  | pageWasread
  | pageUnknownState
  deriving DecidableEq, Repr

/-- `union glob_off_union`. -/
inductive GlobOffUnion where
  | null
  | globOffNext (key : Nat)
  | chunk (id : Nat)
  deriving DecidableEq, Repr

structure PageFileLocation where
  file : Nat
  offset : Nat
  size : Nat
  globOffNext : GlobOffUnion
  status : PageChunkStatus
  deriving DecidableEq, Repr

/-- What is fixed once the swap is set up: the constructor rounds `pageFileSize` up to
`memoryAlignment`. -/
structure Geometry where
  pageFileSize : Nat
  memoryAlignment : Nat
  sizeofPageFileLocation : Nat
  file_pos : 0 < pageFileSize
  alignment_pos : 0 < memoryAlignment
  sizeof_pos : 0 < sizeofPageFileLocation
  aligned : memoryAlignment ∣ pageFileSize

/-- A `managedMemoryChunk` of the manager. -/
structure Chunk extends ManagedMemoryChunk where
  size : Nat
  swapBuf : Option Nat
  deriving DecidableEq

structure SwapFileDesc where
  fileno : Nat
  currentSize : Nat
  deriving DecidableEq, Repr

structure State where
  allSpace : SortedMap Nat PageFileLocation
  freeSpace : SortedMap Nat Unit
  swapSize : Nat
  swapFree : Int
  swapUsed : Int
  /-- An `unsigned int` in the source: there are fewer than 2^32 files. -/
  pageFileNumber : Nat
  /-- An entry of the table is `none` as long as no file is opened for it. -/
  swapFiles : List (Option SwapFileDesc)
  enableDMA : Bool
  memChunks : SortedMap Nat Chunk

variable (g : Geometry)

def determineGlobalOffset (ref : PageFileLocation) : Nat := ref.file * g.pageFileSize + ref.offset

namespace State

variable (s : State)

/-- The locations in the order of `free_space`. -/
def freeLocations : List PageFileLocation := s.freeSpace.keys.filterMap s.allSpace.get?

/-- Writes to a location. -/
def modify (key : Nat) (f : PageFileLocation → PageFileLocation) : State :=
  match s.allSpace.get? key with
  | some loc => { s with allSpace := s.allSpace.insert key (f loc) }
  | none => s

/-! ### `pfmalloc` -/

def paddedSize (size : Nat) : Nat :=
  (size / g.memoryAlignment + if size % g.memoryAlignment = 0 then 0 else 1) * g.memoryAlignment

/-- `allocInFree`: the location that is allocated, `none` for `NULL`. -/
def allocInFree (freeChunk : PageFileLocation) (size : Nat) : Option (State × Nat) :=
  let formerfreeOff := determineGlobalOffset g freeChunk
  let padded := paddedSize g size
  let s := { s with freeSpace := s.freeSpace.erase formerfreeOff }
  if padded ≠ size ∧ freeChunk.size < padded then none
  else
    let s := { s with swapFree := s.swapFree - (padded - size) }
    if padded ≤ freeChunk.size ∧ freeChunk.size - padded < g.sizeofPageFileLocation then
      some ({ s with
        swapFree := s.swapFree - (freeChunk.size - padded)
        allSpace := s.allSpace.insert formerfreeOff { freeChunk with size } }, formerfreeOff)
    else
      let neu := { freeChunk with size }
      let freeChunk := { freeChunk with
        offset := freeChunk.offset + padded
        size := freeChunk.size - padded
        globOffNext := .null }
      let newfreeloc := determineGlobalOffset g freeChunk
      some ({ s with
        freeSpace := s.freeSpace.insert newfreeloc ()
        allSpace := (s.allSpace.insert newfreeloc freeChunk).insert formerfreeOff neu },
        formerfreeOff)

/-! ### `pffree` -/

/-- A free location before the one that is freed takes it in. -/
def mergeBefore (goff : Nat) (page : PageFileLocation) : State × Nat × PageFileLocation :=
  match s.allSpace.before goff with
  | some (_, prev) =>
      if page.offset ≠ 0 ∧ prev.status = .pageFree then
        ({ s with allSpace := s.allSpace.erase goff }, determineGlobalOffset g prev,
          { prev with size := prev.size + page.size })
      else (s, goff, page)
  | none => (s, goff, page)

/-- Where the location behind begins, or the end of the swap space. -/
def nextoff (goff : Nat) : Nat :=
  match s.allSpace.after goff with
  | some (_, next) => determineGlobalOffset g next
  | none => s.swapSize

/-- The unusable space behind the location is reclaimed. -/
def reclaimTail (goff : Nat) (page : PageFileLocation) : State × PageFileLocation :=
  let size := s.nextoff g goff - goff
  ({ s with swapFree := s.swapFree + (size - page.size) }, { page with size })

/-- It takes in a free location behind it. -/
def mergeAfter (goff : Nat) (page : PageFileLocation) : State × PageFileLocation :=
  match s.allSpace.after goff with
  | some (_, next) =>
      if next.offset ≠ 0 ∧ next.status = .pageFree then
        let gofffree := determineGlobalOffset g next
        ({ s with
          freeSpace := s.freeSpace.erase gofffree
          allSpace := s.allSpace.erase gofffree }, { page with size := page.size + next.size })
      else (s, page)
  | none => (s, page)

def markFree (goff : Nat) (page : PageFileLocation) : State :=
  { s with
    allSpace := s.allSpace.insert goff { page with status := .pageFree }
    freeSpace := s.freeSpace.insert goff () }

/-- What a turn of the loop of `pffree` makes of a location. -/
def freePage (page : PageFileLocation) : State :=
  let merged := s.mergeBefore g (determineGlobalOffset g page) page
  let goff := merged.2.1
  let reclaimed := merged.1.reclaimTail g goff merged.2.2
  let joined := reclaimed.1.mergeAfter g goff reclaimed.2
  joined.1.markFree goff joined.2

/-- The loop of `pffree`; `none` when it leaves the locations. -/
def pffreeLoop : Nat → State → Nat → Option State
  | 0, _, _ => none
  | fuel + 1, s, pagePtr =>
      match s.allSpace.get? pagePtr with
      | none => none
      | some page =>
          if page.status = .pageEnd then some (s.freePage g page)
          else
            match page.globOffNext with
            | .globOffNext next => pffreeLoop fuel (s.freePage g page) next
            | _ => none

def pffree (pagePtr : Nat) : Option State := pffreeLoop g s.allSpace.entries.length s pagePtr

/-- A chunk whose swap copy may be dropped: `status & MEM_ALLOCATED && swapBuf != NULL`. -/
def cachedBuf (chunk : Chunk) : Option Nat :=
  if chunk.status.hasFlag .allocated then chunk.swapBuf else none

/-- The loop of `cleanupCachedElements` over the chunks from `it` on, and what it has cleaned up. -/
def cleanupLoop (minimumSize : Nat) : List (Nat × Chunk) → State → Nat → Option (State × Nat)
  | [], s, cleanedUp => some (s, cleanedUp)
  | (id, chunk) :: it, s, cleanedUp =>
      if minimumSize = 0 ∨ cleanedUp < minimumSize then
        match cachedBuf chunk with
        | some swapBuf =>
            (s.pffree g swapBuf).bind fun s =>
              cleanupLoop minimumSize it
                { s with memChunks := s.memChunks.insert id { chunk with swapBuf := none } }
                (cleanedUp + chunk.size)
        | none => cleanupLoop minimumSize it s cleanedUp
      else some (s, cleanedUp)

/-- `cleanupCachedElements`, with its result. -/
def cleanupCachedElements (minimumSize : Nat) : Option (State × Bool) :=
  (cleanupLoop g minimumSize s.memChunks.entries s 0).map fun r =>
    (r.1, decide (minimumSize < r.2))

/-- The loop that adds up the free locations until they are enough. -/
def totalSpace (size : Nat) : List PageFileLocation → Nat → Nat
  | [], total => total
  | it :: rest, total =>
      let total := total - total % g.memoryAlignment + it.size
      if total < size then totalSpace size rest total else total

/-- How `pfmalloc` ends: with a location, with `NULL`, with `Out of swap space`, or with an access
to a location that is not there. -/
inductive Pfmalloc where
  | found (s : State) (res : Nat)
  | null (s : State)
  | outOfSwapSpace (s : State)
  | fault

/-- The loop that takes one free location after the other. -/
def concat (chunk : Nat) : Nat → State → Nat → Nat → Option Nat → Option Nat → Pfmalloc
  | 0, _, _, _, _, _ => .fault
  | fuel + 1, s, it, size, res, former =>
      match s.allSpace.get? it with
      | none => .fault
      | some loc =>
          let allocHere := min loc.size size
          let allocHere :=
            if allocHere < size then allocHere - allocHere % g.memoryAlignment else allocHere
          let nextFreeOffset := (s.freeSpace.after it).map Prod.fst
          match s.allocInFree g loc allocHere with
          | none => .fault
          | some (s, neu) =>
              let size := size - allocHere
              let s := s.modify neu fun b =>
                { b with status := if size = 0 then .pageEnd else .pagePart }
              let res := res.getD neu
              let s := match former with
                | some former => s.modify former fun b => { b with globOffNext := .globOffNext neu }
                | none => s
              if size = 0 then
                .found (s.modify neu fun b => { b with globOffNext := .chunk chunk }) res
              else
                match nextFreeOffset.filter fun next => next ∈ s.freeSpace.keys with
                | some next => concat chunk fuel s next size (some res) (some neu)
                | none =>
                    -- behind the loop: `size != 0`
                    match (s.modify neu fun b => { b with status := .pageEnd }).pffree g res with
                    | some s => .null s
                    | none => .fault

def pfmalloc (size chunk : Nat) : Pfmalloc :=
  match s.freeSpace.keys with
  | [] => .null s
  | _ :: _ =>
      match s.freeLocations.find? fun it => size ≤ it.size with
      | some found =>
          match s.allocInFree g found size with
          | some (s, res) =>
              .found (s.modify res fun b =>
                { b with status := .pageEnd, globOffNext := .chunk chunk }) res
          | none => .fault
      | none =>
          let total := totalSpace g size s.freeLocations 0
          let cleaned : Option (State × Nat) :=
            if total < size then
              (s.cleanupCachedElements g (size - total)).map fun r =>
                (r.1, if r.2 then total + (size - total) else total)
            else some (s, total)
          match cleaned with
          | none => .fault
          | some (s, total) =>
              if size ≤ total then
                match s.freeSpace.keys with
                | [] => .fault
                | it :: _ => concat g chunk s.freeSpace.entries.length s it size none none
              else .outOfSwapSpace s

/-! ### `extendSwap` -/

/-- What `open` does for a swap file. -/
inductive OpenResult where
  | opened (fileno : Nat)
  | einval
  | failed

/-- How `openSwapFileRange` and `extendSwap` end. -/
inductive Extended where
  | returned (s : State) (result : Bool)
  | couldNotOpen (s : State)

/-- `openSwapFileRange ( start, stop )`, `opens n` being what `open` does for file `n`. -/
def openSwapFileRange (opens : Nat → OpenResult) : Nat → Nat → State → Extended
  | _, 0, s => .returned s true
  | n, left + 1, s =>
      match opens n with
      | .opened fileno =>
          openSwapFileRange opens (n + 1) left
            { s with swapFiles := s.swapFiles.set n (some ⟨fileno, 0⟩) }
      | .einval =>
          if n = 0 ∧ s.enableDMA then .returned { s with enableDMA := false } false
          else .couldNotOpen s
      | .failed => .couldNotOpen s

/-- One free location of a whole file for each of the files from `n` on. -/
def addFiles : Nat → Nat → State → State
  | _, 0, s => s
  | n, left + 1, s =>
      addFiles (n + 1) left { s with
        freeSpace := s.freeSpace.insert (n * g.pageFileSize) ()
        allSpace := s.allSpace.insert (n * g.pageFileSize)
          ⟨n, 0, g.pageFileSize, .null, .pageFree⟩ }

/-- `size` rounded up to whole files, below 2^64. -/
def wholeFiles (size : Nat) : Nat :=
  size + if size % g.pageFileSize = 0 then 0 else g.pageFileSize - size % g.pageFileSize

def extendSwap (freeDiskSpace : Nat) (opens : Nat → OpenResult) (size : Nat) : Extended :=
  let size := wholeFiles g size
  if freeDiskSpace < size then .returned s false
  else
    let oldpn := s.pageFileNumber
    let left := size / g.pageFileSize
    let s := { s with
      pageFileNumber := oldpn + left
      swapFiles := s.swapFiles ++ List.replicate left none }
    match openSwapFileRange opens oldpn left s with
    | .returned s true =>
        let s := addFiles g oldpn left s
        .returned { s with swapFree := s.swapFree + size, swapSize := s.swapSize + size } true
    | .returned s false => .returned s false
    | .couldNotOpen s => .couldNotOpen s

end State

end Rambrain.FileSwap
