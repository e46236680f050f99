import Rambrain.FreeOrder
import Rambrain.Lib.Run

/-!
`managedFileSwap` as the manager drives it: `swapOut`, `swapIn`, the completion of a transfer,
`swapDelete`, `invalidateCacheFor`, `cleanupCachedElements` and `extendSwap`, and the chunks that
come and go.

`Books` is the invariant of the runs: the live chains are those of the chunks with a swap copy, and
`swapUsed` counts the copies that are not cached. From it `swapFree` is the free bytes and the bytes
of the cached copies (`Books.swapFree_eq`), and `swapOut` of a resident chunk that `swapFree` has
room for fails exactly when `pfmalloc` does (`swapOut_succeeds_iff`).

Scheduling a transfer and opening a swap file succeed. A chunk has at least one byte. `locPtr` is
`NULL` exactly as long as the chunk is `MEM_SWAPPED`.
-/

namespace Rambrain.FileSwap

open Lib

variable {g : Geometry} {s t u : State}

/-! ### The operations -/

namespace State

variable (g : Geometry) (s : State)

def setChunk (s : State) (id : Nat) (chunk : Chunk) : State :=
  { s with memChunks := s.memChunks.insert id chunk }

/-- How `swapOut` ends: it returns the size, or 0, or it throws. -/
inductive SwappedOut where
  | moved (s : State) (bytes : Nat)
  | refused (s : State)
  | threw (s : State)
  | fault

/-- The chunk's last case: a new place in the swap. -/
def swapOutNew (id : Nat) (chunk : Chunk) : SwappedOut :=
  match s.pfmalloc g chunk.size id with
  | .found s newAlloced =>
      .moved ((s.claimUsageof chunk.size true).setChunk id
        { chunk with swapBuf := some newAlloced, status := .swapout }) chunk.size
  | .null s => .refused s
  | .outOfSwapSpace s => .threw s
  | .fault => .fault

/-- `swapOut ( chunk )`. -/
def swapOut (id : Nat) : SwappedOut :=
  match s.memChunks.get? id with
  | none => .fault
  | some chunk =>
      if s.swapFree < chunk.size then .refused s
      else if chunk.status = .swapped ∨ chunk.status = .swapout then .moved s chunk.size
      else
        match chunk.swapBuf with
        | some _ =>
            .moved ((s.claimUsageof chunk.size true).setChunk id { chunk with status := .swapped })
              chunk.size
        | none => s.swapOutNew g id chunk

/-- `swapIn ( chunk )` of a swapped chunk. -/
def swapIn (id : Nat) : Option State :=
  (s.memChunks.get? id).bind fun chunk =>
    if chunk.status = .swapped then
      match chunk.swapBuf with
      | some _ => some (s.setChunk id { chunk with status := .swapin })
      | none => some s
    else none

/-- `completeTransactionOn` a part of the chunk. -/
def completeTransactionOn (id : Nat) : Option State :=
  (s.memChunks.get? id).bind fun chunk =>
    match chunk.status with
    | .swapin =>
        some ((s.claimUsageof chunk.size false).setChunk id { chunk with
          status := if chunk.useCnt = 0 then .allocated else .allocatedInuseRead })
    | .swapout => some (s.setChunk id { chunk with status := .swapped })
    | _ => none

/-- `invalidateCacheFor ( chunk )`. -/
def invalidateCacheFor (id : Nat) (chunk : Chunk) : Option State :=
  match chunk.swapBuf with
  | some swapBuf => (s.pffree g swapBuf).map fun s => s.setChunk id { chunk with swapBuf := none }
  | none => some s

/-- `swapDelete ( chunk )`. -/
def swapDelete (id : Nat) (chunk : Chunk) : Option State :=
  match chunk.swapBuf with
  | some swapBuf =>
      (s.pffree g swapBuf).map fun s =>
        if chunk.status = .swapped then
          (s.claimUsageof chunk.size false).setChunk id { chunk with swapBuf := none }
        else s.setChunk id { chunk with swapBuf := none }
  | none => some s

end State

/-- What happens to the swap. -/
inductive SwapOp where
  /-- `mmalloc` registers a chunk. -/
  | register (id size : Nat)
  /-- `setUse` and `unsetUse`. -/
  | use (id : Nat) (status : MemoryStatus) (useCnt : UInt16)
  | swapOut (id : Nat)
  | swapIn (id : Nat)
  | complete (id : Nat)
  /-- The write access of `setUse`. -/
  | invalidateCacheFor (id : Nat)
  /-- `mfree`. -/
  | mfree (id : Nat)
  | cleanupCachedElements (minimumSize : Nat)
  | extendSwap (freeDiskSpace : Nat) (opens : Nat → State.OpenResult) (size : Nat)

namespace SwapOp

/-- The swap after a `swapOut`, however it ended. -/
def afterSwapOut : State.SwappedOut → Option State
  | .moved s _ => some s
  | .refused s => some s
  | .threw s => some s
  | .fault => none

/-- `swapDelete` in `mfree`, and the chunk is gone. -/
def delete (g : Geometry) (s : State) (id : Nat) : Option State :=
  (s.memChunks.get? id).bind fun chunk =>
    (s.swapDelete g id chunk).map fun s => { s with memChunks := s.memChunks.erase id }

/-- One operation; `none` where the manager does not call it or the swap runs into a location
that is not there. A chunk that is freed is not in use. -/
def step (g : Geometry) (s : State) : SwapOp → Option State
  | register id size =>
      if s.memChunks.get? id = none ∧ 0 < size ∧ g.memoryAlignment ∣ size then
        some (s.setChunk id ⟨⟨.allocated, 0⟩, size, none⟩)
      else none
  | use id status useCnt =>
      (s.memChunks.get? id).bind fun chunk =>
        if status = chunk.status ∨
            status.hasFlag .allocated = true ∧ chunk.status.hasFlag .allocated = true then
          some (s.setChunk id { chunk with status, useCnt })
        else none
  | swapOut id =>
      (s.memChunks.get? id).bind fun chunk =>
        if chunk.status = .allocated ∨ chunk.status = .swapped ∨ chunk.status = .swapout then
          afterSwapOut (s.swapOut g id)
        else none
  | swapIn id => s.swapIn id
  | complete id => s.completeTransactionOn id
  | invalidateCacheFor id =>
      (s.memChunks.get? id).bind fun chunk =>
        if chunk.status.hasFlag .allocated = true then s.invalidateCacheFor g id chunk else none
  | mfree id =>
      (s.memChunks.get? id).bind fun chunk =>
        if chunk.status = .allocated ∨ chunk.status = .swapped then delete g s id
        else if chunk.status = .swapin ∨ chunk.status = .swapout then
          -- `pffree` waits for the transfer, which completes
          (s.completeTransactionOn id).bind fun s => delete g s id
        else none
  | cleanupCachedElements minimumSize => (s.cleanupCachedElements g minimumSize).map Prod.fst
  | extendSwap freeDiskSpace opens size =>
      match s.extendSwap g freeDiskSpace opens size with
      | .returned t true => some t
      | .returned _ false => none
      | .couldNotOpen _ => none

end SwapOp

/-! ### What the chunks account for -/

def sumOver (f : Chunk → Nat) (chunks : List (Nat × Chunk)) : Nat := (chunks.map fun e => f e.2).sum

theorem sumOver_append (f : Chunk → Nat) (l l' : List (Nat × Chunk)) :
    sumOver f (l ++ l') = sumOver f l + sumOver f l' := by
  rw [sumOver, List.map_append, List.sum_append]
  rfl

theorem sumOver_cons (f : Chunk → Nat) (e : Nat × Chunk) (l : List (Nat × Chunk)) :
    sumOver f (e :: l) = f e.2 + sumOver f l := rfl

/-- The bytes of a swap copy. -/
def copyBytes (c : Chunk) : Nat := if c.swapBuf.isSome then c.size else 0

/-- The bytes of a swap copy of a resident chunk. -/
def cachedBytes (c : Chunk) : Nat :=
  if c.status.hasFlag .allocated = true then copyBytes c else 0

/-- The bytes of a swap copy that counts as used. -/
def usedBytes (c : Chunk) : Nat :=
  if c.status.hasFlag .allocated = true then 0 else copyBytes c

theorem cachedBytes_add_usedBytes (c : Chunk) : cachedBytes c + usedBytes c = copyBytes c := by
  unfold cachedBytes usedBytes
  split
  · rw [Nat.add_zero]
  · rw [Nat.zero_add]

theorem sumOver_copyBytes (l : List (Nat × Chunk)) :
    sumOver copyBytes l = sumOver cachedBytes l + sumOver usedBytes l := by
  induction l with
  | nil => rfl
  | cons e l ih =>
      rw [sumOver_cons, sumOver_cons, sumOver_cons, ih, ← cachedBytes_add_usedBytes]
      omega

/-- The allocations of the chunks with a swap copy. -/
def liveOf (parts : Nat → List Nat) (chunks : List (Nat × Chunk)) : List Allocation :=
  chunks.filterMap fun e => e.2.swapBuf.map fun _ => ⟨parts e.1, e.1⟩

theorem liveOf_append (parts : Nat → List Nat) (l l' : List (Nat × Chunk)) :
    liveOf parts (l ++ l') = liveOf parts l ++ liveOf parts l' := List.filterMap_append

theorem liveOf_cons_none (parts : Nat → List Nat) {e : Nat × Chunk} (l : List (Nat × Chunk))
    (uncached : e.2.swapBuf = none) : liveOf parts (e :: l) = liveOf parts l := by
  rw [liveOf, List.filterMap_cons, uncached]
  rfl

theorem liveOf_cons_some (parts : Nat → List Nat) {e : Nat × Chunk} {buf : Nat}
    (l : List (Nat × Chunk)) (present : e.2.swapBuf = some buf) :
    liveOf parts (e :: l) = ⟨parts e.1, e.1⟩ :: liveOf parts l := by
  rw [liveOf, List.filterMap_cons, present]
  rfl

theorem mem_liveOf {parts : Nat → List Nat} {chunks : List (Nat × Chunk)} {a : Allocation} :
    a ∈ liveOf parts chunks ↔
      a.parts = parts a.chunk ∧ ∃ c buf, (a.chunk, c) ∈ chunks ∧ c.swapBuf = some buf := by
  rw [liveOf, List.mem_filterMap]
  constructor
  · rintro ⟨e, mem, is⟩
    obtain ⟨buf, found, rfl⟩ := Option.map_eq_some_iff.mp is
    exact ⟨rfl, e.2, buf, mem, found⟩
  · rintro ⟨isParts, c, buf, mem, found⟩
    refine ⟨(a.chunk, c), mem, ?_⟩
    rw [found, Option.map_some, ← isParts]

/-- A chunk of at least one byte that has a swap copy as long as it is read back. -/
structure Chunk.Sound (c : Chunk) : Prop where
  pos : 0 < c.size
  copied : c.status = .swapin → c.swapBuf.isSome = true

/-- The books of the swap, `parts` being the chains of the chunks with a swap copy. -/
structure Books (g : Geometry) (s : State) (parts : Nat → List Nat) : Prop where
  represents : Represents g s (liveOf parts s.memChunks.entries)
  owns : ∀ id c buf, s.memChunks.get? id = some c → c.swapBuf = some buf →
    (parts id).headD 0 = buf ∧ s.chainSize (parts id) = c.size
  used : s.swapUsed = sumOver usedBytes s.memChunks.entries
  sound : ∀ id c, s.memChunks.get? id = some c → c.Sound

theorem sound_insert {m : SortedMap Nat Chunk} {id : Nat} {c : Chunk}
    (sound : ∀ id c, m.get? id = some c → c.Sound) (new : c.Sound) :
    ∀ j d, (m.insert id c).get? j = some d → d.Sound := by
  intro j d found
  rw [SortedMap.get?_insert] at found
  split at found
  · cases found
    exact new
  · exact sound j d found

/-! ### One chunk changes -/

section
variable {parts : Nat → List Nat} {id : Nat} {c c' : Chunk} {pre post : List (Nat × Chunk)}

theorem get?_setChunk (s : State) (id j : Nat) (c : Chunk) :
    (s.setChunk id c).memChunks.get? j = if j = id then some c else s.memChunks.get? j :=
  SortedMap.get?_insert _ _ _ _

/-- The maps stay as they are, and the two counters shift bytes between each other. -/
structure SameSpace (s t : State) : Prop where
  allSpace : t.allSpace = s.allSpace
  freeSpace : t.freeSpace = s.freeSpace
  swapSize : t.swapSize = s.swapSize
  number : t.pageFileNumber = s.pageFileNumber
  balance : t.swapFree + t.swapUsed = s.swapFree + s.swapUsed

theorem Represents.sameSpace {live : List Allocation} (h : Represents g s live)
    (same : SameSpace s t) : Represents g t live := by
  have held : t.held = s.held := by rw [State.held, State.held, same.allSpace, same.swapSize]
  have laid := h.laid
  exact {
    laid := {
      tiles := by rw [same.allSpace, same.swapSize]; exact laid.tiles
      merged := by rw [same.allSpace]; exact laid.merged
      free := by rw [same.allSpace, same.freeSpace]; exact laid.free }
    files := by rw [same.swapSize, same.number]; exact h.files
    chained := by rw [same.allSpace]; exact h.chained
    owned := by rw [held]; exact h.owned
    balanced := by
      rw [held, same.swapSize, same.balance]
      exact h.balanced }

theorem SameSpace.chainSize (same : SameSpace s t) (l : List Nat) :
    t.chainSize l = s.chainSize l := by
  rw [State.chainSize, State.chainSize, same.allSpace]

/-- A chunk whose swap copy stays where it is. -/
theorem Books.setChunk (h : Books g s parts) (found : s.memChunks.get? id = some c) (c' : Chunk)
    (buf : c'.swapBuf = c.swapBuf) (size : c'.size = c.size)
    (copied : c'.status = .swapin → c'.swapBuf.isSome = true) (same : SameSpace s t)
    (chunks : t.memChunks = s.memChunks.insert id c')
    (used : t.swapUsed = s.swapUsed - usedBytes c + usedBytes c') : Books g t parts := by
  obtain ⟨pre, post, placed⟩ := SortedMap.split found
  have entries : t.memChunks.entries = pre ++ (id, c') :: post := by
    rw [chunks]
    exact SortedMap.insert_of_place placed c'
  have live : liveOf parts t.memChunks.entries = liveOf parts s.memChunks.entries := by
    rw [entries, placed, liveOf_append, liveOf_append]
    congr 1
    rw [liveOf, liveOf, List.filterMap_cons, List.filterMap_cons, buf]
  refine ⟨by rw [live]; exact h.represents.sameSpace same, fun j d b foundJ isBuf => ?_, ?_,
    by rw [chunks]; exact sound_insert h.sound ⟨size ▸ (h.sound id c found).pos, copied⟩⟩
  · rw [chunks, SortedMap.get?_insert] at foundJ
    rw [same.chainSize]
    split at foundJ
    · rename_i here
      cases here
      cases foundJ
      rw [size]
      exact h.owns id c b found (buf ▸ isBuf)
    · exact h.owns j d b foundJ isBuf
  · have before := h.used
    rw [used, entries]
    rw [placed] at before
    rw [before, sumOver_append, sumOver_append, sumOver_cons, sumOver_cons]
    push_cast
    ring

/-- The parts of two chunks with a swap copy are different. -/
theorem Books.apart (h : Books g s parts) {j : Nat} {d : Chunk} {b b' : Nat} (ne : j ≠ id)
    (found : s.memChunks.get? id = some c) (isBuf : c.swapBuf = some b)
    (foundJ : s.memChunks.get? j = some d) (isBufJ : d.swapBuf = some b') :
    ∀ k ∈ parts j, k ∉ parts id := by
  obtain ⟨pre, post, placed⟩ := SortedMap.split found
  have memJ : (⟨parts j, j⟩ : Allocation) ∈ liveOf parts s.memChunks.entries :=
    mem_liveOf.mpr ⟨rfl, d, b', SortedMap.get?_eq_some_iff.mp foundJ, isBufJ⟩
  have perm : (liveOf parts s.memChunks.entries).Perm
      (⟨parts id, id⟩ :: (liveOf parts pre ++ liveOf parts post)) := by
    rw [placed, liveOf_append, liveOf_cons_some parts post isBuf]
    exact List.perm_middle
  rcases List.mem_cons.mp (perm.mem_iff.mp memJ) with eq | mem
  · exact absurd (congrArg Allocation.chunk eq) ne
  · exact (h.represents.perm perm).disjoint mem

/-- The swap copy of a chunk is freed. -/
theorem Books.drop (h : Books g s parts) {buf : Nat} (found : s.memChunks.get? id = some c)
    (isBuf : c.swapBuf = some buf) (idle : c.status ≠ .swapin) :
    ∃ t, s.pffree g buf = some t ∧ OnlySpace s t ∧ ∀ u, SameSpace t u →
      u.memChunks = s.memChunks.insert id { c with swapBuf := none } →
      u.swapUsed = s.swapUsed - usedBytes c → Books g u parts := by
  obtain ⟨pre, post, placed⟩ := SortedMap.split found
  obtain ⟨isHead, _⟩ := h.owns id c buf found isBuf
  have perm : (liveOf parts s.memChunks.entries).Perm
      (⟨parts id, id⟩ :: (liveOf parts pre ++ liveOf parts post)) := by
    rw [placed, liveOf_append, liveOf_cons_some parts post isBuf]
    exact List.perm_middle
  obtain ⟨t, freed, rep, only, held⟩ := pffree_spec (h.represents.perm perm)
  refine ⟨t, by rw [← isHead]; exact freed, only, fun u same chunks used => ?_⟩
  have entries : u.memChunks.entries = pre ++ (id, { c with swapBuf := none }) :: post := by
    rw [chunks]
    exact SortedMap.insert_of_place placed _
  have live : liveOf parts u.memChunks.entries = liveOf parts pre ++ liveOf parts post := by
    rw [entries, liveOf_append, liveOf_cons_none parts post rfl]
  refine ⟨by rw [live]; exact rep.sameSpace same, fun j d b foundJ isBufJ => ?_, ?_,
    by rw [chunks]; exact sound_insert h.sound ⟨(h.sound id c found).pos, fun is => absurd is idle⟩⟩
  · rw [chunks, SortedMap.get?_insert] at foundJ
    split at foundJ
    · cases foundJ
      cases isBufJ
    · rename_i ne
      obtain ⟨headJ, sizeJ⟩ := h.owns j d b foundJ isBufJ
      refine ⟨headJ, ?_⟩
      rw [same.chainSize, ← sizeJ]
      exact chainSize_congr fun k mem => get?_of_kept h.represents held
        (a := ⟨parts j, j⟩)
        (mem_liveOf.mpr ⟨rfl, d, b, SortedMap.get?_eq_some_iff.mp foundJ, isBufJ⟩) mem
        (h.apart ne found isBuf foundJ isBufJ k mem)
  · have before := h.used
    have zero : usedBytes { c with swapBuf := none } = 0 := by simp [usedBytes, copyBytes]
    rw [used, entries]
    rw [placed] at before
    rw [before, sumOver_append, sumOver_append, sumOver_cons, sumOver_cons, zero]
    push_cast
    ring

end

/-! ### Chunks come and go -/

section
variable {parts : Nat → List Nat} {id : Nat} {c : Chunk}

theorem Books.register (h : Books g s parts) (fresh : s.memChunks.get? id = none)
    (uncached : c.swapBuf = none) (new : c.Sound) : Books g (s.setChunk id c) parts := by
  have absent : ∀ e ∈ s.memChunks.entries, e.1 ≠ id := by
    rintro ⟨j, d⟩ mem rfl
    rw [SortedMap.get?_eq_some_iff.mpr mem] at fresh
    cases fresh
  obtain ⟨pre, post, placed, below, above⟩ := s.memChunks.cut absent
  have entries : (s.setChunk id c).memChunks.entries = pre ++ (id, c) :: post :=
    SortedMap.insert_of_cut placed below above c
  have live : liveOf parts (s.setChunk id c).memChunks.entries =
      liveOf parts s.memChunks.entries := by
    rw [entries, placed, liveOf_append, liveOf_append, liveOf_cons_none parts post uncached]
  refine ⟨?_, fun j d b foundJ isBuf => ?_, ?_, sound_insert h.sound new⟩
  · rw [live]
    exact h.represents.setChunks _
  · rw [get?_setChunk] at foundJ
    split at foundJ
    · cases foundJ
      rw [uncached] at isBuf
      cases isBuf
    · exact h.owns j d b foundJ isBuf
  · have before := h.used
    have zero : usedBytes c = 0 := by simp [usedBytes, copyBytes, uncached]
    rw [entries]
    rw [placed] at before
    change s.swapUsed = _
    rw [before, sumOver_append, sumOver_append, sumOver_cons, zero, Nat.zero_add]

theorem Books.unregister (h : Books g s parts) (found : s.memChunks.get? id = some c)
    (uncached : c.swapBuf = none) :
    Books g { s with memChunks := s.memChunks.erase id } parts := by
  obtain ⟨pre, post, placed⟩ := SortedMap.split found
  have entries := SortedMap.erase_of_place placed
  have live : liveOf parts (s.memChunks.erase id).entries = liveOf parts s.memChunks.entries := by
    rw [entries, placed, liveOf_append, liveOf_append, liveOf_cons_none parts post uncached]
  refine ⟨?_, fun j d b foundJ isBuf => ?_, ?_, fun j d foundJ => ?_⟩
  · rw [live]
    exact h.represents.setChunks _
  · have memJ := SortedMap.get?_eq_some_iff.mp foundJ
    exact h.owns j d b (SortedMap.get?_eq_some_iff.mpr (List.mem_filter.mp memJ).1) isBuf
  · have before := h.used
    have zero : usedBytes c = 0 := by simp [usedBytes, copyBytes, uncached]
    change s.swapUsed = sumOver usedBytes (s.memChunks.erase id).entries
    rw [entries]
    rw [placed] at before
    rw [before, sumOver_append, sumOver_append, sumOver_cons, zero, Nat.zero_add]
  · have memJ := SortedMap.get?_eq_some_iff.mp foundJ
    exact h.sound j d (SortedMap.get?_eq_some_iff.mpr (List.mem_filter.mp memJ).1)

/-- A new chain is the swap copy of a chunk that had none. -/
theorem Books.place (h : Books g s parts) (found : s.memChunks.get? id = some c)
    (uncached : c.swapBuf = none) {ps : List Nat} (placed : Placed g s t none id ps c.size)
    (c' : Chunk) (buf : c'.swapBuf = some (ps.headD 0)) (size : c'.size = c.size)
    (same : SameSpace t u) (chunks : u.memChunks = s.memChunks.insert id c')
    (used : u.swapUsed = s.swapUsed + usedBytes c') :
    Books g u (Function.update parts id ps) := by
  obtain ⟨pre, post, cutAt⟩ := SortedMap.split found
  have entries : u.memChunks.entries = pre ++ (id, c') :: post := by
    rw [chunks]
    exact SortedMap.insert_of_place cutAt c'
  have others : ∀ l : List (Nat × Chunk), (∀ e ∈ l, e.1 ≠ id) →
      liveOf (Function.update parts id ps) l = liveOf parts l := fun l ne =>
    List.filterMap_congr fun e mem => by rw [Function.update_of_ne (ne e mem)]
  obtain ⟨below, above⟩ := SortedMap.place cutAt
  have live : (liveOf (Function.update parts id ps) u.memChunks.entries).Perm
      (⟨ps, id⟩ :: liveOf parts s.memChunks.entries) := by
    rw [entries, cutAt, liveOf_append, liveOf_append, liveOf_cons_some _ post buf,
      liveOf_cons_none parts post uncached, others pre fun e mem => (below e mem).ne,
      others post fun e mem => (above e mem).ne', Function.update_self]
    exact List.perm_middle
  refine ⟨((placed.represents h.represents).sameSpace same).perm live.symm,
    fun j d b foundJ isBuf => ?_, ?_,
    by
      rw [chunks]
      exact sound_insert h.sound ⟨size ▸ (h.sound id c found).pos, fun _ => by rw [buf]; rfl⟩⟩
  · rw [chunks, SortedMap.get?_insert] at foundJ
    rw [same.chainSize]
    split at foundJ
    · rename_i here
      cases here
      cases foundJ
      rw [Function.update_self, size, placed.built.chainSize]
      rw [buf] at isBuf
      exact ⟨Option.some.inj isBuf, rfl⟩
    · rename_i ne
      rw [Function.update_of_ne ne]
      obtain ⟨headJ, sizeJ⟩ := h.owns j d b foundJ isBuf
      refine ⟨headJ, ?_⟩
      rw [← sizeJ]
      refine chainSize_congr fun k mem => ?_
      have memJ : (⟨parts j, j⟩ : Allocation) ∈ liveOf parts s.memChunks.entries :=
        mem_liveOf.mpr ⟨rfl, d, b, SortedMap.get?_eq_some_iff.mp foundJ, isBuf⟩
      obtain ⟨p, foundK, not⟩ := (h.represents.chained _ memJ).held mem
      obtain ⟨fin, memHeld⟩ := held_of_get? foundK not
      rw [foundK]
      exact (get?_of_held (placed.same _ memHeld (by simp))).1
  · have before := h.used
    have zero : usedBytes c = 0 := by simp [usedBytes, copyBytes, uncached]
    rw [used, entries]
    rw [cutAt] at before
    rw [before, sumOver_append, sumOver_append, sumOver_cons, sumOver_cons, zero]
    push_cast
    ring

end

/-! ### One operation -/

theorem cachedBuf_eq_some {c : Chunk} {buf : Nat} :
    State.cachedBuf c = some buf ↔
      c.status.hasFlag .allocated = true ∧ c.swapBuf = some buf := by
  unfold State.cachedBuf
  split
  · rename_i resident
    simp [resident]
  · rename_i not
    simp [not]

theorem usedBytes_resident {c : Chunk} (resident : c.status.hasFlag .allocated = true) :
    usedBytes c = 0 := if_pos resident

theorem sameSpace_setChunk (s : State) (id : Nat) (c : Chunk) : SameSpace s (s.setChunk id c) :=
  ⟨rfl, rfl, rfl, rfl, rfl⟩

theorem sameSpace_claim (s : State) (bytes : Nat) (used : Bool) (id : Nat) (c : Chunk) :
    SameSpace s ((s.claimUsageof bytes used).setChunk id c) := by
  cases used
  · refine ⟨rfl, rfl, rfl, rfl, ?_⟩
    change s.swapFree + bytes + (s.swapUsed - bytes) = _
    ring
  · refine ⟨rfl, rfl, rfl, rfl, ?_⟩
    change s.swapFree - bytes + (s.swapUsed + bytes) = _
    ring

section
variable {parts : Nat → List Nat}

theorem Books.owners (h : Books g s parts) : Owners s (liveOf parts s.memChunks.entries) := by
  intro e mem buf cached
  obtain ⟨_, isBuf⟩ := cachedBuf_eq_some.mp cached
  have found := SortedMap.get?_eq_some_iff.mpr mem
  obtain ⟨isHead, isSize⟩ := h.owns e.1 e.2 buf found isBuf
  exact ⟨⟨parts e.1, e.1⟩, mem_liveOf.mpr ⟨rfl, e.2, buf, mem, isBuf⟩, rfl, isHead, isSize⟩

/-- The loop of `cleanupCachedElements` leaves the chunks alone that are not cached. -/
theorem Books.cleanupLoop (minimumSize : Nat) : ∀ (chunks : List (Nat × Chunk)) {s : State}
    (cleaned : Nat), Books g s parts → (∀ e ∈ chunks, s.memChunks.get? e.1 = some e.2) →
    (chunks.map Prod.fst).Nodup →
    ∃ t n, State.cleanupLoop g minimumSize chunks s cleaned = some (t, n) ∧ Books g t parts ∧
      ∀ id c, State.cachedBuf c = none → s.memChunks.get? id = some c →
        t.memChunks.get? id = some c := by
  intro chunks
  induction chunks with
  | nil =>
      intro s cleaned h _ _
      exact ⟨s, cleaned, rfl, h, fun _ _ _ found => found⟩
  | cons e chunks ih =>
      intro s cleaned h there nodup
      obtain ⟨id, chunk⟩ := e
      obtain ⟨fresh, nodup⟩ := List.nodup_cons.mp nodup
      have found := there (id, chunk) List.mem_cons_self
      have there' := fun e mem => there e (List.mem_cons_of_mem _ mem)
      by_cases goes : minimumSize = 0 ∨ cleaned < minimumSize
      · cases cached : State.cachedBuf chunk with
        | none =>
            simp only [State.cleanupLoop, if_pos goes, cached]
            exact ih cleaned h there' nodup
        | some buf =>
            obtain ⟨resident, isBuf⟩ := cachedBuf_eq_some.mp cached
            obtain ⟨t, freed, only, books⟩ := h.drop found isBuf
              (by rintro loading; simp only at loading; rw [loading] at resident; cases resident)
            have next := books (t.setChunk id { chunk with swapBuf := none })
              (sameSpace_setChunk t id _)
              (by rw [State.setChunk, only.memChunks])
              (by
                rw [usedBytes_resident resident]
                change t.swapUsed = _
                rw [only.swapUsed]
                exact (sub_zero _).symm)
            have others : ∀ e ∈ chunks, e.1 ≠ id := by
              rintro e mem rfl
              exact fresh (List.mem_map.mpr ⟨e, mem, rfl⟩)
            obtain ⟨u, n, is, booksU, rest⟩ := ih (cleaned + chunk.size) next (by
              intro e mem
              rw [get?_setChunk, if_neg (others e mem), only.memChunks]
              exact there' e mem) nodup
            refine ⟨u, n, ?_, booksU, fun j d uncached foundJ => rest j d uncached ?_⟩
            · simp only [State.cleanupLoop, if_pos goes, cached, freed]
              exact is
            · rw [get?_setChunk, only.memChunks]
              split
              · rename_i here
                cases here
                have same : chunk = d := Option.some.inj (found.symm.trans foundJ)
                rw [same, uncached] at cached
                cases cached
              · exact foundJ
      · exact ⟨s, cleaned, by simp only [State.cleanupLoop, if_neg goes], h,
          fun _ _ _ found => found⟩

theorem Books.cleanup (h : Books g s parts) (minimumSize : Nat) :
    ∃ t result, s.cleanupCachedElements g minimumSize = some (t, result) ∧ Books g t parts ∧
      ∀ id c, State.cachedBuf c = none → s.memChunks.get? id = some c →
        t.memChunks.get? id = some c := by
  obtain ⟨t, n, is, books, rest⟩ := Books.cleanupLoop minimumSize s.memChunks.entries 0 h
    (fun e mem => SortedMap.get?_eq_some_iff.mpr mem)
    (s.memChunks.sorted_keys.imp fun less => less.ne)
  exact ⟨t, decide (minimumSize < n), by rw [State.cleanupCachedElements, is]; rfl, books, rest⟩

/-- What `pfmalloc` finds, and what it can make room for. -/
def RoomFor (s : State) (size : Nat) : Prop :=
  size ≤ freeBytes s ∨
    size - freeBytes s < cleanedUp (size - freeBytes s) s.memChunks.entries 0

theorem Books.swapOutNew (h : Books g s parts) {id : Nat} {c : Chunk}
    (found : s.memChunks.get? id = some c) (uncached : c.swapBuf = none) :
    (s.freeSpace.keys = [] ∧ s.swapOutNew g id c = .refused s) ∨
      (s.freeSpace.keys ≠ [] ∧ RoomFor s c.size ∧ ∃ t parts',
        s.swapOutNew g id c = .moved t c.size ∧ Books g t parts') ∨
      (s.freeSpace.keys ≠ [] ∧ ¬ RoomFor s c.size ∧ ∃ t,
        s.swapOutNew g id c = .threw t ∧ Books g t parts) := by
  have pos := (h.sound id c found).pos
  have placedAt : ∀ u t ps, Books g u parts → u.memChunks.get? id = some c →
      Placed g u t none id ps c.size → s.pfmalloc g c.size id = .found t (ps.headD 0) →
      ∃ t parts', s.swapOutNew g id c = .moved t c.size ∧ Books g t parts' := by
    intro u t ps books foundU placed is
    refine ⟨(t.claimUsageof c.size true).setChunk id
      { c with swapBuf := some (ps.headD 0), status := .swapout }, Function.update parts id ps,
      by simp only [State.swapOutNew, is], ?_⟩
    refine books.place foundU uncached placed
      { c with swapBuf := some (ps.headD 0), status := .swapout } rfl rfl
      (sameSpace_claim t c.size true id _) ?_ ?_
    · change t.memChunks.insert id _ = _
      rw [placed.only.memChunks]
    · change t.swapUsed + c.size = _
      have bytes :
          usedBytes { c with swapBuf := some (ps.headD 0), status := .swapout } = c.size := by
        simp [usedBytes, copyBytes, MemoryStatus.hasFlag, MemoryStatus.code]
      rw [placed.only.swapUsed, bytes]
  by_cases empty : s.freeSpace.keys = []
  · exact .inl ⟨empty, by simp only [State.swapOutNew, pfmalloc_null empty]⟩
  · by_cases fits : c.size ≤ freeBytes s
    · obtain ⟨t, ps, is, placed⟩ := pfmalloc_free h.represents.laid pos fits id
      exact .inr (.inl ⟨empty, .inl fits, placedAt s t ps h found placed is⟩)
    · obtain ⟨u, dropped, kept, _, ⟨result, cleaned⟩, enough, not⟩ :=
        pfmalloc_none h.represents h.owners empty (Nat.lt_of_not_le fits) id
      obtain ⟨u', result', cleaned', books, rest⟩ := h.cleanup (c.size - freeBytes s)
      rw [cleaned] at cleaned'
      cases cleaned'
      have notCached : State.cachedBuf c = none := by
        unfold State.cachedBuf
        rw [uncached, ite_self]
      by_cases more :
          c.size - freeBytes s < cleanedUp (c.size - freeBytes s) s.memChunks.entries 0
      · obtain ⟨t, ps, is, placed⟩ := enough more
        exact .inr (.inl ⟨empty, .inr more,
          placedAt u t ps books (rest id c notCached found) placed is⟩)
      · refine .inr (.inr ⟨empty, not_or.mpr ⟨fits, more⟩, u, ?_, books⟩)
        simp only [State.swapOutNew, not more]

end

/-! ### Free swap -/

theorem Represents.heldBytes {live : List Allocation} (h : Represents g s live) :
    heldBytes s.held = (live.map fun a => s.chainSize a.parts).sum := by
  have all := chainSize_eq (s := s) h.parts_nodup fun k mem => h.owned.mem_iff.mp mem
  have same : (s.held.filter fun e => e.1 ∈ live.flatMap Allocation.parts) = s.held :=
    List.filter_eq_self.mpr fun e mem =>
      decide_eq_true (h.owned.mem_iff.mpr (List.mem_map_of_mem mem))
  rw [same, chainSize_flatMap] at all
  exact all.symm

theorem heldBytes_add_tails (h : Laid g s) : ∀ held : List (Nat × PageFileLocation × Nat),
    (∀ e ∈ held, e ∈ s.held) → heldBytes held + tails held = spanned held := by
  intro held
  induction held with
  | nil => intro _; rfl
  | cons e held ih =>
      intro sub
      have rest := ih fun f mem => sub f (List.mem_cons_of_mem _ mem)
      have le := h.size_le (sub e List.mem_cons_self)
      rw [tails_cons, spanned_cons, FileSwap.heldBytes, List.map_cons, List.sum_cons]
      rw [FileSwap.heldBytes] at rest
      omega

/-- `swapFree` counts the free bytes and the bytes that cached copies hold. -/
theorem Books.swapFree_eq {parts : Nat → List Nat} (h : Books g s parts) :
    s.swapFree = freeBytes s + sumOver cachedBytes s.memChunks.entries := by
  have balanced := h.represents.balanced
  have free := h.represents.laid.freeBytes_add_spanned
  have sums := heldBytes_add_tails h.represents.laid s.held fun _ mem => mem
  have held := h.represents.heldBytes
  have copies : ∀ l : List (Nat × Chunk), (∀ e ∈ l, s.memChunks.get? e.1 = some e.2) →
      ((liveOf parts l).map fun a => s.chainSize a.parts).sum = sumOver copyBytes l := by
    intro l
    induction l with
    | nil => intro _; rfl
    | cons e l ih =>
        intro there
        have rest := ih fun f mem => there f (List.mem_cons_of_mem _ mem)
        rw [sumOver_cons]
        cases isBuf : e.2.swapBuf with
        | none =>
            have zero : copyBytes e.2 = 0 := by simp [copyBytes, isBuf]
            rw [liveOf_cons_none parts l isBuf, rest, zero, Nat.zero_add]
        | some buf =>
            have bytes : copyBytes e.2 = e.2.size := by simp [copyBytes, isBuf]
            rw [liveOf_cons_some parts l isBuf, List.map_cons, List.sum_cons, rest, bytes]
            rw [(h.owns e.1 e.2 buf (there e List.mem_cons_self) isBuf).2]
  rw [copies _ fun e mem => SortedMap.get?_eq_some_iff.mpr mem, sumOver_copyBytes] at held
  have used := h.used
  omega

/-- How far the loop of `cleanupCachedElements` gets: it stops at the first chunk with which the
minimum is reached. -/
theorem cleanedUp_spec (minimum : Nat) (pos : 0 < minimum) : ∀ (l : List (Nat × Chunk)) {n : Nat},
    (minimum ≤ n + sumOver cachedBytes l → minimum ≤ cleanedUp minimum l n) ∧
      (n ≤ minimum → minimum ≤ n + sumOver cachedBytes l →
        (cleanedUp minimum l n = minimum ↔
          ∃ pre, pre <+: l ∧ n + sumOver cachedBytes pre = minimum)) := by
  intro l
  induction l with
  | nil =>
      intro n
      refine ⟨fun le => le, fun _ _ => ?_⟩
      constructor
      · intro is
        exact ⟨[], List.prefix_rfl, is⟩
      · rintro ⟨pre, isPre, is⟩
        rw [List.prefix_nil.mp isPre] at is
        exact is
  | cons e l ih =>
      intro n
      obtain ⟨id, c⟩ := e
      have cons : ∀ l, sumOver cachedBytes ((id, c) :: l) = cachedBytes c + sumOver cachedBytes l :=
        fun l => sumOver_cons cachedBytes (id, c) l
      by_cases goes : n < minimum
      · -- the next chunk is looked at
        have next : cleanedUp minimum ((id, c) :: l) n =
            cleanedUp minimum l (n + cachedBytes c) := by
          rw [cleanedUp, if_pos (.inr goes)]
          cases cached : State.cachedBuf c with
          | none =>
              have zero : cachedBytes c = 0 := by
                unfold State.cachedBuf at cached
                unfold cachedBytes copyBytes
                split
                · rename_i resident
                  rw [if_pos resident] at cached
                  simp [cached]
                · rfl
              rw [zero, Nat.add_zero]
          | some buf =>
              obtain ⟨resident, isBuf⟩ := cachedBuf_eq_some.mp cached
              have bytes : cachedBytes c = c.size := by
                simp [cachedBytes, copyBytes, resident, isBuf]
              rw [bytes]
        rw [next, cons, ← Nat.add_assoc]
        obtain ⟨reaches, precise⟩ := ih (n := n + cachedBytes c)
        refine ⟨reaches, fun _ enough => ?_⟩
        have prefixes : (∃ pre, pre <+: (id, c) :: l ∧ n + sumOver cachedBytes pre = minimum) ↔
            ∃ pre, pre <+: l ∧ n + cachedBytes c + sumOver cachedBytes pre = minimum := by
          constructor
          · rintro ⟨pre, isPre, is⟩
            cases pre with
            | nil => exact absurd is goes.ne
            | cons f pre =>
                obtain ⟨isHead, rest⟩ := List.cons_prefix_cons.mp isPre
                cases isHead
                rw [cons, ← Nat.add_assoc] at is
                exact ⟨pre, rest, is⟩
          · rintro ⟨pre, isPre, is⟩
            refine ⟨(id, c) :: pre, List.cons_prefix_cons.mpr ⟨rfl, isPre⟩, ?_⟩
            rw [cons, ← Nat.add_assoc, is]
        rw [prefixes]
        by_cases le : n + cachedBytes c ≤ minimum
        · exact precise le enough
        · have stays := reaches enough
          have stop : cleanedUp minimum l (n + cachedBytes c) = n + cachedBytes c := by
            cases l with
            | nil => rfl
            | cons f l => exact if_neg (by omega)
          constructor
          · intro is
            omega
          · rintro ⟨pre, _, is⟩
            omega
      · -- the minimum has been reached
        have stop : cleanedUp minimum ((id, c) :: l) n = n := if_neg (by omega)
        rw [stop]
        refine ⟨fun _ => Nat.le_of_not_lt goes, fun le _ => ⟨fun is => ?_, fun _ => ?_⟩⟩
        · exact ⟨[], List.nil_prefix, is⟩
        · omega

/-- `swapOut` finds a place for a chunk that `swapFree` has room for exactly under this condition on
the free locations and the cached chunks, in the order of their ids. -/
def FindsRoom (s : State) (size : Nat) : Prop :=
  s.freeSpace.keys ≠ [] ∧
    (size ≤ freeBytes s ∨
      ∀ pre, pre <+: s.memChunks.entries → freeBytes s + sumOver cachedBytes pre ≠ size)

theorem Books.roomFor_iff {parts : Nat → List Nat} (h : Books g s parts) {size : Nat}
    (fits : (size : Int) ≤ s.swapFree) :
    RoomFor s size ↔ size ≤ freeBytes s ∨
      ∀ pre, pre <+: s.memChunks.entries → freeBytes s + sumOver cachedBytes pre ≠ size := by
  unfold RoomFor
  by_cases free : size ≤ freeBytes s
  · exact iff_of_true (.inl free) (.inl free)
  · rw [or_iff_right free, or_iff_right free]
    have total := h.swapFree_eq
    have enough : size - freeBytes s ≤ 0 + sumOver cachedBytes s.memChunks.entries := by omega
    obtain ⟨reaches, exactly⟩ := cleanedUp_spec (size - freeBytes s) (by omega)
      s.memChunks.entries (n := 0)
    have le := reaches enough
    have here := exactly (Nat.zero_le _) enough
    constructor
    · intro more pre isPre is
      have eq := here.mpr ⟨pre, isPre, by omega⟩
      omega
    · intro never
      refine lt_of_le_of_ne le fun eq => ?_
      obtain ⟨pre, isPre, is⟩ := here.mp eq.symm
      clear here exactly
      exact never pre isPre (by omega)

/-! ### Runs -/

section
variable {parts : Nat → List Nat}

theorem Books.swapOut (h : Books g s parts) {id : Nat} {c : Chunk}
    (found : s.memChunks.get? id = some c)
    (status : c.status = .allocated ∨ c.status = .swapped ∨ c.status = .swapout) :
    ∃ t parts', SwapOp.afterSwapOut (s.swapOut g id) = some t ∧ Books g t parts' := by
  unfold State.swapOut
  simp only [found]
  split
  · exact ⟨s, parts, rfl, h⟩
  · split
    · exact ⟨s, parts, rfl, h⟩
    · rename_i not
      have resident : c.status = .allocated := status.resolve_right not
      cases isBuf : c.swapBuf with
      | some buf =>
          refine ⟨_, parts, rfl, h.setChunk found
            { c with status := .swapped, swapBuf := some buf } isBuf.symm rfl
            (fun loading => by cases loading) (sameSpace_claim s c.size true id _) rfl ?_⟩
          have before : usedBytes c = 0 := usedBytes_resident (by rw [resident]; rfl)
          have bytes :
              usedBytes { c with status := .swapped, swapBuf := some buf } = c.size := by
            simp [usedBytes, copyBytes, MemoryStatus.hasFlag, MemoryStatus.code]
          rw [before, bytes]
          change s.swapUsed + c.size = _
          ring
      | none =>
          rcases h.swapOutNew found isBuf with ⟨_, is⟩ | ⟨_, _, t, parts', is, books⟩ |
            ⟨_, _, t, is, books⟩
          · simp only [is]
            exact ⟨s, parts, rfl, h⟩
          · simp only [is]
            exact ⟨t, parts', rfl, books⟩
          · simp only [is]
            exact ⟨t, parts, rfl, books⟩

theorem Books.swapIn (h : Books g s parts) {id : Nat} (taken : s.swapIn id = some t) :
    Books g t parts := by
  obtain ⟨c, found, is⟩ := Option.bind_eq_some_iff.mp taken
  split at is
  · rename_i swapped
    split at is
    · rename_i buf isBuf
      cases is
      refine h.setChunk found { c with status := .swapin } rfl rfl
        (fun _ => by rw [isBuf]; rfl) (sameSpace_setChunk s id _) rfl ?_
      have same : usedBytes { c with status := .swapin } = usedBytes c := by
        simp [usedBytes, copyBytes, MemoryStatus.hasFlag, MemoryStatus.code, swapped]
      rw [same]
      exact (sub_add_cancel _ _).symm
    · cases is
      exact h
  · cases is

/-- The chunk that `completeTransactionOn` leaves is the one of `SwapEvent.complete`. -/
theorem completeTransactionOn_chunk {id : Nat} {c : Chunk}
    (found : s.memChunks.get? id = some c) :
    ((s.completeTransactionOn id).bind fun t => t.memChunks.get? id).map
      Chunk.toManagedMemoryChunk = SwapEvent.complete.apply c.toManagedMemoryChunk := by
  unfold State.completeTransactionOn SwapEvent.apply
  cases status : c.status <;> simp [found, status, get?_setChunk]

theorem Books.complete (h : Books g s parts) {id : Nat}
    (taken : s.completeTransactionOn id = some t) : Books g t parts := by
  obtain ⟨c, found, is⟩ := Option.bind_eq_some_iff.mp taken
  cases status : c.status with
  | swapin =>
      simp only [status] at is
      cases is
      refine h.setChunk found { c with
        status := if c.useCnt = 0 then .allocated else .allocatedInuseRead } rfl rfl
        (fun loading => ?_) (sameSpace_claim s c.size false id _) rfl ?_
      · simp only at loading
        split at loading <;> cases loading
      have before : usedBytes c = c.size := by
        simp [usedBytes, copyBytes, MemoryStatus.hasFlag, MemoryStatus.code, status,
          (h.sound id c found).copied status]
      have later : usedBytes { c with
          status := if c.useCnt = 0 then .allocated else .allocatedInuseRead } = 0 := by
        apply usedBytes_resident
        simp only
        split <;> rfl
      rw [before, later]
      change s.swapUsed - c.size = _
      simp
  | swapout =>
      simp only [status] at is
      cases is
      refine h.setChunk found { c with status := .swapped } rfl rfl
        (fun loading => by cases loading) (sameSpace_setChunk s id _) rfl ?_
      have same : usedBytes { c with status := .swapped } = usedBytes c := by
        simp [usedBytes, copyBytes, MemoryStatus.hasFlag, MemoryStatus.code, status]
      rw [same]
      exact (sub_add_cancel _ _).symm
  | _ =>
      simp only [status] at is
      cases is

end

theorem extendSwap_returned_true {freeDiskSpace size : Nat} {opens : Nat → State.OpenResult}
    (is : s.extendSwap g freeDiskSpace opens size = .returned t true) :
    State.wholeFiles g size ≤ freeDiskSpace ∧ ∀ n, s.pageFileNumber ≤ n →
      n < s.pageFileNumber + State.wholeFiles g size / g.pageFileSize →
      OpenResult.isOpened (opens n) = true := by
  have opening := (openSwapFileRange_spec opens (State.wholeFiles g size / g.pageFileSize)
    s.pageFileNumber { s with
      pageFileNumber := s.pageFileNumber + State.wholeFiles g size / g.pageFileSize
      swapFiles := s.swapFiles ++
        List.replicate (State.wholeFiles g size / g.pageFileSize) none }).2
  unfold State.extendSwap at is
  simp only at is
  split at is
  · cases is
  · rename_i room
    refine ⟨Nat.le_of_not_lt room, opening.mp ?_⟩
    split at is
    · rename_i returned
      rw [returned]
      rfl
    · cases is
    · cases is

/-- New files change nothing of what is held. -/
theorem Represents.grown {live : List Allocation} (h : Represents g s live) {size : Nat}
    (grown : Grown g s size t) (used : t.swapUsed = s.swapUsed) :
    Represents g t live ∧ t.held = s.held := by
  have whole : g.pageFileSize ∣ State.wholeFiles g size := by
    have division := Nat.div_add_mod size g.pageFileSize
    have less := Nat.mod_lt size g.file_pos
    unfold State.wholeFiles
    split
    · rename_i zero
      rw [Nat.add_zero]
      exact Nat.dvd_of_mod_eq_zero zero
    · refine ⟨size / g.pageFileSize + 1, ?_⟩
      rw [Nat.mul_add, Nat.mul_one]
      omega
  obtain ⟨left, isLeft⟩ : ∃ left, left = State.wholeFiles g size / g.pageFileSize := ⟨_, rfl⟩
  have bytes : left * g.pageFileSize = State.wholeFiles g size := by
    rw [isLeft]
    exact Nat.div_mul_cancel whole
  have entries := grown.allSpace
  have keys := grown.freeSpace
  have number := grown.pageFileNumber
  rw [← isLeft] at entries keys number
  have swapSize : t.swapSize = (s.pageFileNumber + left) * g.pageFileSize := by
    rw [grown.swapSize, h.files, ← bytes, Nat.add_mul]
  have new := newFiles_tiles (g := g) s.pageFileNumber left
  rw [← swapSize] at new
  have held : t.held = s.held := by
    rw [State.held, entries, shape_append, kept_append, new.start_eq, kept_newFiles,
      List.append_nil, State.held, h.files]
  have same : ∀ k b, s.allSpace.get? k = some b → t.allSpace.get? k = some b := fun k b found => by
    rw [SortedMap.get?_eq_some_iff, entries]
    exact List.mem_append_left _ (SortedMap.get?_eq_some_iff.mp found)
  have tiles := h.laid.tiles
  rw [h.files] at tiles
  refine ⟨?_, held⟩
  exact {
    laid := {
      tiles := by
        rw [entries]
        exact tiles_append.mpr ⟨_, tiles, new⟩
      merged := by
        rw [entries]
        exact Merged.append_files h.laid.merged s.pageFileNumber left
      free := by
        have free : s.freeSpace.keys = freeKeys s.allSpace.entries := h.laid.free
        rw [keys, free, ← freeKeys_append, entries]
        rfl }
    files := by rw [swapSize, number]
    chained := fun a mem => (h.chained a mem).frame fun k _ b found _ => same k b found
    owned := by
      rw [held]
      exact h.owned
    balanced := by
      have balanced := h.balanced
      rw [grown.swapFree, used, grown.swapSize, held]
      push_cast
      omega }

theorem Books.extend {parts : Nat → List Nat} (h : Books g s parts) {freeDiskSpace size : Nat}
    {opens : Nat → State.OpenResult}
    (is : s.extendSwap g freeDiskSpace opens size = .returned t true) : Books g t parts := by
  obtain ⟨room, opened⟩ := extendSwap_returned_true is
  obtain ⟨t', is', grown, used, chunks⟩ :=
    extendSwap_grown (h.represents.laid.below h.represents.files) room opened
  rw [is] at is'
  cases is'
  have rep := (h.represents.grown grown used).1
  refine ⟨by rw [chunks]; exact rep, fun id c buf found isBuf => ?_,
    by rw [used, chunks]; exact h.used, by rw [chunks]; exact h.sound⟩
  rw [chunks] at found
  obtain ⟨isHead, isSize⟩ := h.owns id c buf found isBuf
  refine ⟨isHead, ?_⟩
  rw [← isSize]
  refine chainSize_congr fun k mem => ?_
  have memLive : (⟨parts id, id⟩ : Allocation) ∈ liveOf parts s.memChunks.entries :=
    mem_liveOf.mpr ⟨rfl, c, buf, SortedMap.get?_eq_some_iff.mp found, isBuf⟩
  obtain ⟨p, foundK, _⟩ := (h.represents.chained _ memLive).held mem
  rw [foundK, SortedMap.get?_eq_some_iff, grown.allSpace]
  exact List.mem_append_left _ (SortedMap.get?_eq_some_iff.mp foundK)

/-- A chunk whose transfer has completed is resident or swapped. -/
theorem completed_status {id : Nat} (completed : s.completeTransactionOn id = some t) :
    ∃ d, t.memChunks.get? id = some d ∧
      (d.status.hasFlag .allocated = true ∨ d.status = .swapped) := by
  obtain ⟨c, found, is⟩ := Option.bind_eq_some_iff.mp completed
  split at is
  · cases is
    refine ⟨_, by rw [get?_setChunk, if_pos rfl], .inl ?_⟩
    dsimp only
    split_ifs <;> rfl
  · cases is
    exact ⟨_, by rw [get?_setChunk, if_pos rfl], .inr rfl⟩
  · cases is

/-- `swapDelete` of a chunk without a pending transfer, which `mfree` then forgets. -/
theorem Books.delete {parts : Nat → List Nat} {id : Nat} {c : Chunk} (h : Books g s parts)
    (found : s.memChunks.get? id = some c)
    (status : c.status.hasFlag .allocated = true ∨ c.status = .swapped)
    (taken : SwapOp.delete g s id = some t) : Books g t parts := by
  obtain ⟨c', found', is⟩ := Option.bind_eq_some_iff.mp taken
  rw [found] at found'
  cases found'
  obtain ⟨u, deleted, rfl⟩ := Option.map_eq_some_iff.mp is
  have idle : c.status ≠ .swapin := by
    rintro loading
    rw [loading] at status
    rcases status with is | is <;> cases is
  unfold State.swapDelete at deleted
  split at deleted
  · rename_i buf isBuf
    obtain ⟨v, freed, only, books⟩ := h.drop found isBuf idle
    rw [freed, Option.map_some] at deleted
    have next : Books g u parts ∧ u.memChunks.get? id = some { c with swapBuf := none } := by
      split at deleted
      · rename_i swapped
        cases deleted
        have bytes : usedBytes c = c.size := by
          simp [usedBytes, copyBytes, swapped, isBuf, MemoryStatus.hasFlag, MemoryStatus.code]
        refine ⟨books _ (sameSpace_claim v c.size false id _) ?_ ?_, ?_⟩
        · change v.memChunks.insert id _ = _
          rw [only.memChunks]
        · rw [bytes, ← only.swapUsed]
          rfl
        · rw [get?_setChunk, if_pos rfl]
      · rename_i not
        cases deleted
        refine ⟨books _ (sameSpace_setChunk v id _) ?_ ?_, by rw [get?_setChunk, if_pos rfl]⟩
        · change v.memChunks.insert id _ = _
          rw [only.memChunks]
        · rw [usedBytes_resident (status.resolve_right not)]
          change v.swapUsed = _
          rw [only.swapUsed]
          exact (sub_zero _).symm
    exact next.1.unregister next.2 rfl
  · rename_i uncached
    cases deleted
    exact h.unregister found uncached

/-- What every operation keeps. -/
theorem step_books {parts : Nat → List Nat} {op : SwapOp} (h : Books g s parts)
    (taken : SwapOp.step g s op = some t) : ∃ parts', Books g t parts' := by
  cases op with
  | register id size =>
      simp only [SwapOp.step] at taken
      split at taken
      · rename_i ok
        cases taken
        exact ⟨parts, h.register ok.1 rfl ⟨ok.2.1, fun loading => by cases loading⟩⟩
      · cases taken
  | use id status useCnt =>
      obtain ⟨c, found, is⟩ := Option.bind_eq_some_iff.mp taken
      split at is
      · rename_i allowed
        cases is
        refine ⟨parts, h.setChunk found { c with status, useCnt } rfl rfl
          (fun loading => ?_) (sameSpace_setChunk s id _) rfl ?_⟩
        · simp only at loading
          rcases allowed with same | ⟨resident, _⟩
          · exact (h.sound id c found).copied (same.symm.trans loading)
          · rw [loading] at resident
            cases resident
        · have same : usedBytes { c with status, useCnt } = usedBytes c := by
            rcases allowed with same | ⟨resident, resident'⟩
            · rw [same]
              rfl
            · rw [usedBytes_resident resident', usedBytes_resident resident]
          rw [same]
          exact (sub_add_cancel _ _).symm
      · cases is
  | swapOut id =>
      obtain ⟨c, found, is⟩ := Option.bind_eq_some_iff.mp taken
      split at is
      · rename_i status
        obtain ⟨t', parts', is', books⟩ := h.swapOut found status
        rw [is] at is'
        cases is'
        exact ⟨parts', books⟩
      · cases is
  | swapIn id => exact ⟨parts, h.swapIn taken⟩
  | complete id => exact ⟨parts, h.complete taken⟩
  | invalidateCacheFor id =>
      obtain ⟨c, found, is⟩ := Option.bind_eq_some_iff.mp taken
      split at is
      · rename_i resident
        unfold State.invalidateCacheFor at is
        split at is
        · rename_i buf isBuf
          obtain ⟨u, freed, only, books⟩ := h.drop found isBuf
            (fun loading => by rw [loading] at resident; cases resident)
          rw [freed] at is
          cases is
          refine ⟨parts, books _ (sameSpace_setChunk u id _) ?_ ?_⟩
          · change u.memChunks.insert id _ = _
            rw [only.memChunks]
          rw [usedBytes_resident resident]
          change u.swapUsed = _
          rw [only.swapUsed]
          exact (sub_zero _).symm
        · cases is
          exact ⟨parts, h⟩
      · cases is
  | mfree id =>
      obtain ⟨c, found, is⟩ := Option.bind_eq_some_iff.mp taken
      split at is
      · rename_i status
        refine ⟨parts, h.delete found (status.imp_left fun eq => ?_) is⟩
        rw [eq]
        rfl
      · split at is
        · obtain ⟨u, completed, deleted⟩ := Option.bind_eq_some_iff.mp is
          obtain ⟨d, foundD, status⟩ := completed_status completed
          exact ⟨parts, (h.complete completed).delete foundD status deleted⟩
        · cases is
  | cleanupCachedElements minimumSize =>
      obtain ⟨r, is, rfl⟩ := Option.map_eq_some_iff.mp taken
      obtain ⟨u, result, is', books, _⟩ := h.cleanup minimumSize
      rw [is] at is'
      cases is'
      exact ⟨parts, books⟩
  | extendSwap freeDiskSpace opens size =>
      simp only [SwapOp.step] at taken
      split at taken
      · rename_i u is
        cases taken
        exact ⟨parts, h.extend is⟩
      · cases taken
      · cases taken

theorem construct_books (g : Geometry) (n : Nat) (enableDMA : Bool) (fileno : Nat → Nat) :
    Books g (.construct g n enableDMA fileno) fun _ => [] := by
  obtain ⟨_, _, _, swapUsed, _, chunks, _⟩ := construct_spec g n enableDMA fileno
  refine ⟨?_, fun id c buf found => ?_, ?_, fun id c found => ?_⟩
  · rw [chunks]
    exact (construct_represents g n enableDMA fileno).1
  · rw [chunks] at found
    cases found
  · rw [chunks, swapUsed]
    rfl
  · rw [chunks] at found
    cases found

/-- A swap that the operations lead to. -/
def Reached (g : Geometry) (s : State) : Prop :=
  ∃ n enableDMA fileno ops, run (SwapOp.step g) (.construct g n enableDMA fileno) ops = some s

theorem Reached.books (reached : Reached g s) : ∃ parts, Books g s parts := by
  obtain ⟨n, enableDMA, fileno, ops, is⟩ := reached
  exact run_invariant (fun s => ∃ parts, Books g s parts)
    (fun _ _ _ h taken => step_books h.choose_spec taken) ops
    ⟨_, construct_books g n enableDMA fileno⟩ is

/-- `swapOut` has neither returned 0 nor thrown. -/
def State.SwappedOut.succeeds : State.SwappedOut → Bool
  | .moved _ bytes => bytes ≠ 0
  | _ => false

/-- With room reported by `swapFree`, `swapOut` of a resident chunk succeeds exactly when the chunk
has a swap copy already or finds room. -/
theorem swapOut_succeeds_iff (g : Geometry) (s : State) (reached : Reached g s) (id : Nat)
    (c : Chunk) (found : s.memChunks.get? id = some c) (resident : c.status = .allocated)
    (fits : (c.size : Int) ≤ s.swapFree) :
    (s.swapOut g id).succeeds = true ↔ c.swapBuf.isSome = true ∨ FindsRoom s c.size := by
  obtain ⟨parts, h⟩ := reached.books
  have pos := (h.sound id c found).pos
  have room := h.roomFor_iff fits
  have not : ¬ (c.status = .swapped ∨ c.status = .swapout) := by
    rw [resident]
    decide
  have moved : ∀ t : State, (State.SwappedOut.moved t c.size).succeeds = true := fun t =>
    decide_eq_true pos.ne'
  unfold State.swapOut
  simp only [found, if_neg (Int.not_lt.mpr fits), if_neg not]
  cases isBuf : c.swapBuf with
  | some buf => exact iff_of_true (moved _) (.inl rfl)
  | none =>
      simp only [Option.isSome_none, Bool.false_eq_true, false_or]
      unfold FindsRoom
      rw [← room]
      rcases h.swapOutNew found isBuf with ⟨empty, is⟩ | ⟨nonempty, fits, t, _, is, _⟩ |
        ⟨nonempty, tooSmall, t, is, _⟩
      · rw [is]
        exact iff_of_false Bool.false_ne_true fun both => both.1 empty
      · rw [is]
        exact iff_of_true (moved t) ⟨nonempty, fits⟩
      · rw [is]
        exact iff_of_false Bool.false_ne_true fun both => tooSmall both.2

theorem swapOut_succeeds_iff_new_chunk :
    (State.swapOut kibFiles ((State.construct kibFiles 2 true id).setChunk 7
        ⟨⟨.allocated, 0⟩, 1536, none⟩) 7).succeeds = true ↔
      (none : Option Nat).isSome = true ∨
        FindsRoom ((State.construct kibFiles 2 true id).setChunk 7
          ⟨⟨.allocated, 0⟩, 1536, none⟩) 1536 :=
  swapOut_succeeds_iff kibFiles _ ⟨2, true, id, [.register 7 1536], rfl⟩ 7
    ⟨⟨.allocated, 0⟩, 1536, none⟩ (by decide) rfl (by decide)

/-- A chunk fills the only swap file, is read back and stays cached; a second one comes. -/
def cachedFile : List SwapOp :=
  [.register 1 1024, .swapOut 1, .complete 1, .swapIn 1, .complete 1, .register 2 512]

/-- A chunk fills half of it and stays cached; the second one needs the whole file. -/
def cachedHalf : List SwapOp :=
  [.register 1 512, .swapOut 1, .complete 1, .swapIn 1, .complete 1, .register 2 1024]

/-- There is free swap for the resident chunk, and `swapOut` fails for it. -/
def failsWithRoom (id : Nat) (s : State) : Bool :=
  match s.memChunks.get? id with
  | some c => c.status = .allocated ∧ 0 < c.size ∧ kibFiles.memoryAlignment ∣ c.size ∧
      (c.size : Int) ≤ s.swapFree ∧ (s.swapOut kibFiles id).succeeds = false
  | none => false

theorem cached_failsWithRoom :
    (run (SwapOp.step kibFiles) (.construct kibFiles 1 true id) cachedFile).map
        (failsWithRoom 2) = some true ∧
      (run (SwapOp.step kibFiles) (.construct kibFiles 1 true id) cachedHalf).map
        (failsWithRoom 2) = some true := by
  decide

/-- No free location is left, and nothing is made room for. -/
theorem swapOut_fails_with_room :
    ¬ ∀ s, Reached kibFiles s → ∀ id c, s.memChunks.get? id = some c → c.status = .allocated →
      0 < c.size → kibFiles.memoryAlignment ∣ c.size → (c.size : Int) ≤ s.swapFree →
      (s.swapOut kibFiles id).succeeds = true := by
  intro always
  obtain ⟨s, is, fails⟩ := Option.map_eq_some_iff.mp cached_failsWithRoom.1
  unfold failsWithRoom at fails
  split at fails
  · rename_i c found
    obtain ⟨resident, pos, aligned, room, failed⟩ := of_decide_eq_true fails
    have succeeds := always s ⟨1, true, id, cachedFile, is⟩ 2 c found resident pos aligned room
    rw [failed] at succeeds
    cases succeeds
  · cases fails

/-- `swapFree` is what is free or cached, nothing else is lost but the tails, and neither counter
is ever below zero. -/
theorem reached_balanced (g : Geometry) (s : State) (reached : Reached g s) :
    s.swapFree = freeBytes s + sumOver cachedBytes s.memChunks.entries ∧
      s.swapFree + s.swapUsed + tails s.held = s.swapSize ∧ 0 ≤ s.swapFree ∧ 0 ≤ s.swapUsed := by
  obtain ⟨parts, h⟩ := reached.books
  have free := h.swapFree_eq
  have used := h.used
  exact ⟨free, h.represents.balanced, by omega, by omega⟩

/-- Swap files without direct access. -/
def byteFiles : Geometry :=
  { kibFiles with memoryAlignment := 1, alignment_pos := Nat.one_pos, aligned := one_dvd _ }

/-- A chunk leaves a tail of `24` bytes behind it, is read back and stays cached; a second one is
written out, and a third one is written out and freed. -/
def tailAndCache : List SwapOp :=
  [.register 1 1000, .swapOut 1, .complete 1, .swapIn 1, .complete 1, .register 2 300, .swapOut 2,
    .complete 2, .register 3 400, .swapOut 3, .complete 3, .mfree 3]

theorem reached_balanced_tailAndCache :
    ∃ s, run (SwapOp.step byteFiles) (.construct byteFiles 2 true id) tailAndCache = some s ∧
      s.swapFree = freeBytes s + sumOver cachedBytes s.memChunks.entries ∧
      s.swapFree + s.swapUsed + tails s.held = s.swapSize ∧ 0 ≤ s.swapFree ∧ 0 ≤ s.swapUsed := by
  have taken : (run (SwapOp.step byteFiles) (.construct byteFiles 2 true id)
      tailAndCache).isSome := by decide
  obtain ⟨s, reached⟩ := Option.isSome_iff_exists.mp taken
  exact ⟨s, reached, reached_balanced byteFiles s ⟨2, true, id, tailAndCache, reached⟩⟩

end Rambrain.FileSwap
