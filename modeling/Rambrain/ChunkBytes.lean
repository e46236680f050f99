import Rambrain.CopyMem

/-!
What holds of the bytes of a chunk.

Byte `i` of the buffer is right unless it is still to be read, byte `i` of the swap copy is right
unless it is still to be written, and a chunk that may be written has no swap copy
(`ChunkHolds`). `Holds` puts this beside the books of the swap. A step touches one chunk
(`Holds.touch`); the others keep their bytes (`ChunkHolds.frame`), because the stretches of two
chunks have no place in common.
-/

namespace Rambrain.SwapBytes

open Lib FileSwap
open Transfer (InTransit)

variable {g : Setup} {s t : State} {p : Plain} {parts : Nat → List Nat} {id : Nat} {c : Chunk}
variable {chain : List Nat} {text : Buffer}

/-! ### What holds -/

/-- The requests for a chunk. -/
def State.inFlight (s : State) (id : Nat) : List Aio := s.pendingAios.filter fun r => r.chunk = id

/-- Byte `i` of the buffer is in a request that has not moved it. -/
def Outstanding (requests : List Aio) (i : Nat) : Prop :=
  ∃ r ∈ requests, r.ramBuf ≤ i ∧ i < r.ramBuf + r.length ∧ i - r.ramBuf ∉ r.moved

theorem not_outstanding_nil (i : Nat) : ¬ Outstanding [] i := by
  rintro ⟨r, mem, _⟩
  cases mem

/-- The request moves a part of the chain. -/
structure Part (g : Setup) (swap : FileSwap.State) (chain : List Nat) (c : Chunk) (r : Aio) :
    Prop where
  ref : r.ref ∈ chain
  loc : ∃ ref, swap.allSpace.get? r.ref = some ref ∧ aligned g ref.size = r.length
  window : r.window ∈ Stretch.windows 0 (swap.stretches chain)
  reverse : r.reverse = true ↔ c.status = .swapin
  moved : ∀ i ∈ r.moved, i < r.length

/-- What holds of a chunk and its bytes. -/
structure ChunkHolds (g : Setup) (s : State) (chain : List Nat) (text : Buffer) (id : Nat)
    (c : Chunk) : Prop where
  aligned : g.memoryAlignment ∣ c.size
  known : c.status ≠ .allocatedInuse
  ram : c.status ≠ .swapped → ∃ buf, s.locPtr id = some buf ∧
    ∀ i, i < c.size → (c.status = .swapin → ¬ Outstanding (s.inFlight id) i) → buf i = text i
  null : c.status = .swapped → s.locPtr id = none
  copied : c.status.hasFlag .allocated = false → c.swapBuf.isSome = true
  built : c.swapBuf.isSome = true → Built g.toGeometry s.swap.allSpace id chain c.size
  copy : c.swapBuf.isSome = true → Stretch.Keeps s.disk (s.swap.stretches chain) text
    fun i => c.status = .swapout → ¬ Outstanding (s.inFlight id) i
  fits : c.swapBuf.isSome = true → ∀ e ∈ s.swap.stretches chain, Fits s.swap.swapFiles e
  idle : ¬ InTransit c.status → s.inFlight id = []
  part : ∀ r ∈ s.inFlight id, Part g s.swap chain c r
  order : ((s.inFlight id).map Aio.window).Pairwise Stretch.Behind
  tracker : InTransit c.status → s.tracker id = (s.inFlight id).length ∧ s.inFlight id ≠ []
  writers : s.writers id ≤ s.granted id
  uses : s.granted id + s.waiting id ≤ c.useCnt.toNat
  held : 0 < s.granted id → c.status.hasFlag .allocated = true
  clean : 0 < s.writers id → c.swapBuf = none
  inuse : c.status = .allocatedInuseWrite → c.swapBuf = none

/-- The invariant, `p` being what the program has written. -/
structure Holds (g : Setup) (s : State) (p : Plain) (parts : Nat → List Nat) : Prop where
  books : Books g.toGeometry s.swap parts
  files : FilesOpen s.swap
  sizes : ∀ id, (p id).map Text.size = (s.swap.memChunks.get? id).map Chunk.size
  chunks : ∀ id c text, s.swap.memChunks.get? id = some c → p id = some text →
    ChunkHolds g s (parts id) text.byte id c
  registered : ∀ r ∈ s.pendingAios, ∃ c, s.swap.memChunks.get? r.chunk = some c
  gone : ∀ id, s.swap.memChunks.get? id = none →
    s.granted id = 0 ∧ s.writers id = 0 ∧ s.waiting id = 0

theorem inTransit_not_resident {status : MemoryStatus} (transit : InTransit status) :
    status.hasFlag .allocated = false := by
  rcases transit with rfl | rfl
  · rfl
  · rfl

theorem resident_not_inTransit {status : MemoryStatus}
    (resident : status.hasFlag .allocated = true) :
    ¬ InTransit status := by
  intro transit
  rw [inTransit_not_resident transit] at resident
  cases resident

/-- A registered chunk has a text of its size. -/
theorem Holds.exists_text (h : Holds g s p parts) (found : s.swap.memChunks.get? id = some c) :
    ∃ text, p id = some text ∧ text.size = c.size := by
  have size := h.sizes id
  rw [found] at size
  obtain ⟨text, isText, size⟩ := Option.map_eq_some_iff.mp size
  exact ⟨text, isText, size⟩

/-! ### What a step leaves alone -/

/-- Nothing of the chunk `id` has changed beside the swap. -/
structure Untouched (s t : State) (id : Nat) : Prop where
  locPtr : t.locPtr id = s.locPtr id
  inFlight : t.inFlight id = s.inFlight id
  tracker : t.tracker id = s.tracker id
  granted : t.granted id = s.granted id
  writers : t.writers id = s.writers id
  waiting : t.waiting id = s.waiting id

theorem stretches_congr {swap swap' : FileSwap.State}
    (space : ∀ k ∈ chain, swap'.allSpace.get? k = swap.allSpace.get? k) :
    swap'.stretches chain = swap.stretches chain := by
  rw [FileSwap.State.stretches, FileSwap.State.stretches, locations_congr space]

theorem built_congr {m m' : SortedMap Nat PageFileLocation} {size : Nat}
    (built : Built g.toGeometry m id chain size) (same : ∀ k ∈ chain, m'.get? k = m.get? k) :
    Built g.toGeometry m' id chain size := by
  induction chain generalizing size with
  | nil => exact built
  | cons k chain ih =>
      cases chain with
      | nil =>
          obtain ⟨b, found, rest⟩ := built
          exact ⟨b, (same k List.mem_cons_self).trans found, rest⟩
      | cons k' chain =>
          obtain ⟨b, found, part, next, divides, le, rest⟩ := built
          exact ⟨b, (same k List.mem_cons_self).trans found, part, next, divides, le,
            ih rest fun j mem => same j (List.mem_cons_of_mem k mem)⟩

/-- A chunk with requests has a swap copy. -/
theorem ChunkHolds.copied_of_mem (h : ChunkHolds g s chain text id c) {r : Aio}
    (mem : r ∈ s.inFlight id) : c.swapBuf.isSome = true := by
  by_cases transit : InTransit c.status
  · exact h.copied (inTransit_not_resident transit)
  · rw [h.idle transit] at mem
    cases mem

theorem ChunkHolds.frame (h : ChunkHolds g s chain text id c) (un : Untouched s t id)
    (space : c.swapBuf.isSome = true →
      ∀ k ∈ chain, t.swap.allSpace.get? k = s.swap.allSpace.get? k)
    (larger : Larger s.swap.swapFiles t.swap.swapFiles)
    (disk : c.swapBuf.isSome = true → ∀ known,
      Stretch.Keeps s.disk (s.swap.stretches chain) text known →
        Stretch.Keeps t.disk (s.swap.stretches chain) text known) :
    ChunkHolds g t chain text id c where
  aligned := h.aligned
  known := h.known
  ram := by rw [un.locPtr, un.inFlight]; exact h.ram
  null := by rw [un.locPtr]; exact h.null
  copied := h.copied
  built := fun isCopy => built_congr (h.built isCopy) (space isCopy)
  copy := by
    intro isCopy
    rw [un.inFlight, stretches_congr (space isCopy)]
    exact disk isCopy _ (h.copy isCopy)
  fits := by
    intro isCopy e mem
    rw [stretches_congr (space isCopy)] at mem
    exact (h.fits isCopy e mem).larger larger
  idle := by rw [un.inFlight]; exact h.idle
  part := by
    intro r mem
    rw [un.inFlight] at mem
    have same := space (h.copied_of_mem mem)
    have part := h.part r mem
    exact {
      ref := part.ref
      loc := by rw [same r.ref part.ref]; exact part.loc
      window := by rw [stretches_congr same]; exact part.window
      reverse := part.reverse
      moved := part.moved }
  order := by rw [un.inFlight]; exact h.order
  tracker := by rw [un.inFlight, un.tracker]; exact h.tracker
  writers := by rw [un.writers, un.granted]; exact h.writers
  uses := by rw [un.granted, un.waiting]; exact h.uses
  held := by rw [un.granted]; exact h.held
  clean := by rw [un.writers]; exact h.clean
  inuse := h.inuse

/-- The swap copy of a resident chunk is dropped. -/
theorem ChunkHolds.drop (h : ChunkHolds g s chain text id c)
    (resident : c.status.hasFlag .allocated = true) :
    ChunkHolds g s chain text id { c with swapBuf := none } where
  aligned := h.aligned
  known := h.known
  ram := h.ram
  null := h.null
  copied := fun not => by rw [resident] at not; cases not
  built := fun isCopy => by cases isCopy
  copy := fun isCopy => by cases isCopy
  fits := fun isCopy => by cases isCopy
  idle := h.idle
  part := by
    intro r mem
    rw [h.idle (resident_not_inTransit resident)] at mem
    cases mem
  order := h.order
  tracker := h.tracker
  writers := h.writers
  uses := h.uses
  held := h.held
  clean := fun _ => rfl
  inuse := fun _ => rfl

/-- The swap copy of the chunk `id` has kept its bytes. -/
def SameBytes (s t : State) (parts : Nat → List Nat) (id : Nat) : Prop :=
  ∀ c, s.swap.memChunks.get? id = some c → c.swapBuf.isSome = true → ∀ text known,
    Stretch.Keeps s.disk (s.swap.stretches (parts id)) text known →
      Stretch.Keeps t.disk (s.swap.stretches (parts id)) text known

theorem sameBytes_of_eq (disk : t.disk = s.disk) (id : Nat) : SameBytes s t parts id := by
  intro _ _ _ _ _ keeps
  rw [disk]
  exact keeps

/-- A chunk that the swap has left alone. -/
theorem Holds.kept (h : Holds g s p parts) (kept : Kept s.swap t.swap parts id)
    (un : Untouched s t id) (larger : Larger s.swap.swapFiles t.swap.swapFiles)
    (disk : SameBytes s t parts id) {text : Text} (found : t.swap.memChunks.get? id = some c)
    (isText : p id = some text) : ChunkHolds g t (parts id) text.byte id c := by
  rcases kept.chunk with same | ⟨d, foundD, resident, dropped⟩
  · rw [same] at found
    apply (h.chunks id c text found isText).frame un _ larger
    · intro isCopy known keeps
      exact disk c found isCopy text.byte known keeps
    · intro isCopy k mem
      obtain ⟨buf, isBuf⟩ := Option.isSome_iff_exists.mp isCopy
      exact kept.chain c buf (same.trans found) isBuf k mem
  · rw [dropped] at found
    cases found
    have before := (h.chunks id d text foundD isText).drop resident
    apply before.frame un _ larger
    · intro isCopy
      cases isCopy
    · intro isCopy
      cases isCopy

theorem kept_size (kept : Kept s.swap t.swap parts id) :
    (t.swap.memChunks.get? id).map Chunk.size = (s.swap.memChunks.get? id).map Chunk.size := by
  rcases kept.chunk with same | ⟨d, foundD, _, dropped⟩
  · rw [same]
  · rw [foundD, dropped]
    rfl

/-- A step on the chunk `id`: what is left to show is what holds of this chunk. -/
structure Touches (g : Setup) (s t : State) (p p' : Plain) (parts parts' : Nat → List Nat)
    (id : Nat) : Prop where
  books : Books g.toGeometry t.swap parts'
  files : FilesOpen t.swap
  larger : Larger s.swap.swapFiles t.swap.swapFiles
  disk : ∀ j, j ≠ id → SameBytes s t parts j
  kept : ∀ j, j ≠ id → Kept s.swap t.swap parts j
  untouched : ∀ j, j ≠ id → Untouched s t j
  plain : ∀ j, j ≠ id → p' j = p j
  parts : ∀ j, j ≠ id → parts' j = parts j

theorem mem_inFlight {r : Aio} : r ∈ s.inFlight id ↔ r ∈ s.pendingAios ∧ r.chunk = id := by
  rw [State.inFlight, List.mem_filter, decide_eq_true_eq]

theorem Holds.touch {p' : Plain} {parts' : Nat → List Nat} (h : Holds g s p parts) (id : Nat)
    (touches : Touches g s t p p' parts parts' id)
    (size : (p' id).map Text.size = (t.swap.memChunks.get? id).map Chunk.size)
    (chunk : ∀ c text, t.swap.memChunks.get? id = some c → p' id = some text →
      ChunkHolds g t (parts' id) text.byte id c)
    (registered : ∀ r ∈ t.inFlight id, ∃ c, t.swap.memChunks.get? id = some c)
    (gone : t.swap.memChunks.get? id = none →
      t.granted id = 0 ∧ t.writers id = 0 ∧ t.waiting id = 0) : Holds g t p' parts' where
  books := touches.books
  files := touches.files
  sizes := by
    intro j
    by_cases here : j = id
    · rw [here]
      exact size
    · rw [touches.plain j here, h.sizes j, kept_size (touches.kept j here)]
  chunks := by
    intro j c text found isText
    by_cases here : j = id
    · subst here
      exact chunk c text found isText
    · rw [touches.plain j here] at isText
      rw [touches.parts j here]
      exact h.kept (touches.kept j here) (touches.untouched j here) touches.larger
        (touches.disk j here) found isText
  registered := by
    intro r mem
    by_cases here : r.chunk = id
    · rw [here]
      exact registered r (mem_inFlight.mpr ⟨mem, here⟩)
    · have inFlight : r ∈ t.inFlight r.chunk := mem_inFlight.mpr ⟨mem, rfl⟩
      rw [(touches.untouched _ here).inFlight] at inFlight
      obtain ⟨c, found⟩ := h.registered r (mem_inFlight.mp inFlight).1
      have size := kept_size (touches.kept _ here)
      rw [found] at size
      obtain ⟨d, foundD, _⟩ := Option.map_eq_some_iff.mp size
      exact ⟨d, foundD⟩
  gone := by
    intro j absent
    by_cases here : j = id
    · subst here
      exact gone absent
    · have un := touches.untouched j here
      have size := kept_size (touches.kept j here)
      rw [absent] at size
      have before := h.gone j (Option.map_eq_none_iff.mp size.symm)
      rw [un.granted, un.writers, un.waiting]
      exact before

/-- A step of the swap on no chunk. -/
theorem Holds.swap (h : Holds g s p parts) {swap : FileSwap.State}
    (books : Books g.toGeometry swap parts) (files : FilesOpen swap)
    (larger : Larger s.swap.swapFiles swap.swapFiles) (kept : ∀ j, Kept s.swap swap parts j) :
    Holds g { s with swap } p parts where
  books := books
  files := files
  sizes := fun j => (h.sizes j).trans (kept_size (t := { s with swap }) (kept j)).symm
  chunks := by
    intro j c text found isText
    exact h.kept (t := { s with swap }) (kept j) ⟨rfl, rfl, rfl, rfl, rfl, rfl⟩ larger
      (sameBytes_of_eq rfl j) found isText
  registered := by
    intro r mem
    obtain ⟨c, found⟩ := h.registered r mem
    have size := kept_size (t := { s with swap }) (kept r.chunk)
    rw [found] at size
    obtain ⟨d, foundD, _⟩ := Option.map_eq_some_iff.mp size
    exact ⟨d, foundD⟩
  gone := by
    intro j absent
    have size := kept_size (t := { s with swap }) (kept j)
    rw [absent] at size
    exact h.gone j (Option.map_eq_none_iff.mp size.symm)

theorem filesOpen_of_same {swap swap' : FileSwap.State} (files : FilesOpen swap)
    (same : SameFiles swap swap') : FilesOpen swap' where
  length := by rw [same.swapFiles, same.number]; exact files.length
  opened := by rw [same.swapFiles, same.number]; exact files.opened

theorem larger_of_eq {files files' : List (Option SwapFileDesc)} (same : files' = files) :
    Larger files files' := by
  rw [same]
  exact Larger.refl files

end Rambrain.SwapBytes
