import Rambrain.SwapSpace
import Rambrain.Lib.Scatter

/-!
What an operation of the swap leaves alone.

The bytes of a swap copy lie in the stretches of the chunk's chain. `Kept` says what an operation on
another chunk may do to a chunk: its swap copy is dropped if it is cached, else chunk and chain stay
as they are. The stretches of two swap copies have no byte in common (`Books.stretches_apart`), and
neither have two parts of one (`Books.stretches_pairwise`).
-/

namespace Rambrain.FileSwap

open Lib

variable {g : Geometry} {s t u : State} {parts : Nat → List Nat} {id : Nat} {c : Chunk}

/-- The bytes of a swap file that a location names. -/
def PageFileLocation.stretch (ref : PageFileLocation) : Stretch Nat :=
  ⟨ref.file, ref.offset, ref.size⟩

/-- The locations of a chain. -/
def State.locations (s : State) (chain : List Nat) : List PageFileLocation :=
  chain.filterMap s.allSpace.get?

/-- Where the bytes lie that are written along a chain. -/
def State.stretches (s : State) (chain : List Nat) : List (Stretch Nat) :=
  (s.locations chain).map PageFileLocation.stretch

theorem locations_congr {chain : List Nat}
    (same : ∀ k ∈ chain, t.allSpace.get? k = s.allSpace.get? k) :
    t.locations chain = s.locations chain := List.filterMap_congr same

theorem total_stretches (s : State) (chain : List Nat) :
    Stretch.total (s.stretches chain) = s.chainSize chain := by
  induction chain with
  | nil => rfl
  | cons k chain ih =>
      rw [State.stretches, State.locations] at ih ⊢
      cases found : s.allSpace.get? k with
      | none =>
          rw [List.filterMap_cons_none found, ih, State.chainSize, State.chainSize, List.map_cons,
            List.sum_cons, found]
          exact (Nat.zero_add _).symm
      | some b =>
          rw [List.filterMap_cons_some found, List.map_cons, Stretch.total_cons, ih,
            s.chainSize_cons found]
          rfl

/-! ### Stretches do not meet -/

/-- A location that is held begins at its key and ends in its interval. -/
theorem Laid.held_bounds (h : Laid g s) {k fin : Nat} {b : PageFileLocation}
    (mem : (k, b, fin) ∈ s.held) :
    b.file * g.pageFileSize + b.offset = k ∧ k + b.size ≤ fin := by
  obtain ⟨a, is, _, extent⟩ := h.tiles.of_mem_shape (mem_kept.mp mem)
  unfold heldOf at is
  split at is
  · cases is
  · cases is
    have pos := extent.size_pos
    have le := extent.size_le
    constructor
    · rw [extent.file, extent.offset, Nat.mul_comm]
      exact Nat.div_add_mod k g.pageFileSize
    · omega

theorem Laid.stretch_apart (h : Laid g s) {j k : Nat} {a b : PageFileLocation}
    (foundA : s.allSpace.get? j = some a) (heldA : a.status ≠ .pageFree)
    (foundB : s.allSpace.get? k = some b) (heldB : b.status ≠ .pageFree) (ne : j ≠ k) :
    a.stretch.Apart b.stretch := by
  intro file
  obtain ⟨finA, memA⟩ := held_of_get? foundA heldA
  obtain ⟨finB, memB⟩ := held_of_get? foundB heldB
  obtain ⟨beginA, endA⟩ := h.held_bounds memA
  obtain ⟨beginB, endB⟩ := h.held_bounds memB
  have sameFile : a.file = b.file := file
  rw [sameFile] at beginA
  change a.offset + a.size ≤ b.offset ∨ b.offset + b.size ≤ a.offset
  rcases h.apart memA memB ne with before | behind
  · simp only at before
    omega
  · simp only at behind
    omega

/-- What is on the chain of a swap copy. -/
theorem Books.live {buf : Nat} (found : s.memChunks.get? id = some c)
    (isBuf : c.swapBuf = some buf) :
    (⟨parts id, id⟩ : Allocation) ∈ liveOf parts s.memChunks.entries :=
  mem_liveOf.mpr ⟨rfl, c, buf, SortedMap.get?_eq_some_iff.mp found, isBuf⟩

theorem Books.chain_held (h : Books g s parts) {buf k : Nat} (found : s.memChunks.get? id = some c)
    (isBuf : c.swapBuf = some buf) (mem : k ∈ parts id) :
    ∃ b, s.allSpace.get? k = some b ∧ b.status ≠ .pageFree :=
  (h.represents.chained _ (Books.live found isBuf)).held mem

/-- Two swap copies have no byte in common. -/
theorem Books.stretches_apart (h : Books g s parts) {j buf buf' : Nat} {d : Chunk}
    (ne : j ≠ id) (found : s.memChunks.get? id = some c) (isBuf : c.swapBuf = some buf)
    (foundJ : s.memChunks.get? j = some d) (isBufJ : d.swapBuf = some buf') :
    ∀ e ∈ s.stretches (parts j), ∀ f ∈ s.stretches (parts id), e.Apart f := by
  intro e memE f memF
  obtain ⟨a, memA, rfl⟩ := List.mem_map.mp memE
  obtain ⟨b, memB, rfl⟩ := List.mem_map.mp memF
  obtain ⟨ka, memKa, foundA⟩ := List.mem_filterMap.mp memA
  obtain ⟨kb, memKb, foundB⟩ := List.mem_filterMap.mp memB
  obtain ⟨a', isA, heldA⟩ := h.chain_held foundJ isBufJ memKa
  obtain ⟨b', isB, heldB⟩ := h.chain_held found isBuf memKb
  cases foundA.symm.trans isA
  cases foundB.symm.trans isB
  apply h.represents.laid.stretch_apart foundA heldA foundB heldB
  rintro rfl
  exact h.apart ne found isBuf foundJ isBufJ ka memKa memKb

theorem Books.chain_nodup (h : Books g s parts) {buf : Nat} (found : s.memChunks.get? id = some c)
    (isBuf : c.swapBuf = some buf) : (parts id).Nodup :=
  (List.nodup_flatMap.mp h.represents.parts_nodup).1 _ (Books.live found isBuf)

/-- A chain is not longer than there are locations. -/
theorem Books.chain_length (h : Books g s parts) {buf : Nat} (found : s.memChunks.get? id = some c)
    (isBuf : c.swapBuf = some buf) : (parts id).length ≤ s.allSpace.entries.length := by
  have sub : parts id ⊆ s.allSpace.entries.map Prod.fst := by
    intro k mem
    obtain ⟨b, foundK, _⟩ := h.chain_held found isBuf mem
    exact List.mem_map_of_mem (SortedMap.get?_eq_some_iff.mp foundK)
  have le := ((h.chain_nodup found isBuf).subperm sub).length_le
  rw [List.length_map] at le
  exact le

/-- What is held lies in one of the files. -/
theorem Books.file_lt (h : Books g s parts) {k : Nat} {b : PageFileLocation}
    (found : s.allSpace.get? k = some b) (not : b.status ≠ .pageFree) :
    b.file < s.pageFileNumber := by
  have tiles := h.represents.laid.tiles
  obtain ⟨fin, mem⟩ := held_of_get? found not
  have bounds := (h.represents.laid.held_bounds mem).1
  have inside := (tiles.mem_bounds (SortedMap.get?_eq_some_iff.mp found)).2
  simp only [h.represents.files] at inside
  by_contra beyond
  have le := Nat.mul_le_mul_right g.pageFileSize (Nat.le_of_not_lt beyond)
  omega

/-- The books say nothing about the table of the files. -/
theorem Books.setFiles (h : Books g s parts) (swapFiles : List (Option SwapFileDesc)) :
    Books g { s with swapFiles } parts where
  represents := h.represents.sameSpace ⟨rfl, rfl, rfl, rfl, rfl⟩
  owns := h.owns
  used := h.used
  sound := h.sound

/-- The parts of a swap copy have no byte in common. -/
theorem Books.stretches_pairwise (h : Books g s parts) {buf : Nat}
    (found : s.memChunks.get? id = some c)
    (isBuf : c.swapBuf = some buf) : (s.stretches (parts id)).Pairwise Stretch.Apart := by
  apply List.pairwise_map.mpr
  apply List.pairwise_filterMap.mpr
  have nodup := h.chain_nodup found isBuf
  refine List.Pairwise.imp_of_mem ?_ nodup
  intro ka kb memA memB ne a foundA b foundB
  obtain ⟨a', isA, heldA⟩ := h.chain_held found isBuf memA
  obtain ⟨b', isB, heldB⟩ := h.chain_held found isBuf memB
  cases foundA.symm.trans isA
  cases foundB.symm.trans isB
  exact h.represents.laid.stretch_apart foundA heldA foundB heldB ne

/-! ### What an operation leaves -/

/-- The table of the swap files is the same. -/
structure SameFiles (s t : State) : Prop where
  swapFiles : t.swapFiles = s.swapFiles
  number : t.pageFileNumber = s.pageFileNumber

theorem OnlySpace.sameFiles (only : OnlySpace s t) : SameFiles s t := by
  rw [OnlySpace.eq_1] at only
  exact ⟨by rw [only], by rw [only]⟩

theorem SameFiles.trans (first : SameFiles s t) (second : SameFiles t u) : SameFiles s u :=
  ⟨second.swapFiles.trans first.swapFiles, second.number.trans first.number⟩

/-- What an operation on another chunk does to the chunk `id`: a cached copy may be dropped, and a
copy that stays is where it was. -/
structure Kept (s t : State) (parts : Nat → List Nat) (id : Nat) : Prop where
  chunk : t.memChunks.get? id = s.memChunks.get? id ∨ ∃ c, s.memChunks.get? id = some c ∧
    c.status.hasFlag .allocated = true ∧ t.memChunks.get? id = some { c with swapBuf := none }
  chain : ∀ c buf, t.memChunks.get? id = some c → c.swapBuf = some buf →
    ∀ k ∈ parts id, t.allSpace.get? k = s.allSpace.get? k

/-- Nothing happens to the locations. -/
theorem Kept.of_chunk (space : t.allSpace = s.allSpace)
    (chunk : t.memChunks.get? id = s.memChunks.get? id) : Kept s t parts id where
  chunk := .inl chunk
  chain := fun _ _ _ _ k _ => by rw [space]

theorem Books.pffree_kept (h : Books g s parts) {buf : Nat} (found : s.memChunks.get? id = some c)
    (isBuf : c.swapBuf = some buf) (freed : s.pffree g buf = some t) :
    OnlySpace s t ∧ ∀ j, j ≠ id → Kept s t parts j := by
  obtain ⟨pre, post, placed⟩ := SortedMap.split found
  have perm : (liveOf parts s.memChunks.entries).Perm
      (⟨parts id, id⟩ :: (liveOf parts pre ++ liveOf parts post)) := by
    rw [placed, liveOf_append, liveOf_cons_some parts post isBuf]
    exact List.perm_middle
  obtain ⟨t', freed', _, only, held⟩ := pffree_spec (h.represents.perm perm)
  have isHead : Allocation.head ⟨parts id, id⟩ = buf := (h.owns id c buf found isBuf).1
  rw [isHead, freed] at freed'
  cases freed'
  refine ⟨only, fun j ne => ⟨.inl (by rw [only.memChunks]), ?_⟩⟩
  intro d buf' foundJ isBufJ k mem
  rw [only.memChunks] at foundJ
  exact get?_of_kept h.represents held (Books.live foundJ isBufJ) mem
    (h.apart ne found isBuf foundJ isBufJ k mem)

/-- Writing the chunk `id` leaves the others as they are. -/
theorem kept_setChunk (s : State) (id : Nat) (c : Chunk) {j : Nat} (ne : j ≠ id) :
    Kept s (s.setChunk id c) parts j :=
  Kept.of_chunk rfl (by rw [get?_setChunk, if_neg ne])

theorem Books.use_kept (h : Books g s parts) (found : s.memChunks.get? id = some c)
    {status : MemoryStatus} {useCnt : UInt16}
    (taken : SwapOp.step g s (.use id status useCnt) = some t) :
    (status = c.status ∨
      status.hasFlag .allocated = true ∧ c.status.hasFlag .allocated = true) ∧
      t = s.setChunk id { c with status, useCnt } ∧ Books g t parts := by
  obtain ⟨c', found', is⟩ := Option.bind_eq_some_iff.mp taken
  cases found.symm.trans found'
  split at is
  · rename_i allowed
    cases is
    refine ⟨allowed, rfl, h.setChunk found { c with status, useCnt } rfl rfl (fun loading => ?_)
      (sameSpace_setChunk s id _) rfl ?_⟩
    · simp only at loading
      rcases allowed with same | ⟨resident, _⟩
      · exact (h.sound id c found).copied (same.symm.trans loading)
      · rw [loading] at resident
        cases resident
    · have same : usedBytes { c with status, useCnt } = usedBytes c := by
        rcases allowed with same | ⟨resident, resident'⟩
        · rw [same]
          rfl
        · rw [usedBytes_resident resident', usedBytes_resident resident]
      rw [same]
      exact (sub_add_cancel _ _).symm
  · cases is

/-- What happens on the chunk `id` when its cached copy is dropped. -/
structure Dropped (g : Geometry) (s t : State) (parts : Nat → List Nat) (id : Nat)
    (later : Option Chunk) : Prop where
  books : Books g t parts
  chunk : t.memChunks.get? id = later
  swapFiles : t.swapFiles = s.swapFiles
  number : t.pageFileNumber = s.pageFileNumber
  kept : ∀ j, j ≠ id → Kept s t parts j

theorem Books.invalidate_dropped (h : Books g s parts) (found : s.memChunks.get? id = some c)
    (taken : SwapOp.step g s (.invalidateCacheFor id) = some t) :
    c.status.hasFlag .allocated = true ∧
      Dropped g s t parts id (some { c with swapBuf := none }) := by
  obtain ⟨c', found', is⟩ := Option.bind_eq_some_iff.mp taken
  cases found.symm.trans found'
  split at is
  · rename_i resident
    refine ⟨resident, ?_⟩
    unfold State.invalidateCacheFor at is
    cases isBuf : c.swapBuf with
    | some buf =>
        simp only [isBuf] at is
        obtain ⟨u, freed, rfl⟩ := Option.map_eq_some_iff.mp is
        obtain ⟨v, freed', only, books⟩ := h.drop found isBuf
          (fun loading => by rw [loading] at resident; cases resident)
        cases freed.symm.trans freed'
        obtain ⟨_, kept⟩ := h.pffree_kept found isBuf freed
        have other : ∀ j, j ≠ id → (u.setChunk id { c with swapBuf := none }).memChunks.get? j =
            u.memChunks.get? j := fun j ne => by rw [get?_setChunk, if_neg ne]
        exact {
          books := by
            refine books _ (sameSpace_setChunk u id _) ?_ ?_
            · change u.memChunks.insert id _ = _
              rw [only.memChunks]
            · rw [usedBytes_resident resident]
              change u.swapUsed = _
              rw [only.swapUsed]
              exact (sub_zero _).symm
          chunk := by rw [get?_setChunk, if_pos rfl]
          swapFiles := by
            rw [OnlySpace.eq_1] at only
            rw [only]
            rfl
          number := by
            rw [OnlySpace.eq_1] at only
            rw [only]
            rfl
          kept := fun j ne => {
            chunk := by rw [other j ne]; exact (kept j ne).chunk
            chain := by rw [other j ne]; exact (kept j ne).chain } }
    | none =>
        simp only [isBuf] at is
        cases is
        exact {
          books := h
          chunk := by rw [found, ← isBuf]
          swapFiles := rfl
          number := rfl
          kept := fun j _ => Kept.of_chunk rfl rfl }
  · cases is

/-- `mfree` of a chunk that is not in transit. -/
theorem Books.mfree_dropped (h : Books g s parts) (found : s.memChunks.get? id = some c)
    (status : c.status = .allocated ∨ c.status = .swapped)
    (taken : SwapOp.step g s (.mfree id) = some t) : Dropped g s t parts id none := by
  obtain ⟨c', found', is⟩ := Option.bind_eq_some_iff.mp taken
  cases found.symm.trans found'
  rw [if_pos status] at is
  have books := h.delete found (status.imp_left fun eq => by rw [eq]; rfl) is
  obtain ⟨c', found', deleted⟩ := Option.bind_eq_some_iff.mp is
  cases found.symm.trans found'
  obtain ⟨u, wiped, rfl⟩ := Option.map_eq_some_iff.mp deleted
  have erased : ∀ j, (u.memChunks.erase id).get? j =
      if j = id then none else u.memChunks.get? j := fun j => SortedMap.get?_erase _ _ _
  have gone : (u.memChunks.erase id).get? id = none := by rw [erased, if_pos rfl]
  unfold State.swapDelete at wiped
  cases isBuf : c.swapBuf with
  | some buf =>
      simp only [isBuf] at wiped
      obtain ⟨v, freed, isU⟩ := Option.map_eq_some_iff.mp wiped
      obtain ⟨only, kept⟩ := h.pffree_kept found isBuf freed
      have space : u.allSpace = v.allSpace ∧ u.swapFiles = v.swapFiles ∧
          u.pageFileNumber = v.pageFileNumber ∧
          ∀ j, j ≠ id → u.memChunks.get? j = v.memChunks.get? j := by
        split at isU
        · cases isU
          exact ⟨rfl, rfl, rfl, fun j ne => by rw [get?_setChunk, if_neg ne]; rfl⟩
        · cases isU
          exact ⟨rfl, rfl, rfl, fun j ne => by rw [get?_setChunk, if_neg ne]⟩
      obtain ⟨all, files, number, chunks⟩ := space
      have same := only.sameFiles
      exact {
        books := books
        chunk := gone
        swapFiles := files.trans same.swapFiles
        number := number.trans same.number
        kept := fun j ne => {
          chunk := by
            change (u.memChunks.erase id).get? j = _ ∨ _
            rw [erased, if_neg ne, chunks j ne]
            exact (kept j ne).chunk
          chain := by
            intro d buf' foundJ
            change (u.memChunks.erase id).get? j = _ at foundJ
            rw [erased, if_neg ne, chunks j ne] at foundJ
            rw [all]
            exact (kept j ne).chain d buf' foundJ } }
  | none =>
      simp only [isBuf] at wiped
      cases wiped
      exact {
        books := books
        chunk := gone
        swapFiles := rfl
        number := rfl
        kept := fun j ne => Kept.of_chunk rfl (by
          change (s.memChunks.erase id).get? j = _
          rw [erased, if_neg ne]) }

/-- What `cleanupCachedElements` has dropped was cached, and the rest is where it was. -/
theorem Released.kept (h : Books g s parts) {dropped kept : List Allocation}
    (released : Released g s t (liveOf parts s.memChunks.entries) dropped kept) (j : Nat) :
    Kept s t parts j := by
  have chunk := released.memChunks j
  constructor
  · split at chunk
    · rename_i mem
      obtain ⟨a, memA, rfl⟩ := List.mem_map.mp mem
      obtain ⟨c, found, cached⟩ := released.cached a memA
      rw [found] at chunk
      exact .inr ⟨c, found, (cachedBuf_eq_some.mp cached).1, chunk⟩
    · exact .inl chunk
  · intro c buf found isBuf k mem
    rw [found] at chunk
    split at chunk
    · obtain ⟨d, _, rfl⟩ := Option.map_eq_some_iff.mp chunk.symm
      cases isBuf
    · rename_i not
      refine get?_of_kept h.represents released.held (Books.live chunk.symm isBuf) mem ?_
      intro memDropped
      obtain ⟨a, memA, memParts⟩ := List.mem_flatMap.mp memDropped
      have live := released.split.mem_iff.mpr (List.mem_append_left kept memA)
      obtain ⟨isParts, d, buf', memD, isBufD⟩ := mem_liveOf.mp live
      rw [isParts] at memParts
      have ne : j ≠ a.chunk := by
        rintro rfl
        exact not (List.mem_map_of_mem memA)
      exact h.apart ne (SortedMap.get?_eq_some_iff.mpr memD) isBufD chunk.symm isBuf k mem memParts

theorem Books.cleanup_kept (h : Books g s parts) {minimumSize : Nat} {result : Bool}
    (cleaned : s.cleanupCachedElements g minimumSize = some (t, result)) :
    OnlySpace { s with memChunks := t.memChunks } t ∧ ∀ j, Kept s t parts j := by
  obtain ⟨u, dropped, kept, is, released, _⟩ :=
    cleanupCachedElements_spec h.represents h.owners minimumSize
  rw [cleaned] at is
  cases is
  exact ⟨released.only, released.kept h⟩

/-- A new chain lies beside what was held. -/
theorem Placed.kept {size : Nat} {chain : List Nat} (placed : Placed g s t none id chain size)
    (h : Books g s parts) (j : Nat) : Kept s t parts j where
  chunk := .inl (by rw [placed.only.memChunks])
  chain := by
    intro d buf foundJ isBufJ k mem
    rw [placed.only.memChunks] at foundJ
    obtain ⟨b, found, not⟩ := h.chain_held foundJ isBufJ mem
    obtain ⟨fin, memHeld⟩ := held_of_get? found not
    rw [found]
    exact (get?_of_held (placed.same _ memHeld (by simp))).1

theorem Kept.trans (first : Kept s t parts id) (second : Kept t u parts id) :
    Kept s u parts id := by
  constructor
  · rcases second.chunk with same | ⟨c, found, resident, dropped⟩
    · rw [same]
      exact first.chunk
    · rcases first.chunk with same | ⟨d, foundD, residentD, droppedD⟩
      · exact .inr ⟨c, same.symm.trans found, resident, dropped⟩
      · rw [droppedD] at found
        cases found
        exact .inr ⟨d, foundD, residentD, dropped⟩
  · intro c buf found isBuf k mem
    have before : ∃ d buf', t.memChunks.get? id = some d ∧ d.swapBuf = some buf' := by
      rcases second.chunk with same | ⟨d, _, _, dropped⟩
      · exact ⟨c, buf, same.symm.trans found, isBuf⟩
      · rw [dropped] at found
        cases found
        cases isBuf
    obtain ⟨d, buf', foundD, isBufD⟩ := before
    rw [second.chain c buf found isBuf k mem, first.chain d buf' foundD isBufD k mem]

/-! ### Evictions and new files -/

theorem Released.sameFiles {live dropped kept : List Allocation}
    (released : Released g s t live dropped kept) : SameFiles s t :=
  ⟨released.only.sameFiles.swapFiles, released.only.sameFiles.number⟩

/-- What `swapOut` leaves when it has found a new place for the chunk `id`. -/
structure Moved (g : Geometry) (s t : State) (parts : Nat → List Nat) (id : Nat) (c : Chunk)
    (chain : List Nat) : Prop where
  books : Books g t (Function.update parts id chain)
  built : Built g t.allSpace id chain c.size
  chunk : t.memChunks.get? id =
    some { c with swapBuf := some (chain.headD 0), status := .swapout }
  files : SameFiles s t
  kept : ∀ j, j ≠ id → Kept s t parts j

/-- What `swapOut` leaves when it has thrown. -/
structure Refused (g : Geometry) (s t : State) (parts : Nat → List Nat) : Prop where
  books : Books g t parts
  files : SameFiles s t
  kept : ∀ j, Kept s t parts j

theorem Placed.moved {chain : List Nat} (h : Books g u parts)
    (found : u.memChunks.get? id = some c) (uncached : c.swapBuf = none)
    (placed : Placed g u t none id chain c.size) (files : SameFiles s u)
    (kept : ∀ j, Kept s u parts j) :
    Moved g s ((t.claimUsageof c.size true).setChunk id
      { c with swapBuf := some (chain.headD 0), status := .swapout }) parts id c chain where
  books := by
    refine h.place found uncached placed
      { c with swapBuf := some (chain.headD 0), status := .swapout } rfl rfl
      (sameSpace_claim t c.size true id _) ?_ ?_
    · change t.memChunks.insert id _ = _
      rw [placed.only.memChunks]
    · change t.swapUsed + c.size = _
      have bytes :
          usedBytes { c with swapBuf := some (chain.headD 0), status := .swapout } = c.size := by
        simp [usedBytes, copyBytes, MemoryStatus.hasFlag, MemoryStatus.code]
      rw [placed.only.swapUsed, bytes]
  built := placed.built
  chunk := by rw [get?_setChunk, if_pos rfl]
  files := by
    have there := placed.only.sameFiles
    exact files.trans ⟨there.swapFiles, there.number⟩
  kept := by
    intro j ne
    have first := (kept j).trans (placed.kept h j)
    have here : ((t.claimUsageof c.size true).setChunk id
        { c with swapBuf := some (chain.headD 0), status := .swapout }).memChunks.get? j =
          t.memChunks.get? j := by
      rw [get?_setChunk, if_neg ne]
      rfl
    constructor
    · rw [here]
      exact first.chunk
    · rw [here]
      exact first.chain

/-- How `swapOut` of a resident chunk can end. -/
theorem Books.swapOut_cases (h : Books g s parts) (found : s.memChunks.get? id = some c)
    (resident : c.status = .allocated) :
    s.swapOut g id = .refused s ∨
      (c.swapBuf.isSome = true ∧ s.swapOut g id = .moved
          ((s.claimUsageof c.size true).setChunk id { c with status := .swapped }) c.size ∧
        Books g ((s.claimUsageof c.size true).setChunk id { c with status := .swapped }) parts) ∨
      (c.swapBuf = none ∧ ((∃ t chain, s.swapOut g id = .moved t c.size ∧
          Moved g s t parts id c chain) ∨
        ∃ t, s.swapOut g id = .threw t ∧ Refused g s t parts)) := by
  have pos := (h.sound id c found).pos
  have not : ¬ (c.status = .swapped ∨ c.status = .swapout) := by
    rw [resident]
    simp
  unfold State.swapOut
  simp only [found, if_neg not]
  split
  · exact .inl rfl
  · cases isBuf : c.swapBuf with
    | some buf =>
        refine .inr (.inl ⟨rfl, rfl, h.setChunk found
          { c with status := .swapped, swapBuf := some buf } isBuf.symm rfl
          (fun loading => by cases loading) (sameSpace_claim s c.size true id _) rfl ?_⟩)
        have before : usedBytes c = 0 := usedBytes_resident (by rw [resident]; rfl)
        have bytes : usedBytes { c with status := .swapped, swapBuf := some buf } = c.size := by
          simp [usedBytes, copyBytes, MemoryStatus.hasFlag, MemoryStatus.code]
        rw [before, bytes]
        change s.swapUsed + c.size = _
        ring
    | none =>
        simp only [Option.isSome_none, Bool.false_eq_true, false_and, false_or, true_and]
        have same : SameFiles s s := ⟨rfl, rfl⟩
        have stays : ∀ j, Kept s s parts j := fun j => Kept.of_chunk rfl rfl
        by_cases empty : s.freeSpace.keys = []
        · left
          simp only [State.swapOutNew, pfmalloc_null empty]
        · right
          by_cases fits : c.size ≤ freeBytes s
          · obtain ⟨t, chain, is, placed⟩ := pfmalloc_free h.represents.laid pos fits id
            exact .inl ⟨_, chain, by simp only [State.swapOutNew, is],
              placed.moved h found isBuf same stays⟩
          · obtain ⟨u, dropped, kept, released, ⟨result, cleaned⟩, enough, not⟩ :=
              pfmalloc_none h.represents h.owners empty (Nat.lt_of_not_le fits) id
            obtain ⟨u', result', cleaned', books, rest⟩ := h.cleanup (c.size - freeBytes s)
            rw [cleaned] at cleaned'
            cases cleaned'
            have notCached : State.cachedBuf c = none := by
              unfold State.cachedBuf
              rw [isBuf, ite_self]
            have files := released.sameFiles
            by_cases more :
                c.size - freeBytes s < cleanedUp (c.size - freeBytes s) s.memChunks.entries 0
            · obtain ⟨t, chain, is, placed⟩ := enough more
              exact .inl ⟨_, chain, by simp only [State.swapOutNew, is],
                placed.moved books (rest id c notCached found) isBuf files (released.kept h)⟩
            · exact .inr ⟨u, by simp only [State.swapOutNew, not more], books, files,
                released.kept h⟩

/-- Every swap file of the table is open. -/
structure FilesOpen (s : State) : Prop where
  length : s.swapFiles.length = s.pageFileNumber
  opened : ∀ n, n < s.pageFileNumber → ∃ file, s.swapFiles[n]? = some (some file)

theorem construct_filesOpen (g : Geometry) (n : Nat) (enableDMA : Bool) (fileno : Nat → Nat) :
    FilesOpen (.construct g n enableDMA fileno) := by
  have only := (addFiles_spec (g := g) n 0 {
    allSpace := .empty
    freeSpace := .empty
    swapSize := n * g.pageFileSize
    swapFree := n * g.pageFileSize
    swapUsed := 0
    pageFileNumber := n
    swapFiles := (List.range n).map fun n => some ⟨fileno n, 0⟩
    enableDMA := enableDMA
    memChunks := .empty } (fun e mem => by cases mem) (fun k mem => by cases mem)).1
  have files : (State.construct g n enableDMA fileno).swapFiles =
      (List.range n).map fun n => some ⟨fileno n, 0⟩ := by
    rw [State.construct, only]
  have number : (State.construct g n enableDMA fileno).pageFileNumber = n := by
    rw [State.construct, only]
  constructor
  · rw [files, number, List.length_map, List.length_range]
  · intro m less
    rw [number] at less
    rw [files, List.getElem?_map, List.getElem?_range less]
    exact ⟨_, rfl⟩

/-- What `openSwapFileRange` has done to the table when it returns `true`. -/
theorem openSwapFileRange_table {opens : Nat → State.OpenResult} (left : Nat) :
    ∀ (n : Nat) {s t : State}, State.openSwapFileRange opens n left s = .returned t true →
      n + left ≤ s.swapFiles.length → t.swapFiles.length = s.swapFiles.length ∧
        (∀ m, m < n → t.swapFiles[m]? = s.swapFiles[m]?) ∧
        ∀ m, n ≤ m → m < n + left → ∃ file, t.swapFiles[m]? = some (some file) := by
  induction left with
  | zero =>
      intro n s t is _
      cases is
      exact ⟨rfl, fun _ _ => rfl, fun m le less => absurd less (Nat.not_lt.mpr le)⟩
  | succ left ih =>
      intro n s t is fits
      rw [State.openSwapFileRange] at is
      split at is
      · rename_i fileno _
        obtain ⟨length, before, behind⟩ := ih (n + 1) is (by rw [List.length_set]; omega)
        rw [List.length_set] at length
        refine ⟨length, fun m less => ?_, fun m le less => ?_⟩
        · rw [before m (by omega), List.getElem?_set_ne (by omega)]
        · rcases Nat.eq_or_lt_of_le le with rfl | above
          · rw [before n (Nat.lt_succ_self n), List.getElem?_set_self (by omega)]
            exact ⟨_, rfl⟩
          · exact behind m above (by omega)
      · split at is <;> cases is
      · cases is

/-- What `extendSwap` leaves when it has returned `true`. -/
theorem Books.extend_kept (h : Books g s parts) {freeDiskSpace size : Nat}
    {opens : Nat → State.OpenResult}
    (is : s.extendSwap g freeDiskSpace opens size = .returned t true) :
    (∀ j, Kept s t parts j) ∧ (FilesOpen s → FilesOpen t ∧
      ∀ n, n < s.pageFileNumber → t.swapFiles[n]? = s.swapFiles[n]?) := by
  obtain ⟨room, opened⟩ := extendSwap_returned_true is
  obtain ⟨t', is', grown, _, chunks⟩ :=
    extendSwap_grown (h.represents.laid.below h.represents.files) room opened
  rw [is] at is'
  cases is'
  refine ⟨fun j => ⟨.inl (by rw [chunks]), fun c buf found isBuf k mem => ?_⟩, fun files => ?_⟩
  · rw [chunks] at found
    obtain ⟨b, foundK, _⟩ := h.chain_held found isBuf mem
    rw [foundK, SortedMap.get?_eq_some_iff, grown.allSpace]
    exact List.mem_append_left _ (SortedMap.get?_eq_some_iff.mp foundK)
  · obtain ⟨left, isLeft⟩ : ∃ left, left = State.wholeFiles g size / g.pageFileSize := ⟨_, rfl⟩
    have number := grown.pageFileNumber
    rw [← isLeft] at number
    unfold State.extendSwap at is
    simp only [if_neg (Nat.not_lt.mpr room), ← isLeft] at is
    split at is
    · rename_i u opening
      obtain ⟨length, before, behind⟩ := openSwapFileRange_table left s.pageFileNumber opening
        (by rw [List.length_append, List.length_replicate, files.length])
      simp only [List.length_append, List.length_replicate, files.length] at length before
      have table : t.swapFiles = u.swapFiles := by
        have only := (openSwapFileRange_spec opens left s.pageFileNumber { s with
          pageFileNumber := s.pageFileNumber + left
          swapFiles := s.swapFiles ++ List.replicate left none }).1
        rw [opening] at only
        have only : OnlyFiles _ u := only
        rw [OnlyFiles.eq_1] at only
        have below := h.represents.laid.below h.represents.files
        have added := (addFiles_spec (g := g) left s.pageFileNumber u
          (by rw [only]; exact below.all) (by rw [only]; exact below.free)).1
        cases is
        simp only
        rw [added]
      rw [← table] at length before behind
      have old : ∀ n, n < s.pageFileNumber → t.swapFiles[n]? = s.swapFiles[n]? := by
        intro n less
        rw [before n less, List.getElem?_append_left (by rw [files.length]; exact less)]
      refine ⟨⟨length.trans number.symm, fun n less => ?_⟩, old⟩
      by_cases inside : n < s.pageFileNumber
      · rw [old n inside]
        exact files.opened n inside
      · exact behind n (Nat.le_of_not_lt inside) (by omega)
    · cases is
    · cases is

end Rambrain.FileSwap
