import Rambrain.ChunkBytes

/-!
The steps of the program keep the bytes: `setUse` and `unsetUse`, reads and writes, `mmalloc` and
`mfree`, and the calls that change the swap alone.

A write use invalidates the swap copy before the program can write, so `ChunkHolds.clean` carries
the writes.
-/

namespace Rambrain.SwapBytes

open Lib FileSwap
open Transfer (InTransit)

variable {g : Setup} {s t : State} {p : Plain} {parts : Nat → List Nat} {id : Nat} {c : Chunk}
variable {chain : List Nat} {text : Buffer}

/-! ### Uses -/

/-- A use changes the status of a resident chunk, its counter, and the counts of the uses. -/
theorem ChunkHolds.used {d : Chunk} (h : ChunkHolds g s chain text id c) (size : d.size = c.size)
    (buf : d.swapBuf = c.swapBuf)
    (status : d.status = c.status ∨
      d.status.hasFlag .allocated = true ∧ c.status.hasFlag .allocated = true)
    (inuse : d.status = .allocatedInuseWrite → d.swapBuf = none)
    (rest : t = { s with
      swap := t.swap, granted := t.granted, writers := t.writers, waiting := t.waiting })
    (space : d.swapBuf.isSome = true →
      ∀ k ∈ chain, t.swap.allSpace.get? k = s.swap.allSpace.get? k)
    (files : t.swap.swapFiles = s.swap.swapFiles) (writers : t.writers id ≤ t.granted id)
    (uses : t.granted id + t.waiting id ≤ d.useCnt.toNat)
    (held : 0 < t.granted id → d.status.hasFlag .allocated = true)
    (clean : 0 < t.writers id → d.swapBuf = none) : ChunkHolds g t chain text id d := by
  have locPtr : t.locPtr id = s.locPtr id := by rw [rest]
  have inFlight : t.inFlight id = s.inFlight id := by
    rw [State.inFlight, State.inFlight]
    have pending : t.pendingAios = s.pendingAios := by rw [rest]
    rw [pending]
  have tracker : t.tracker id = s.tracker id := by rw [rest]
  have disk : t.disk = s.disk := by rw [rest]
  -- the statuses that are not resident are the same
  have same : ∀ x : MemoryStatus, x.hasFlag .allocated = false → (d.status = x ↔ c.status = x) := by
    intro x not
    rcases status with eq | ⟨resident, resident'⟩
    · rw [eq]
    · constructor
      · rintro rfl
        rw [resident] at not
        cases not
      · rintro rfl
        rw [resident'] at not
        cases not
  have swapped := same .swapped rfl
  have swapin := same .swapin rfl
  have swapout := same .swapout rfl
  have transit : InTransit d.status ↔ InTransit c.status := or_congr swapin swapout
  have isCopy : d.swapBuf.isSome = true ↔ c.swapBuf.isSome = true := by rw [buf]
  exact {
    aligned := by rw [size]; exact h.aligned
    known := by
      rcases status with eq | ⟨resident, _⟩
      · rw [eq]
        exact h.known
      · rintro eq
        rw [eq] at resident
        cases resident
    ram := by
      intro not
      obtain ⟨b, is, right⟩ := h.ram fun eq => not (swapped.mpr eq)
      refine ⟨b, locPtr.trans is, fun i less read => right i (size ▸ less) fun eq => ?_⟩
      rw [← inFlight]
      exact read (swapin.mpr eq)
    null := fun eq => locPtr.trans (h.null (swapped.mp eq))
    copied := by
      intro not
      apply isCopy.mpr
      apply h.copied
      rcases status with eq | ⟨resident, _⟩
      · rw [← eq]
        exact not
      · rw [resident] at not
        cases not
    built := by
      intro present
      rw [size]
      exact built_congr (h.built (isCopy.mp present)) (space present)
    copy := by
      intro present
      rw [disk, inFlight, stretches_congr (space present)]
      exact (h.copy (isCopy.mp present)).mono fun i _ known eq => known (swapout.mpr eq)
    fits := by
      intro present
      rw [files, stretches_congr (space present)]
      exact h.fits (isCopy.mp present)
    idle := by
      intro not
      rw [inFlight]
      exact h.idle fun eq => not (transit.mpr eq)
    part := by
      intro r mem
      rw [inFlight] at mem
      have part := h.part r mem
      have here := space (isCopy.mpr (h.copied_of_mem mem))
      exact {
        ref := part.ref
        loc := by rw [here r.ref part.ref]; exact part.loc
        window := by rw [stretches_congr here]; exact part.window
        reverse := part.reverse.trans swapin.symm
        moved := part.moved }
    order := by
      rw [inFlight]
      exact h.order
    tracker := by
      intro moving
      rw [tracker, inFlight]
      exact h.tracker (transit.mp moving)
    writers := writers
    uses := uses
    held := held
    clean := clean
    inuse := inuse }

/-- What a use leaves of the chunk `id`, which was `c` and is `d`. -/
structure Used (s t : State) (parts : Nat → List Nat) (id : Nat) (c d : Chunk) : Prop where
  chunk : t.swap.memChunks.get? id = some d
  size : d.size = c.size
  buf : d.swapBuf = c.swapBuf ∧ (∀ k ∈ parts id, t.swap.allSpace.get? k = s.swap.allSpace.get? k) ∨
    d.swapBuf = none ∧ c.status.hasFlag .allocated = true
  status : d.status = c.status ∨
    d.status.hasFlag .allocated = true ∧ c.status.hasFlag .allocated = true
  rest : t = { s with
    swap := t.swap, granted := t.granted, writers := t.writers, waiting := t.waiting }
  swapFiles : t.swap.swapFiles = s.swap.swapFiles
  number : t.swap.pageFileNumber = s.swap.pageFileNumber
  kept : ∀ j, j ≠ id → Kept s.swap t.swap parts j
  counts : ∀ j, j ≠ id →
    t.granted j = s.granted j ∧ t.writers j = s.writers j ∧ t.waiting j = s.waiting j

theorem Holds.used {d : Chunk} (h : Holds g s p parts) (found : s.swap.memChunks.get? id = some c)
    (used : Used s t parts id c d) (books : Books g.toGeometry t.swap parts)
    (inuse : d.status = .allocatedInuseWrite → d.swapBuf = none)
    (writers : t.writers id ≤ t.granted id)
    (uses : t.granted id + t.waiting id ≤ d.useCnt.toNat)
    (held : 0 < t.granted id → d.status.hasFlag .allocated = true)
    (clean : 0 < t.writers id → d.swapBuf = none) : Holds g t p parts := by
  obtain ⟨text, isText, size⟩ := h.exists_text found
  have before := h.chunks id c text found isText
  have pending : t.pendingAios = s.pendingAios := by rw [used.rest]
  apply h.touch id
  · exact {
      books := books
      files := filesOpen_of_same h.files ⟨used.swapFiles, used.number⟩
      larger := larger_of_eq used.swapFiles
      disk := fun j _ => sameBytes_of_eq (by rw [used.rest]) j
      kept := used.kept
      untouched := fun j ne => {
        locPtr := by rw [used.rest]
        inFlight := by rw [State.inFlight, State.inFlight, pending]
        tracker := by rw [used.rest]
        granted := (used.counts j ne).1
        writers := (used.counts j ne).2.1
        waiting := (used.counts j ne).2.2 }
      plain := fun _ _ => rfl
      parts := fun _ _ => rfl }
  · rw [used.chunk, isText]
    exact congrArg some (size.trans used.size.symm)
  · intro d' text' foundD isText'
    cases used.chunk.symm.trans foundD
    cases isText.symm.trans isText'
    rcases used.buf with ⟨same, space⟩ | ⟨uncached, resident⟩
    · exact before.used used.size same used.status inuse used.rest (fun _ => space) used.swapFiles
        writers uses held clean
    · refine (before.drop resident).used used.size uncached used.status inuse used.rest ?_
        used.swapFiles writers uses held clean
      intro isCopy
      rw [uncached] at isCopy
      cases isCopy
  · intro _ _
    exact ⟨d, used.chunk⟩
  · intro absent
    rw [used.chunk] at absent
    cases absent

/-- A section of `setUse` that makes `r` of the chunk. -/
theorem Holds.endUse {r : ManagedMemoryChunk × Progress} {writeAccess invalidates : Bool}
    (h : Holds g s p parts) (found : s.swap.memChunks.get? id = some c)
    (counted : s.granted id + s.waiting id < r.1.useCnt.toNat)
    (resident : r.2 = .returned true → r.1.status.hasFlag .allocated = true)
    (written : r.2 = .returned true → writeAccess = true → invalidates = false → c.swapBuf = none)
    (inuse : r.1.status = .allocatedInuseWrite →
      c.swapBuf = none ∨ r.2 = .returned true ∧ writeAccess = true ∧ invalidates = true)
    (taken : s.endUse g id r writeAccess invalidates = some t) : Holds g t p parts := by
  obtain ⟨text, isText, size⟩ := h.exists_text found
  have before := h.chunks id c text found isText
  obtain ⟨swap, used, is⟩ := Option.bind_eq_some_iff.mp taken
  obtain ⟨allowed, isSwap, books⟩ := h.books.use_kept found used
  have here : swap.memChunks.get? id =
      some { c with status := r.1.status, useCnt := r.1.useCnt } := by
    rw [isSwap, get?_setChunk, if_pos rfl]
  have kept : ∀ j, j ≠ id → Kept s.swap swap parts j := by
    intro j ne
    rw [isSwap]
    exact kept_setChunk s.swap id _ ne
  have space : swap.allSpace = s.swap.allSpace := by rw [isSwap]; rfl
  have files : swap.swapFiles = s.swap.swapFiles := by rw [isSwap]; rfl
  have number : swap.pageFileNumber = s.swap.pageFileNumber := by rw [isSwap]; rfl
  have notInuse : ¬ (r.2 = .returned true ∧ writeAccess = true ∧ invalidates = true) →
      r.1.status = .allocatedInuseWrite → c.swapBuf = none :=
    fun not eq => (inuse eq).resolve_right not
  have update : ∀ (f : Nat → Nat) (n j : Nat), j ≠ id → Function.update f id n j = f j :=
    fun f n j ne => Function.update_of_ne ne _ _
  split at is
  · -- the call waits
    rename_i pause waits
    cases is
    have not : ¬ (r.2 = .returned true ∧ writeAccess = true ∧ invalidates = true) := by
      rw [waits]
      simp
    refine h.used found (d := { c with status := r.1.status, useCnt := r.1.useCnt }) ?_ books
      (notInuse not) before.writers ?_ ?_ before.clean
    · exact ⟨here, rfl, .inl ⟨rfl, fun k _ => by rw [space]⟩, allowed, rfl, files, number, kept,
        fun j ne => ⟨rfl, rfl, update _ _ j ne⟩⟩
    · simp only [Function.update_self]
      omega
    · intro pos
      have was := before.held pos
      rcases allowed with eq | ⟨resident, _⟩
      · simp only [eq]
        exact was
      · exact resident
  · -- the call fails
    rename_i fails
    cases is
    have not : ¬ (r.2 = .returned true ∧ writeAccess = true ∧ invalidates = true) := by
      rw [fails]
      simp
    refine h.used found (d := { c with status := r.1.status, useCnt := r.1.useCnt }) ?_ books
      (notInuse not) before.writers ?_ ?_ before.clean
    · exact ⟨here, rfl, .inl ⟨rfl, fun k _ => by rw [space]⟩, allowed, rfl, files, number, kept,
        fun j _ => ⟨rfl, rfl, rfl⟩⟩
    · simp only
      omega
    · intro pos
      have was := before.held pos
      rcases allowed with eq | ⟨resident, _⟩
      · simp only [eq]
        exact was
      · exact resident
  · -- the use is granted
    rename_i granted
    obtain ⟨swap', invalidated, rfl⟩ := Option.map_eq_some_iff.mp is
    have was := before.writers
    have counts : (s.writers id + if writeAccess = true then 1 else 0) ≤ s.granted id + 1 := by
      split <;> omega
    split at invalidated
    · rename_i both
      rw [Bool.and_eq_true] at both
      obtain ⟨_, dropped⟩ := books.invalidate_dropped here invalidated
      refine h.used found
        (d := { c with status := r.1.status, useCnt := r.1.useCnt, swapBuf := none }) ?_
        dropped.books (fun _ => rfl) ?_ ?_ (fun _ => resident granted) fun _ => rfl
      · refine ⟨dropped.chunk, rfl, .inr ⟨rfl, ?_⟩, allowed, rfl, dropped.swapFiles.trans files,
          dropped.number.trans number, fun j ne => (kept j ne).trans (dropped.kept j ne),
          fun j ne => ⟨update _ _ j ne, update _ _ j ne, rfl⟩⟩
        rcases allowed with eq | ⟨_, was⟩
        · rw [← eq]
          exact resident granted
        · exact was
      · simp only [Function.update_self]
        exact counts
      · simp only [Function.update_self]
        omega
    · rename_i not
      cases invalidated
      rw [Bool.and_eq_true] at not
      refine h.used found (d := { c with status := r.1.status, useCnt := r.1.useCnt }) ?_ books
        (notInuse fun all => not all.2) ?_ ?_ (fun _ => resident granted) ?_
      · exact ⟨here, rfl, .inl ⟨rfl, fun k _ => by rw [space]⟩, allowed, rfl, files, number, kept,
          fun j ne => ⟨update _ _ j ne, update _ _ j ne, rfl⟩⟩
      · simp only [Function.update_self]
        exact counts
      · simp only [Function.update_self]
        omega
      · simp only [Function.update_self]
        intro pos
        by_cases write : writeAccess = true
        · apply written granted write
          cases inv : invalidates
          · rfl
          · exact absurd ⟨write, inv⟩ not
        · rw [if_neg write] at pos
          exact before.clean pos

theorem Holds.setUse {writeAccess : Bool} (h : Holds g s p parts)
    (taken : step g s (.setUse id writeAccess) = some t) : Holds g t p parts := by
  obtain ⟨c, found, is⟩ := Option.bind_eq_some_iff.mp taken
  obtain ⟨text, isText, _⟩ := h.exists_text found
  have before := h.chunks id c text found isText
  split at is
  · rename_i fits
    obtain ⟨useCnt, either⟩ := setUse_cases c.toManagedMemoryChunk writeAccess
    have raised : (Rambrain.setUse c.toManagedMemoryChunk writeAccess).1.useCnt.toNat =
        c.useCnt.toNat + 1 := by
      have one : (1 : UInt16).toNat = 1 := rfl
      rw [useCnt, UInt16.toNat_add, one]
      omega
    have uses := before.uses
    refine h.endUse found (by rw [raised]; omega) ?_ ?_ ?_ is
    · -- granted on a resident chunk
      intro granted
      rcases either with ⟨_, _, _, not⟩ | ⟨_, _, status⟩
      · exact absurd granted not
      · rw [status]
        have known := before.known
        cases status : c.status <;> cases writeAccess <;> simp_all [MemoryStatus.hasFlag,
          MemoryStatus.code, Rambrain.setUse]
    · intro _ _ inv
      have eq : c.status = .allocatedInuseWrite := by simpa using inv
      exact before.inuse eq
    · intro eq
      by_cases was : c.status = .allocatedInuseWrite
      · exact .inl (before.inuse was)
      · right
        rcases either with ⟨_, _, same, _⟩ | ⟨granted, _, status⟩
        · exact absurd (same.symm.trans eq) was
        · refine ⟨granted, ?_, by simpa using was⟩
          by_contra not
          rw [eq, if_neg not] at status
          split at status
          · cases status
          · exact was status.symm
  · cases is

/-- A call less waits. -/
theorem Holds.wake (h : Holds g s p parts) (id : Nat) :
    Holds g { s with waiting := Function.update s.waiting id (s.waiting id - 1) } p parts := by
  have less : ∀ j, Function.update s.waiting id (s.waiting id - 1) j ≤ s.waiting j := by
    intro j
    by_cases here : j = id
    · rw [here, Function.update_self]
      exact Nat.sub_le _ _
    · rw [Function.update_of_ne here]
  exact {
    books := h.books
    files := h.files
    sizes := h.sizes
    chunks := by
      intro j c text found isText
      have before := h.chunks j c text found isText
      exact {
        before with
        uses := (Nat.add_le_add_left (less j) _).trans before.uses
        copy := before.copy, ram := before.ram, null := before.null, built := before.built
        fits := before.fits, idle := before.idle, part := before.part
        tracker := before.tracker, writers := before.writers, held := before.held
        clean := before.clean }
    registered := h.registered
    gone := by
      intro j absent
      obtain ⟨granted, writers, waiting⟩ := h.gone j absent
      exact ⟨granted, writers, Nat.le_zero.mp (waiting ▸ less j)⟩ }

theorem Holds.resumeUse {writeAccess swapInResult : Bool} {pause : Pause} (h : Holds g s p parts)
    (taken : step g s (.resumeUse id writeAccess pause swapInResult) = some t) :
    Holds g t p parts := by
  obtain ⟨c, found, is⟩ := Option.bind_eq_some_iff.mp taken
  obtain ⟨text, isText, _⟩ := h.exists_text found
  have before := h.chunks id c text found isText
  split at is
  · rename_i waits
    have uses := before.uses
    have either := resumeUse_cases c.toManagedMemoryChunk writeAccess pause swapInResult
    have counted : s.granted id + Function.update s.waiting id (s.waiting id - 1) id <
        (Rambrain.resumeUse c.toManagedMemoryChunk writeAccess pause
          swapInResult).1.useCnt.toNat := by
      have same :
          (Rambrain.resumeUse c.toManagedMemoryChunk writeAccess pause swapInResult).1.useCnt =
          c.useCnt := by
        rcases either with ⟨_, is⟩ | is | ⟨_, is⟩
        · rw [is]
        · rw [is]
        · rw [is, useAllocated_useCnt]
      rw [same, Function.update_self]
      omega
    refine (h.wake id).endUse found counted ?_ ?_ ?_ is
    · intro granted
      rcases either with ⟨_, is⟩ | is | ⟨_, is⟩
      · rw [is] at granted
        cases granted
      · rw [is] at granted
        cases granted
      · rw [is, useAllocated_status]
        split <;> rfl
    · intro _ _ inv
      cases inv
    · intro eq
      rcases either with ⟨_, is⟩ | is | ⟨_, is⟩
      · rw [is] at eq
        exact .inl (before.inuse eq)
      · rw [is] at eq
        exact .inl (before.inuse eq)
      · rw [is, useAllocated_status] at eq
        split at eq
        · rename_i write
          exact .inr ⟨by rw [is], write, rfl⟩
        · cases eq
  · cases is

theorem Holds.unsetUse {noUnsets : UInt32} {writes : Nat} (h : Holds g s p parts)
    (taken : step g s (.unsetUse id noUnsets writes) = some t) : Holds g t p parts := by
  obtain ⟨c, found, is⟩ := Option.bind_eq_some_iff.mp taken
  obtain ⟨text, isText, _⟩ := h.exists_text found
  have before := h.chunks id c text found isText
  split at is
  · rename_i guard
    split at is
    · rename_i r ok
      obtain ⟨swap, used, rfl⟩ := Option.map_eq_some_iff.mp is
      obtain ⟨allowed, isSwap, books⟩ := h.books.use_kept found used
      obtain ⟨_, enough, useCnt, status⟩ := unsetUse_ok ok
      have uses := before.uses
      have writers := before.writers
      obtain ⟨within, less, rest⟩ := guard
      have space : swap.allSpace = s.swap.allSpace := by rw [isSwap]; rfl
      refine h.used found (d := { c with status := r.status, useCnt := r.useCnt }) ?_ books
        ?_ ?_ ?_ ?_ ?_
      · exact {
          chunk := by rw [isSwap, get?_setChunk, if_pos rfl]
          size := rfl
          buf := .inl ⟨rfl, fun k _ => by rw [space]⟩
          status := allowed
          rest := rfl
          swapFiles := by rw [isSwap]; rfl
          number := by rw [isSwap]; rfl
          kept := fun j ne => by rw [isSwap]; exact kept_setChunk s.swap id _ ne
          counts := fun j ne =>
            ⟨Function.update_of_ne ne _ _, Function.update_of_ne ne _ _, rfl⟩ }
      · intro eq
        simp only at eq
        rw [eq] at status
        split at status
        · cases status
        · exact before.inuse status.symm
      · simp only [Function.update_self]
        omega
      · simp only [Function.update_self]
        omega
      · simp only [Function.update_self]
        intro pos
        have was := before.held (by omega)
        rw [status]
        split
        · rfl
        · exact was
      · simp only [Function.update_self]
        intro pos
        exact before.clean (by omega)
    · cases is
  · cases is

/-! ### The program's own steps -/

/-- A chunk in use is resident, with its bytes in the buffer. -/
theorem ChunkHolds.resident (h : ChunkHolds g s chain text id c)
    (resident : c.status.hasFlag .allocated = true) :
    ∃ buf, s.locPtr id = some buf ∧ ∀ i, i < c.size → buf i = text i := by
  have not : ∀ x : MemoryStatus, x.hasFlag .allocated = false → c.status ≠ x := by
    rintro x not rfl
    rw [resident] at not
    cases not
  obtain ⟨buf, is, right⟩ := h.ram (not _ rfl)
  exact ⟨buf, is, fun i less => right i less fun eq => absurd eq (not _ rfl)⟩

theorem Holds.read {i : Nat} {byte : UInt8} (h : Holds g s p parts)
    (taken : step g s (.read id i byte) = some t) :
    t = s ∧ Plain.step g p (.read id i byte) = some p := by
  obtain ⟨c, found, is⟩ := Option.bind_eq_some_iff.mp taken
  obtain ⟨buf, isBuf, is⟩ := Option.bind_eq_some_iff.mp is
  obtain ⟨text, isText, size⟩ := h.exists_text found
  have before := h.chunks id c text found isText
  split at is
  · rename_i guard
    obtain ⟨granted, less, finds⟩ := guard
    obtain ⟨buf', isBuf', right⟩ := before.resident (before.held granted)
    cases isBuf.symm.trans isBuf'
    refine ⟨(Option.some.inj is).symm, ?_⟩
    rw [Plain.step, isText, Option.bind_some, if_pos ⟨size ▸ less, (right i less).symm.trans finds⟩]
  · cases is

theorem Holds.write {i : Nat} {byte : UInt8} (h : Holds g s p parts)
    (taken : step g s (.write id i byte) = some t) :
    ∃ p', Plain.step g p (.write id i byte) = some p' ∧ Holds g t p' parts := by
  obtain ⟨c, found, is⟩ := Option.bind_eq_some_iff.mp taken
  obtain ⟨buf, isBuf, is⟩ := Option.bind_eq_some_iff.mp is
  obtain ⟨text, isText, size⟩ := h.exists_text found
  have before := h.chunks id c text found isText
  split at is
  · rename_i guard
    obtain ⟨writing, less⟩ := guard
    cases is
    have granted := writing.trans_le before.writers
    have resident := before.held granted
    have uncached := before.clean writing
    obtain ⟨buf', isBuf', right⟩ := before.resident resident
    cases isBuf.symm.trans isBuf'
    refine ⟨Function.update p id (some { text with byte := Function.update text.byte i byte }),
      by rw [Plain.step, isText, Option.bind_some, if_pos (size ▸ less)], ?_⟩
    apply h.touch id
    · exact {
        books := h.books
        files := h.files
        larger := Larger.refl _
        disk := fun j _ => sameBytes_of_eq rfl j
        kept := fun _ _ => Kept.of_chunk rfl rfl
        untouched := fun j ne => ⟨Function.update_of_ne ne _ _, rfl, rfl, rfl, rfl, rfl⟩
        plain := fun j ne => Function.update_of_ne ne _ _
        parts := fun _ _ => rfl }
    · rw [Function.update_self, found]
      exact congrArg some size
    · intro d text' foundD isText'
      cases found.symm.trans foundD
      rw [Function.update_self] at isText'
      cases isText'
      have notCopy : ¬ c.swapBuf.isSome = true := by
        rw [uncached]
        simp
      have notSwapped : c.status ≠ .swapped := by
        rintro eq
        rw [eq] at resident
        cases resident
      exact {
        aligned := before.aligned
        known := before.known
        ram := by
          intro _
          refine ⟨Function.update buf i byte, Function.update_self _ _ _, fun j lessJ _ => ?_⟩
          by_cases here : j = i
          · simp only [here, Function.update_self]
          · simp only [Function.update_of_ne here]
            exact right j lessJ
        null := fun eq => absurd eq notSwapped
        copied := before.copied
        built := before.built
        copy := fun isCopy => absurd isCopy notCopy
        fits := before.fits
        idle := before.idle
        part := before.part
        order := before.order
        tracker := before.tracker
        writers := before.writers
        uses := before.uses
        held := before.held
        clean := before.clean
        inuse := before.inuse }
    · intro _ _
      exact ⟨c, found⟩
    · intro gone
      cases found.symm.trans gone
  · cases is

/-- `mmalloc` of a chunk. -/
theorem Holds.mmalloc {sizereq : Nat} {bytes : Buffer} (h : Holds g s p parts)
    (taken : step g s (.mmalloc id sizereq bytes) = some t) :
    ∃ p', Plain.step g p (.mmalloc id sizereq bytes) = some p' ∧ Holds g t p' parts := by
  refine ⟨_, rfl, ?_⟩
  simp only [step] at taken
  split at taken
  · obtain ⟨swap, registered, rfl⟩ := Option.map_eq_some_iff.mp taken
    simp only [SwapOp.step] at registered
    split at registered
    · rename_i guard
      obtain ⟨fresh, pos, divides⟩ := guard
      cases registered
      obtain ⟨granted, writers, waiting⟩ := h.gone id fresh
      have idle : s.inFlight id = [] := by
        apply List.eq_nil_iff_forall_not_mem.mpr
        intro r mem
        obtain ⟨mem, isChunk⟩ := mem_inFlight.mp mem
        obtain ⟨c, found⟩ := h.registered r mem
        rw [isChunk, fresh] at found
        cases found
      have here : ((s.swap.setChunk id ⟨⟨.allocated, 0⟩, aligned g sizereq, none⟩).memChunks.get?
          id) = some ⟨⟨.allocated, 0⟩, aligned g sizereq, none⟩ := by
        rw [get?_setChunk, if_pos rfl]
      apply h.touch id
      · exact {
          books := h.books.register fresh rfl ⟨pos, fun loading => by cases loading⟩
          files := ⟨h.files.length, h.files.opened⟩
          larger := Larger.refl _
          disk := fun j _ => sameBytes_of_eq rfl j
          kept := fun j ne => kept_setChunk s.swap id _ ne
          untouched := fun j ne => ⟨Function.update_of_ne ne _ _, rfl, rfl, rfl, rfl, rfl⟩
          plain := fun j ne => Function.update_of_ne ne _ _
          parts := fun _ _ => rfl }
      · rw [Function.update_self, here]
        rfl
      · intro d text' foundD isText'
        cases here.symm.trans foundD
        rw [Function.update_self] at isText'
        cases isText'
        exact {
          aligned := divides
          known := by simp
          ram := fun _ => ⟨bytes, Function.update_self _ _ _, fun _ _ _ => rfl⟩
          null := fun eq => by cases eq
          copied := by
            intro not
            have resident : MemoryStatus.hasFlag .allocated .allocated = true := rfl
            rw [resident] at not
            cases not
          built := fun isCopy => by cases isCopy
          copy := fun isCopy => by cases isCopy
          fits := fun isCopy => by cases isCopy
          idle := fun _ => idle
          part := fun r mem => by
            change r ∈ s.inFlight id at mem
            rw [idle] at mem
            cases mem
          order := by
            have order : ((s.inFlight id).map Aio.window).Pairwise Stretch.Behind := by
              rw [idle]
              exact .nil
            exact order
          tracker := fun transit => by rcases transit with eq | eq <;> cases eq
          writers := by simp only [writers, granted]; exact le_rfl
          uses := by simp only [granted, waiting]; exact Nat.zero_le _
          held := fun pos => by simp only [granted] at pos; cases pos
          clean := fun _ => rfl
          inuse := fun _ => rfl }
      · intro r mem
        change r ∈ s.inFlight id at mem
        rw [idle] at mem
        cases mem
      · intro uncached
        cases here.symm.trans uncached
    · cases registered
  · cases taken

/-- `mfree` of a chunk that is not in transit. -/
theorem Holds.mfree (h : Holds g s p parts) (taken : step g s (.mfree id) = some t) :
    ∃ p', Plain.step g p (.mfree id) = some p' ∧ Holds g t p' parts := by
  refine ⟨_, rfl, ?_⟩
  obtain ⟨c, found, is⟩ := Option.bind_eq_some_iff.mp taken
  obtain ⟨text, isText, _⟩ := h.exists_text found
  have before := h.chunks id c text found isText
  split at is
  · rename_i guard
    obtain ⟨status, unused⟩ := guard
    obtain ⟨swap, freed, rfl⟩ := Option.map_eq_some_iff.mp is
    have dropped := h.books.mfree_dropped found status freed
    have uses := before.uses
    have writers := before.writers
    have zero : c.useCnt.toNat = 0 := by rw [unused]; rfl
    have idle : s.inFlight id = [] := by
      apply before.idle
      rcases status with eq | eq
      · rintro (status | status) <;> rw [eq] at status <;> cases status
      · rintro (status | status) <;> rw [eq] at status <;> cases status
    apply h.touch id
    · exact {
        books := dropped.books
        files := filesOpen_of_same h.files ⟨dropped.swapFiles, dropped.number⟩
        larger := larger_of_eq dropped.swapFiles
        disk := fun j _ => sameBytes_of_eq rfl j
        kept := dropped.kept
        untouched := fun j ne => ⟨Function.update_of_ne ne _ _, rfl, rfl, rfl, rfl, rfl⟩
        plain := fun j ne => Function.update_of_ne ne _ _
        parts := fun _ _ => rfl }
    · rw [Function.update_self, dropped.chunk]
      rfl
    · intro d _ foundD
      cases dropped.chunk.symm.trans foundD
    · intro r mem
      change r ∈ s.inFlight id at mem
      rw [idle] at mem
      cases mem
    · intro _
      simp only
      omega
  · cases is

theorem Holds.cleanupCachedElements {minimumSize : Nat} (h : Holds g s p parts)
    (taken : step g s (.cleanupCachedElements minimumSize) = some t) : Holds g t p parts := by
  obtain ⟨swap, cleaned, rfl⟩ := Option.map_eq_some_iff.mp taken
  obtain ⟨r, is, rfl⟩ := Option.map_eq_some_iff.mp cleaned
  obtain ⟨u, result, is', books, _⟩ := h.books.cleanup minimumSize
  cases is.symm.trans is'
  obtain ⟨only, kept⟩ := h.books.cleanup_kept is
  have same := only.sameFiles
  exact h.swap books
    (filesOpen_of_same h.files ⟨same.swapFiles, same.number⟩)
    (larger_of_eq same.swapFiles) kept

theorem Holds.extendSwap {freeDiskSpace size : Nat} {opens : Nat → FileSwap.State.OpenResult}
    (h : Holds g s p parts) (taken : step g s (.extendSwap freeDiskSpace opens size) = some t) :
    Holds g t p parts := by
  obtain ⟨swap, extended, rfl⟩ := Option.map_eq_some_iff.mp taken
  simp only [SwapOp.step] at extended
  split at extended
  · rename_i u is
    cases extended
    obtain ⟨kept, table⟩ := h.books.extend_kept is
    obtain ⟨files, old⟩ := table h.files
    refine h.swap (h.books.extend is) files ?_ kept
    intro n file isOpen
    have less : n < s.swap.pageFileNumber := by
      rw [← h.files.length]
      exact (List.getElem?_eq_some_iff.mp isOpen).1
    exact ⟨file, (old n less).trans isOpen, le_rfl⟩
  · cases extended
  · cases extended

end Rambrain.SwapBytes
