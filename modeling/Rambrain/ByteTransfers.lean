import Rambrain.ProgramSteps

/-!
The transfers keep the bytes.

`Holds.copyMem` starts a chunk: every byte is outstanding, and the old side holds the text.
`Holds.transfer` moves one byte, which is no longer outstanding and lies nowhere else.
`Holds.asyncIoArrived` takes a request that has moved all its bytes; after the last one no byte is
outstanding, so the new side holds the text.
-/

namespace Rambrain.SwapBytes

open Lib FileSwap
open Transfer (InTransit)

variable {g : Setup} {s t : State} {p : Plain} {parts : Nat → List Nat} {id : Nat} {c : Chunk}
variable {chain : List Nat} {text : Buffer}

/-! ### Scheduling -/

/-- Every byte of a chunk is in one of the requests of `copyMem`. -/
theorem requests_cover {swap : FileSwap.State} {reverse : Bool} {size i : Nat}
    (divides : g.memoryAlignment ∣ size)
    (built : Built g.toGeometry swap.allSpace id chain size) (less : i < size) :
    Outstanding (requests g swap id reverse chain 0) i := by
  have total : Stretch.total (swap.stretches chain) = size := by
    rw [total_stretches, built.chainSize]
  obtain ⟨w, mem, le, within⟩ := Stretch.windows_cover 0 (total.symm ▸ less)
  rw [← requests_windows id reverse 0 (built_aligned divides built)] at mem
  obtain ⟨r, memR, rfl⟩ := List.mem_map.mp mem
  obtain ⟨_, _, moved, _⟩ := mem_requests memR
  refine ⟨r, memR, ?_, ?_, ?_⟩
  · rw [Nat.zero_add] at le
    exact le
  · rw [Nat.zero_add] at within
    exact within
  · rw [moved]
    exact Finset.notMem_empty _

theorem requests_part {swap : FileSwap.State} {reverse : Bool} {size : Nat} {r : Aio}
    (divides : g.memoryAlignment ∣ size)
    (built : Built g.toGeometry swap.allSpace id chain size)
    (direction : reverse = true ↔ c.status = .swapin)
    (mem : r ∈ requests g swap id reverse chain 0) : Part g swap chain c r := by
  obtain ⟨_, isReverse, moved, inChain, loc⟩ := mem_requests mem
  exact {
    ref := inChain
    loc := loc
    window := by
      rw [← requests_windows id reverse 0 (built_aligned divides built)]
      exact List.mem_map_of_mem mem
    reverse := by rw [isReverse]; exact direction
    moved := by
      intro i memI
      rw [moved] at memI
      exact absurd memI (Finset.notMem_empty _) }

/-- What `swapOut` and `swapIn` make of the chunk `id` before they call `copyMem`. -/
structure Starts (g : Setup) (s u : State) (p : Plain) (parts parts' : Nat → List Nat) (id : Nat)
    (c d : Chunk) : Prop where
  rest : u = { s with swap := u.swap, locPtr := u.locPtr }
  books : Books g.toGeometry u.swap parts'
  chains : ∀ j, j ≠ id → parts' j = parts j
  files : SameFiles s.swap u.swap
  kept : ∀ j, j ≠ id → Kept s.swap u.swap parts j
  chunk : u.swap.memChunks.get? id = some d
  size : d.size = c.size
  useCnt : d.useCnt = c.useCnt
  swapBuf : d.swapBuf = some ((parts' id).headD 0)
  built : Built g.toGeometry u.swap.allSpace id (parts' id) d.size
  transit : InTransit d.status
  idle : ¬ InTransit c.status
  unused : s.granted id = 0
  others : ∀ j, j ≠ id → u.locPtr j = s.locPtr j
  buffer : ∃ buf, u.locPtr id = some buf ∧ (d.status = .swapout →
    ∀ text, p id = some text → ∀ i, i < c.size → buf i = text.byte i)
  stored : d.status = .swapin → ∀ text, p id = some text →
    Stretch.Keeps s.disk (u.swap.stretches (parts' id)) text.byte fun _ => True

theorem Holds.copyMem {u : State} {d : Chunk} {parts' : Nat → List Nat} {reverse : Bool}
    (h : Holds g s p parts) (found : s.swap.memChunks.get? id = some c)
    (starts : Starts g s u p parts parts' id c d)
    (direction : reverse = true ↔ d.status = .swapin)
    (taken : u.copyMem g ((parts' id).headD 0) id reverse = some t) : Holds g t p parts' := by
  obtain ⟨text, isText, size⟩ := h.exists_text found
  have before := h.chunks id c text found isText
  have files := filesOpen_of_same h.files starts.files
  have copied : d.swapBuf.isSome = true := by rw [starts.swapBuf]; rfl
  -- every part lies in an open file
  have opened : ∀ k ∈ parts' id, ∀ ref, u.swap.allSpace.get? k = some ref →
      ∃ file, u.swap.swapFiles[ref.file]? = some (some file) := by
    intro k mem ref foundK
    apply files.opened
    obtain ⟨b, foundB, not⟩ := starts.books.chain_held starts.chunk starts.swapBuf mem
    cases foundK.symm.trans foundB
    exact starts.books.file_lt foundB not
  obtain ⟨t', is, scheduled, tracker, pending, fits⟩ := copyMem_spec reverse
    (starts.books.chain_length starts.chunk starts.swapBuf) starts.built opened
  cases taken.symm.trans is
  have chunks : t.swap.memChunks = u.swap.memChunks := by rw [scheduled.swap]
  have space : t.swap.allSpace = u.swap.allSpace := by rw [scheduled.swap]
  have number : t.swap.pageFileNumber = u.swap.pageFileNumber := by rw [scheduled.swap]
  have isPending : u.pendingAios = s.pendingAios := by rw [starts.rest]
  have divides : g.memoryAlignment ∣ d.size := by rw [starts.size]; exact before.aligned
  have inFlight : t.inFlight id = requests g u.swap id reverse (parts' id) 0 := by
    rw [State.inFlight, pending, isPending, List.filter_append]
    have empty : s.pendingAios.filter (fun r => r.chunk = id) = [] := before.idle starts.idle
    rw [empty, List.nil_append]
    exact List.filter_eq_self.mpr fun r mem => decide_eq_true (mem_requests mem).1
  have otherFlight : ∀ j, j ≠ id → t.inFlight j = s.inFlight j := by
    intro j ne
    rw [State.inFlight, pending, isPending, List.filter_append]
    have empty : (requests g u.swap id reverse (parts' id) 0).filter (fun r => r.chunk = j) = [] :=
      List.filter_eq_nil_iff.mpr fun r mem is => ne ((of_decide_eq_true is).symm.trans
        (mem_requests mem).1)
    rw [empty, List.append_nil]
    rfl
  have larger : Larger s.swap.swapFiles t.swap.swapFiles :=
    (larger_of_eq starts.files.swapFiles).trans scheduled.files
  have locPtr : t.locPtr = u.locPtr := by rw [scheduled.rest]
  have disk : t.disk = s.disk := by rw [scheduled.rest, starts.rest]
  have granted : t.granted = s.granted := by rw [scheduled.rest, starts.rest]
  have writers : t.writers = s.writers := by rw [scheduled.rest, starts.rest]
  have waiting : t.waiting = s.waiting := by rw [scheduled.rest, starts.rest]
  have oldTracker : u.tracker = s.tracker := by rw [starts.rest]
  apply h.touch id
  · exact {
      books := by rw [scheduled.swap]; exact starts.books.setFiles _
      files := {
        length := by rw [scheduled.length, number]; exact files.length
        opened := by
          intro n less
          rw [number] at less
          obtain ⟨file, isOpen⟩ := files.opened n less
          obtain ⟨file', isOpen', _⟩ := scheduled.files n file isOpen
          exact ⟨file', isOpen'⟩ }
      larger := larger
      disk := fun j _ => sameBytes_of_eq disk j
      kept := fun j ne => {
        chunk := by rw [chunks]; exact (starts.kept j ne).chunk
        chain := by rw [chunks, space]; exact (starts.kept j ne).chain }
      untouched := fun j ne => {
        locPtr := by rw [locPtr]; exact starts.others j ne
        inFlight := otherFlight j ne
        tracker := by rw [tracker, oldTracker, Function.update_of_ne ne]
        granted := by rw [granted]
        writers := by rw [writers]
        waiting := by rw [waiting] }
      plain := fun _ _ => rfl
      parts := starts.chains }
  · rw [chunks, starts.chunk, isText]
    exact congrArg some (size.trans starts.size.symm)
  · intro d' text' foundD isText'
    rw [chunks, starts.chunk] at foundD
    cases foundD
    cases isText.symm.trans isText'
    obtain ⟨buf, isBuf, full⟩ := starts.buffer
    have same : t.swap.stretches (parts' id) = u.swap.stretches (parts' id) :=
      stretches_congr fun k _ => by rw [space]
    have total : Stretch.total (u.swap.stretches (parts' id)) = d.size := by
      rw [total_stretches, starts.built.chainSize]
    have outstanding : ∀ i, i < d.size → Outstanding (t.inFlight id) i := by
      intro i less
      rw [inFlight]
      exact requests_cover divides starts.built less
    have notResident := inTransit_not_resident starts.transit
    have zero : t.granted id = 0 := by rw [granted]; exact starts.unused
    have noWriter : t.writers id = 0 := by
      rw [writers]
      exact Nat.le_zero.mp (starts.unused ▸ before.writers)
    exact {
      aligned := divides
      known := by
        rintro eq
        rcases starts.transit with status | status <;> rw [eq] at status <;> cases status
      ram := by
        intro _
        refine ⟨buf, by rw [locPtr]; exact isBuf, fun i less read => ?_⟩
        rcases starts.transit with eq | eq
        · exact absurd (outstanding i less) (read eq)
        · exact full eq text isText i (starts.size ▸ less)
      null := by
        rintro eq
        rcases starts.transit with status | status <;> rw [eq] at status <;> cases status
      copied := fun _ => copied
      built := by rw [space]; exact fun _ => starts.built
      copy := by
        intro _
        rw [disk, same]
        rcases starts.transit with eq | eq
        · exact (starts.stored eq text isText).mono fun _ _ _ => trivial
        · intro i place isPlace known
          have less : i < d.size := by
            by_contra not
            rw [Stretch.byteAt_eq_none (by omega)] at isPlace
            cases isPlace
          exact absurd (outstanding i less) (known eq)
      fits := by
        intro _ e mem
        rw [same] at mem
        exact fits e mem
      idle := fun not => absurd starts.transit not
      part := by
        intro r mem
        rw [inFlight] at mem
        have part := requests_part divides starts.built direction mem
        exact {
          ref := part.ref
          loc := by rw [space]; exact part.loc
          window := by rw [same]; exact part.window
          reverse := part.reverse
          moved := part.moved }
      order := by
        rw [inFlight, requests_windows _ _ _ (built_aligned divides starts.built)]
        exact Stretch.windows_behind (starts.books.stretches_pairwise starts.chunk starts.swapBuf)
      tracker := by
        intro _
        have parts : ∀ k ∈ parts' id, ∃ ref, u.swap.allSpace.get? k = some ref := fun k mem =>
          (built_aligned divides starts.built k mem).imp fun _ both => both.1
        have length : (requests g u.swap id reverse (parts' id) 0).length = (parts' id).length :=
          requests_length parts
        rw [tracker, Function.update_self, inFlight, length]
        refine ⟨rfl, fun empty => ?_⟩
        rw [empty] at length
        have chained := starts.built
        rw [List.length_eq_zero_iff.mp length.symm] at chained
        exact chained
      writers := by rw [noWriter]; exact Nat.zero_le _
      uses := by
        rw [granted, waiting, starts.useCnt]
        exact before.uses
      held := fun pos => by rw [zero] at pos; cases pos
      clean := fun pos => by rw [noWriter] at pos; cases pos
      inuse := fun eq => by
        rw [eq] at notResident
        cases notResident }
  · intro _ _
    exact ⟨d, by rw [chunks]; exact starts.chunk⟩
  · intro absent
    rw [chunks, starts.chunk] at absent
    cases absent

theorem Holds.swapOut (h : Holds g s p parts) (taken : step g s (.swapOut id) = some t) :
    ∃ parts', Holds g t p parts' := by
  obtain ⟨c, found, is⟩ := Option.bind_eq_some_iff.mp taken
  obtain ⟨text, isText, size⟩ := h.exists_text found
  have before := h.chunks id c text found isText
  split at is
  · rename_i eligible
    obtain ⟨resident, idle⟩ := eligible
    have uses := before.uses
    have zero : c.useCnt.toNat = 0 := by rw [idle]; rfl
    have notTransit : ¬ InTransit c.status := by
      rintro (eq | eq) <;> rw [resident] at eq <;> cases eq
    have flag : c.status.hasFlag .allocated = true := by rw [resident]; rfl
    rcases h.books.swapOut_cases found resident with out | ⟨copied, out, books⟩ | ⟨new, either⟩
    · -- refused
      rw [State.swapOut, out] at is
      cases is
      exact ⟨parts, h⟩
    · -- the chunk is cached
      rw [State.swapOut, out] at is
      simp only [copied, if_true] at is
      cases is
      refine ⟨parts, ?_⟩
      have here : ((s.swap.claimUsageof c.size true).setChunk id
          { c with status := .swapped }).memChunks.get? id =
              some { c with status := .swapped } := by
        rw [get?_setChunk, if_pos rfl]
      apply h.touch id
      · exact {
          books := books
          files := ⟨h.files.length, h.files.opened⟩
          larger := Larger.refl _
          disk := fun j _ => sameBytes_of_eq rfl j
          kept := fun j ne => Kept.of_chunk rfl ((get?_setChunk _ _ _ _).trans (if_neg ne))
          untouched := fun j ne => ⟨Function.update_of_ne ne _ _, rfl, rfl, rfl, rfl, rfl⟩
          plain := fun _ _ => rfl
          parts := fun _ _ => rfl }
      · rw [here, isText]
        exact congrArg some size
      · intro d text' foundD isText'
        cases here.symm.trans foundD
        cases isText.symm.trans isText'
        exact {
          aligned := before.aligned
          known := by simp
          ram := fun not => absurd rfl not
          null := fun _ => Function.update_self _ _ _
          copied := fun _ => copied
          built := before.built
          copy := fun _ => (before.copy copied).mono fun i _ _ eq => by
            rw [resident] at eq
            cases eq
          fits := before.fits
          idle := fun _ => before.idle notTransit
          part := fun r mem => by
            have mem : r ∈ s.inFlight id := mem
            rw [before.idle notTransit] at mem
            cases mem
          order := before.order
          tracker := fun transit => by rcases transit with eq | eq <;> cases eq
          writers := before.writers
          uses := before.uses
          held := fun pos => by simp only at pos; omega
          clean := fun pos => by
            have less := before.writers
            simp only at pos
            omega
          inuse := fun eq => by cases eq }
      · intro _ _
        exact ⟨_, here⟩
      · intro gone
        cases here.symm.trans gone
    · rcases either with ⟨swap, chain, out, moved⟩ | ⟨swap, out, refused⟩
      · -- a new place has been found
        rw [State.swapOut, out] at is
        have notCopied : ¬ c.swapBuf.isSome = true := by rw [new]; simp
        simp only [if_neg notCopied, moved.chunk, Option.bind_some] at is
        refine ⟨Function.update parts id chain, h.copyMem found
          (d := { c with swapBuf := some (chain.headD 0), status := .swapout }) ?_ ?_
          (by rw [Function.update_self]; exact is)⟩
        · obtain ⟨buf, isBuf, right⟩ := before.resident flag
          exact {
            rest := rfl
            books := moved.books
            chains := fun j ne => Function.update_of_ne ne _ _
            files := moved.files
            kept := moved.kept
            chunk := moved.chunk
            size := rfl
            useCnt := rfl
            swapBuf := by rw [Function.update_self]
            built := by rw [Function.update_self]; exact moved.built
            transit := .inr rfl
            idle := notTransit
            unused := by omega
            others := fun _ _ => rfl
            buffer := ⟨buf, isBuf, fun _ text' isText' i less => by
              cases isText.symm.trans isText'
              exact right i less⟩
            stored := fun eq => by cases eq }
        · simp
      · -- out of swap space
        rw [State.swapOut, out] at is
        cases is
        have larger : Larger s.swap.swapFiles swap.swapFiles :=
          larger_of_eq refused.files.swapFiles
        exact ⟨parts, h.swap refused.books (filesOpen_of_same h.files refused.files) larger
          refused.kept⟩
  · cases is

theorem Holds.swapIn {bytes : Buffer} (h : Holds g s p parts)
    (taken : step g s (.swapIn id bytes) = some t) : Holds g t p parts := by
  obtain ⟨c, found, is⟩ := Option.bind_eq_some_iff.mp taken
  obtain ⟨text, isText, size⟩ := h.exists_text found
  have before := h.chunks id c text found isText
  obtain ⟨swap, loaded, is⟩ := Option.bind_eq_some_iff.mp is
  have books := h.books.swapIn loaded
  obtain ⟨c', found', loaded⟩ := Option.bind_eq_some_iff.mp loaded
  cases found.symm.trans found'
  split at loaded
  · rename_i swapped
    have copied : c.swapBuf.isSome = true := before.copied (by rw [swapped]; rfl)
    obtain ⟨swapBuf, isSwapBuf⟩ := Option.isSome_iff_exists.mp copied
    simp only [isSwapBuf] at loaded is
    cases loaded
    obtain ⟨rfl, _⟩ := h.books.owns id c swapBuf found isSwapBuf
    refine h.copyMem found
      (d := { c with status := .swapin, swapBuf := some ((parts id).headD 0) }) ?_ (by simp) is
    have notTransit : ¬ InTransit c.status := by
      rintro (eq | eq) <;> rw [swapped] at eq <;> cases eq
    exact {
      rest := rfl
      books := books
      chains := fun _ _ => rfl
      files := ⟨rfl, rfl⟩
      kept := fun j ne => kept_setChunk s.swap id _ ne
      chunk := by rw [get?_setChunk, if_pos rfl]
      size := rfl
      useCnt := rfl
      swapBuf := rfl
      built := before.built copied
      transit := .inl rfl
      idle := notTransit
      unused := by
        by_contra not
        have resident := before.held (Nat.pos_of_ne_zero not)
        rw [swapped] at resident
        cases resident
      others := fun j ne => Function.update_of_ne ne _ _
      buffer := ⟨bytes, Function.update_self _ _ _, fun eq => by cases eq⟩
      stored := fun _ text' isText' => by
        cases isText.symm.trans isText'
        exact (before.copy copied).mono fun i _ _ eq => by
          rw [swapped] at eq
          cases eq }
  · cases loaded

/-! ### Transfers -/

/-- What is known of a pending request. -/
theorem Holds.pending {n : Nat} {aio : Aio} (h : Holds g s p parts)
    (is : s.pendingAios[n]? = some aio) :
    ∃ c text, s.swap.memChunks.get? aio.chunk = some c ∧ p aio.chunk = some text ∧
      ChunkHolds g s (parts aio.chunk) text.byte aio.chunk c ∧
      Part g s.swap (parts aio.chunk) c aio ∧ InTransit c.status ∧ c.swapBuf.isSome = true ∧
      aio.ramBuf + aio.length ≤ c.size ∧ ∀ i, i < aio.length →
        Stretch.byteAt (s.swap.stretches (parts aio.chunk)) (aio.ramBuf + i) =
          some (aio.file, aio.offset + i) := by
  have mem := List.mem_of_getElem? is
  obtain ⟨c, found⟩ := h.registered aio mem
  obtain ⟨text, isText, _⟩ := h.exists_text found
  have before := h.chunks _ c text found isText
  have here : aio ∈ s.inFlight aio.chunk := mem_inFlight.mpr ⟨mem, rfl⟩
  have part := before.part aio here
  have copied := before.copied_of_mem here
  have transit : InTransit c.status := by
    by_contra not
    rw [before.idle not] at here
    cases here
  have total : Stretch.total (s.swap.stretches (parts aio.chunk)) = c.size := by
    rw [total_stretches, (before.built copied).chainSize]
  refine ⟨c, text, found, isText, before, part, transit, copied, ?_, fun i less => ?_⟩
  · have bounds := (Stretch.windows_bounds part.window).2
    rw [Nat.zero_add, total] at bounds
    exact bounds
  · have place := Stretch.mem_windows part.window less
    rw [Nat.sub_zero] at place
    exact place

/-- A byte that is moved is the only one that is no longer outstanding. -/
theorem outstanding_moved {pre post : List Aio} {aio : Aio} {i j : Nat}
    (was : Outstanding (pre ++ aio :: post) j) :
    Outstanding (pre ++ { aio with moved := insert i aio.moved } :: post) j ∨
      j = aio.ramBuf + i := by
  obtain ⟨r, mem, le, less, not⟩ := was
  rcases List.mem_append.mp mem with mem | mem
  · exact .inl ⟨r, List.mem_append_left _ mem, le, less, not⟩
  · rcases List.mem_cons.mp mem with rfl | mem
    · by_cases here : j = r.ramBuf + i
      · exact .inr here
      · refine .inl ⟨_, List.mem_append_right _ List.mem_cons_self, le, less, fun moved => ?_⟩
        rcases Finset.mem_insert.mp moved with eq | moved
        · simp only at eq
          omega
        · exact not moved
    · exact .inl ⟨r, List.mem_append_right _ (List.mem_cons_of_mem _ mem), le, less, not⟩

theorem Holds.transfer {n i : Nat} (h : Holds g s p parts)
    (taken : step g s (.transfer n i) = some t) : Holds g t p parts := by
  obtain ⟨aio, isAio, is⟩ := Option.bind_eq_some_iff.mp taken
  obtain ⟨c, text, found, isText, before, part, transit, copied, inside, places⟩ :=
    h.pending isAio
  obtain ⟨less, isAt⟩ := List.getElem?_eq_some_iff.mp isAio
  split at is
  · rename_i guard
    obtain ⟨moves, _⟩ := guard
    obtain ⟨buf, isBuf, isT⟩ := Option.map_eq_some_iff.mp is
    have place := places i moves
    have somewhere : ∃ pre post, s.pendingAios = pre ++ s.pendingAios[n] :: post ∧
        pre.length = n ∧ s.pendingAios.set n { aio with moved := insert i aio.moved } =
          pre ++ { aio with moved := insert i aio.moved } :: post := List.exists_of_set less
    obtain ⟨pre, post, placed, _, set⟩ := somewhere
    rw [isAt] at placed
    -- the requests of the chunk, before and behind the one that moves
    have flight : s.inFlight aio.chunk = pre.filter (fun r => r.chunk = aio.chunk) ++
        aio :: post.filter fun r => r.chunk = aio.chunk := by
      rw [State.inFlight, placed, List.filter_append, List.filter_cons_of_pos (by simp)]
    have pending : t.pendingAios =
        pre ++ { aio with moved := insert i aio.moved } :: post := by
      rw [← isT, ← set]
      split <;> rfl
    have flight' : t.inFlight aio.chunk = pre.filter (fun r => r.chunk = aio.chunk) ++
        { aio with moved := insert i aio.moved } ::
          post.filter fun r => r.chunk = aio.chunk := by
      rw [State.inFlight, pending, List.filter_append, List.filter_cons_of_pos (by simp)]
    have others : ∀ j, j ≠ aio.chunk → t.inFlight j = s.inFlight j := by
      intro j ne
      rw [State.inFlight, State.inFlight, pending, placed, List.filter_append, List.filter_append,
        List.filter_cons_of_neg (by simpa using fun eq => ne eq.symm),
        List.filter_cons_of_neg (by simpa using fun eq => ne eq.symm)]
    have moved : ∀ j, ¬ Outstanding (t.inFlight aio.chunk) j →
        ¬ Outstanding (s.inFlight aio.chunk) j ∨ j = aio.ramBuf + i := by
      intro j not
      by_cases here : j = aio.ramBuf + i
      · exact .inr here
      · left
        intro was
        rw [flight] at was
        rw [flight'] at not
        rcases outstanding_moved was with still | eq
        · exact not still
        · exact here eq
    have swap : t.swap = s.swap := by rw [← isT]; split <;> rfl
    have rest : t.tracker = s.tracker ∧ t.granted = s.granted ∧ t.writers = s.writers ∧
        t.waiting = s.waiting := by
      rw [← isT]
      split <;> exact ⟨rfl, rfl, rfl, rfl⟩
    obtain ⟨tracker, granted, writers, waiting⟩ := rest
    -- what is moved, and where
    have bytes : (∃ buf', t.locPtr aio.chunk = some buf' ∧ ∀ j, j < c.size →
          (c.status = .swapin → ¬ Outstanding (t.inFlight aio.chunk) j) → buf' j = text.byte j) ∧
        (∀ j, j ≠ aio.chunk → t.locPtr j = s.locPtr j) ∧
        (Stretch.Keeps t.disk (s.swap.stretches (parts aio.chunk)) text.byte fun j =>
          c.status = .swapout → ¬ Outstanding (t.inFlight aio.chunk) j) ∧
        ∀ j, j ≠ aio.chunk → SameBytes s t parts j := by
      obtain ⟨buf', isBuf', right⟩ := before.ram fun eq => by
        rcases transit with status | status <;> rw [eq] at status <;> cases status
      cases isBuf.symm.trans isBuf'
      cases isReverse : aio.reverse with
      | true =>
          -- the byte is read from the swap copy
          have swapin := part.reverse.mp isReverse
          simp only [isReverse, if_true] at isT
          have stored : s.disk aio.file (aio.offset + i) = text.byte (aio.ramBuf + i) := by
            apply before.copy copied _ _ place
            intro eq
            rw [swapin] at eq
            cases eq
          have disk : t.disk = s.disk := by rw [← isT]
          refine ⟨⟨_, by rw [← isT]; exact Function.update_self _ _ _, fun j lessJ read => ?_⟩,
            fun j ne => by rw [← isT]; exact Function.update_of_ne ne _ _, ?_,
            fun j _ => sameBytes_of_eq disk j⟩
          · rcases moved j (read swapin) with not | rfl
            · by_cases here : j = aio.ramBuf + i
              · rw [here, Function.update_self]
                exact stored
              · rw [Function.update_of_ne here]
                exact right j lessJ fun _ => not
            · rw [Function.update_self]
              exact stored
          · rw [disk]
            refine (before.copy copied).mono fun j _ _ eq => ?_
            rw [swapin] at eq
            cases eq
      | false =>
          -- the byte is written to the swap copy
          have notIn : c.status ≠ .swapin := fun eq => by
            rw [part.reverse.mpr eq] at isReverse
            cases isReverse
          have swapout := transit.resolve_left notIn
          simp only [isReverse, Bool.false_eq_true, if_false] at isT
          have full : buf (aio.ramBuf + i) = text.byte (aio.ramBuf + i) :=
            right _ (by omega) fun eq => absurd eq notIn
          have locPtr : t.locPtr = s.locPtr := by rw [← isT]
          have disk : t.disk = Stretch.put s.disk (aio.file, aio.offset + i)
              (text.byte (aio.ramBuf + i)) := by rw [← isT, ← full]
          obtain ⟨swapBuf, isSwapBuf⟩ := Option.isSome_iff_exists.mp copied
          refine ⟨⟨buf, by rw [locPtr]; exact isBuf, fun j lessJ _ =>
            right j lessJ fun eq => absurd eq notIn⟩, fun j _ => by rw [locPtr], ?_,
            fun j ne d foundJ copiedJ text' known keeps => ?_⟩
          · rw [disk]
            apply ((before.copy copied).put_own (h.books.stretches_pairwise found isSwapBuf)
              place).mono
            intro j _ known
            exact (moved j (known swapout)).imp_left fun not _ => not
          · rw [disk]
            obtain ⟨swapBuf', isSwapBuf'⟩ := Option.isSome_iff_exists.mp copiedJ
            apply keeps.put_other
            intro k isK
            exact Stretch.byteAt_ne
              (h.books.stretches_apart ne found isSwapBuf foundJ isSwapBuf') isK place
    obtain ⟨ram, otherBuffers, copy, otherBytes⟩ := bytes
    have length : (t.inFlight aio.chunk).length = (s.inFlight aio.chunk).length := by
      rw [flight, flight', List.length_append, List.length_append, List.length_cons,
        List.length_cons]
    apply h.touch aio.chunk
    · exact {
        books := by rw [swap]; exact h.books
        files := by rw [swap]; exact h.files
        larger := by rw [swap]; exact Larger.refl _
        disk := otherBytes
        kept := fun _ _ => by rw [swap]; exact Kept.of_chunk rfl rfl
        untouched := fun j ne => {
          locPtr := otherBuffers j ne
          inFlight := others j ne
          tracker := by rw [tracker]
          granted := by rw [granted]
          writers := by rw [writers]
          waiting := by rw [waiting] }
        plain := fun _ _ => rfl
        parts := fun _ _ => rfl }
    · rw [swap]
      exact h.sizes aio.chunk
    · intro d text' foundD isText'
      rw [swap, found] at foundD
      cases foundD
      cases isText.symm.trans isText'
      exact {
        aligned := before.aligned
        known := before.known
        ram := fun _ => ram
        null := fun eq => by
          rcases transit with status | status <;> rw [eq] at status <;> cases status
        copied := before.copied
        built := by rw [swap]; exact before.built
        copy := fun _ => by rw [swap]; exact copy
        fits := by rw [swap]; exact before.fits
        idle := fun not => absurd transit not
        part := by
          intro r mem
          rw [swap]
          rw [flight', List.mem_append, List.mem_cons] at mem
          rcases mem with mem | rfl | mem
          · exact before.part r (by rw [flight]; exact List.mem_append_left _ mem)
          · exact {
              ref := part.ref
              loc := part.loc
              window := part.window
              reverse := part.reverse
              moved := by
                intro j memJ
                rcases Finset.mem_insert.mp memJ with rfl | memJ
                · exact moves
                · exact part.moved j memJ }
          · exact before.part r (by
              rw [flight]
              exact List.mem_append_right _ (List.mem_cons_of_mem _ mem))
        order := by
          have same : (t.inFlight aio.chunk).map Aio.window =
              (s.inFlight aio.chunk).map Aio.window := by
            rw [flight, flight', List.map_append, List.map_append, List.map_cons, List.map_cons]
            rfl
          rw [same]
          exact before.order
        tracker := by
          intro moving
          rw [tracker, length]
          refine ⟨(before.tracker moving).1, fun empty => ?_⟩
          rw [flight'] at empty
          simp at empty
        writers := by rw [writers, granted]; exact before.writers
        uses := by rw [granted, waiting]; exact before.uses
        held := by rw [granted]; exact before.held
        clean := by rw [writers]; exact before.clean
        inuse := before.inuse }
    · intro _ _
      exact ⟨c, by rw [swap]; exact found⟩
    · intro absent
      rw [swap, found] at absent
      cases absent
  · cases is

/-! ### Arrivals -/

/-- The request has moved all its bytes when the kernel reports the whole length. -/
theorem Part.all_moved {swap : FileSwap.State} {aio : Aio} (part : Part g swap chain c aio)
    (full : aio.moved.card = aio.length) {i : Nat} (less : i < aio.length) : i ∈ aio.moved := by
  have sub : aio.moved ⊆ Finset.range aio.length := fun j mem =>
    Finset.mem_range.mpr (part.moved j mem)
  have all := Finset.eq_of_subset_of_card_le sub (by rw [Finset.card_range, full])
  rw [all]
  exact Finset.mem_range.mpr less

/-- A request that has come to its end. -/
theorem Holds.arrived {n : Nat} {aio : Aio} {d : Chunk} {swap : FileSwap.State}
    {locPtr : Nat → Option Buffer} (h : Holds g s p parts) (is : s.pendingAios[n]? = some aio)
    (found : s.swap.memChunks.get? aio.chunk = some c)
    (full : aio.moved.card = aio.length)
    (isT : t = { s.without n aio with swap, locPtr })
    (books : Books g.toGeometry swap parts) (same : SameFiles s.swap swap)
    (space : swap.allSpace = s.swap.allSpace)
    (others : ∀ j, j ≠ aio.chunk → swap.memChunks.get? j = s.swap.memChunks.get? j)
    (buffers : ∀ j, j ≠ aio.chunk → locPtr j = s.locPtr j)
    (chunk : swap.memChunks.get? aio.chunk = some d) (size : d.size = c.size)
    (swapBuf : d.swapBuf = c.swapBuf) (useCnt : d.useCnt = c.useCnt)
    (status : (1 < s.tracker aio.chunk ∧ d.status = c.status ∧
        locPtr aio.chunk = s.locPtr aio.chunk) ∨
      (s.tracker aio.chunk = 1 ∧
        ((c.status = .swapin ∧ (d.status = .allocated ∨ d.status = .allocatedInuseRead) ∧
            locPtr aio.chunk = s.locPtr aio.chunk) ∨
          (c.status = .swapout ∧ d.status = .swapped ∧ locPtr aio.chunk = none)))) :
    Holds g t p parts := by
  obtain ⟨c', text, found', isText, before, part, transit, copied, inside, _⟩ := h.pending is
  cases found.symm.trans found'
  obtain ⟨pre, post, placed, erased⟩ := pending_split is
  have pending : t.pendingAios = pre ++ post := by rw [isT, ← erased]
  have flight : s.inFlight aio.chunk = pre.filter (fun r => r.chunk = aio.chunk) ++
      aio :: post.filter fun r => r.chunk = aio.chunk := by
    rw [State.inFlight, placed, List.filter_append, List.filter_cons_of_pos (by simp)]
  have flight' : t.inFlight aio.chunk = pre.filter (fun r => r.chunk = aio.chunk) ++
      post.filter fun r => r.chunk = aio.chunk := by
    rw [State.inFlight, pending, List.filter_append]
  have otherFlight : ∀ j, j ≠ aio.chunk → t.inFlight j = s.inFlight j := by
    intro j ne
    rw [State.inFlight, State.inFlight, pending, placed, List.filter_append, List.filter_append,
      List.filter_cons_of_neg (by simpa using fun eq => ne eq.symm)]
  have sub : ∀ r ∈ t.inFlight aio.chunk, r ∈ s.inFlight aio.chunk := by
    intro r mem
    rw [flight', List.mem_append] at mem
    rw [flight, List.mem_append, List.mem_cons]
    exact mem.imp_right .inr
  have outstanding : ∀ i, Outstanding (s.inFlight aio.chunk) i →
      Outstanding (t.inFlight aio.chunk) i := by
    rintro i ⟨r, mem, le, within, not⟩
    rw [flight, List.mem_append, List.mem_cons] at mem
    rcases mem with mem | rfl | mem
    · exact ⟨r, by rw [flight']; exact List.mem_append_left _ mem, le, within, not⟩
    · exact absurd (part.all_moved full (by omega)) not
    · exact ⟨r, by rw [flight']; exact List.mem_append_right _ mem, le, within, not⟩
  have length : (s.inFlight aio.chunk).length = (t.inFlight aio.chunk).length + 1 := by
    rw [flight, flight', List.length_append, List.length_append, List.length_cons]
    omega
  obtain ⟨count, _⟩ := before.tracker transit
  have tracker : t.tracker aio.chunk = s.tracker aio.chunk - 1 := by
    rw [isT]
    exact Function.update_self _ _ _
  have tSwap : t.swap = swap := by rw [isT]
  have tLocPtr : t.locPtr = locPtr := by rw [isT]
  have disk : t.disk = s.disk := by rw [isT]; rfl
  have granted : t.granted = s.granted := by rw [isT]; rfl
  have writers : t.writers = s.writers := by rw [isT]; rfl
  have waiting : t.waiting = s.waiting := by rw [isT]; rfl
  have stretches : swap.stretches (parts aio.chunk) = s.swap.stretches (parts aio.chunk) :=
    stretches_congr fun k _ => by rw [space]
  have unused : s.granted aio.chunk = 0 := by
    by_contra not
    have resident := before.held (Nat.pos_of_ne_zero not)
    rw [inTransit_not_resident transit] at resident
    cases resident
  have noWriter : s.writers aio.chunk = 0 := Nat.le_zero.mp (unused ▸ before.writers)
  have isCopy : d.swapBuf.isSome = true := by rw [swapBuf]; exact copied
  have empty : s.tracker aio.chunk = 1 → t.inFlight aio.chunk = [] := fun one =>
    List.eq_nil_of_length_eq_zero (by omega)
  have buffer := before.ram fun eq => by
    rcases transit with status | status <;> rw [eq] at status <;> cases status
  apply h.touch aio.chunk
  · exact {
      books := by rw [tSwap]; exact books
      files := by rw [tSwap]; exact filesOpen_of_same h.files same
      larger := by rw [tSwap]; exact larger_of_eq same.swapFiles
      disk := fun j _ => sameBytes_of_eq disk j
      kept := fun j ne => by rw [tSwap]; exact Kept.of_chunk space (others j ne)
      untouched := fun j ne => {
        locPtr := by rw [tLocPtr]; exact buffers j ne
        inFlight := otherFlight j ne
        tracker := by rw [isT]; exact Function.update_of_ne ne _ _
        granted := by rw [granted]
        writers := by rw [writers]
        waiting := by rw [waiting] }
      plain := fun _ _ => rfl
      parts := fun _ _ => rfl }
  · rw [tSwap, chunk, h.sizes aio.chunk, found]
    exact congrArg some size.symm
  · intro d' text' foundD isText'
    rw [tSwap, chunk] at foundD
    cases foundD
    cases isText.symm.trans isText'
    exact {
      aligned := by rw [size]; exact before.aligned
      known := by
        rcases status with ⟨_, eq, _⟩ | ⟨_, ⟨_, eq | eq, _⟩ | ⟨_, eq, _⟩⟩
        · rw [eq]
          exact before.known
        all_goals rw [eq]; simp
      ram := by
        intro not
        obtain ⟨buf, isBuf, right⟩ := buffer
        rcases status with ⟨_, eq, here⟩ | ⟨one, ⟨_, _, here⟩ | ⟨_, eq, _⟩⟩
        · refine ⟨buf, by rw [tLocPtr, here]; exact isBuf, fun i less read => ?_⟩
          refine right i (size ▸ less) fun loading was => ?_
          exact read (eq.trans loading) (outstanding i was)
        · refine ⟨buf, by rw [tLocPtr, here]; exact isBuf, fun i less _ => ?_⟩
          refine right i (size ▸ less) fun _ was => ?_
          have still := outstanding i was
          rw [empty one] at still
          exact not_outstanding_nil i still
        · exact absurd eq not
      null := by
        intro eq
        rcases status with ⟨_, eq', _⟩ | ⟨_, ⟨_, eq' | eq', _⟩ | ⟨_, _, here⟩⟩
        · rcases transit with status | status <;> rw [← eq', eq] at status <;> cases status
        · rw [eq] at eq'
          cases eq'
        · rw [eq] at eq'
          cases eq'
        · rw [tLocPtr]
          exact here
      copied := fun _ => isCopy
      built := fun _ => by
        rw [tSwap, size, space]
        exact before.built copied
      copy := by
        intro _
        rw [disk, tSwap, stretches]
        refine (before.copy copied).mono fun i _ known writing was => ?_
        have still := outstanding i was
        rcases status with ⟨_, eq, _⟩ | ⟨one, _⟩
        · exact known (eq.trans writing) still
        · rw [empty one] at still
          exact not_outstanding_nil i still
      fits := by
        intro _
        rw [tSwap, stretches, same.swapFiles]
        exact before.fits copied
      idle := by
        intro not
        rcases status with ⟨_, eq, _⟩ | ⟨one, _⟩
        · exact absurd (eq ▸ transit) not
        · exact empty one
      part := by
        intro r mem
        have old := before.part r (sub r mem)
        rcases status with ⟨_, eq, _⟩ | ⟨one, _⟩
        · exact {
            ref := old.ref
            loc := by rw [tSwap, space]; exact old.loc
            window := by rw [tSwap, stretches]; exact old.window
            reverse := by rw [eq]; exact old.reverse
            moved := old.moved }
        · rw [empty one] at mem
          cases mem
      order := by
        refine List.Pairwise.sublist ?_ before.order
        rw [flight, flight']
        exact ((List.sublist_cons_self _ _).append_left _).map _
      tracker := by
        intro moving
        rcases status with ⟨more, _, _⟩ | ⟨_, ⟨_, eq | eq, _⟩ | ⟨_, eq, _⟩⟩
        · refine ⟨by omega, fun isEmpty => ?_⟩
          rw [isEmpty] at length
          simp only [List.length_nil] at length
          omega
        all_goals rcases moving with status | status <;> rw [eq] at status <;> cases status
      writers := by rw [writers, granted]; exact before.writers
      uses := by rw [granted, waiting, useCnt]; exact before.uses
      held := fun pos => by rw [granted, unused] at pos; cases pos
      clean := fun pos => by rw [writers, noWriter] at pos; cases pos
      inuse := by
        intro eq
        rcases status with ⟨_, eq', _⟩ | ⟨_, ⟨_, eq' | eq', _⟩ | ⟨_, eq', _⟩⟩
        · rcases transit with status | status <;> rw [← eq', eq] at status <;> cases status
        all_goals rw [eq] at eq'; cases eq' }
  · intro _ _
    exact ⟨d, by rw [tSwap]; exact chunk⟩
  · intro absent
    rw [tSwap, chunk] at absent
    cases absent

/-- A request that has moved all its bytes is taken without an exception. -/
theorem Holds.asyncIoArrived {n : Nat} {aio : Aio} (h : Holds g s p parts)
    (is : s.pendingAios[n]? = some aio) (full : aio.moved.card = aio.length) :
    ∃ t, s.asyncIoArrived g n aio = some t ∧ Holds g t p parts ∧
      t.pendingAios = s.pendingAios.eraseIdx n := by
  obtain ⟨c, text, found, isText, before, part, transit, copied, _, _⟩ := h.pending is
  obtain ⟨ref, foundRef, size⟩ := part.loc
  obtain ⟨count, nonempty⟩ := before.tracker transit
  have pos : 0 < (s.inFlight aio.chunk).length := List.length_pos_of_ne_nil nonempty
  have lowered : s.asyncIoArrived g n aio =
      if s.tracker aio.chunk = 1 then (s.without n aio).completeTransactionOn aio.ref
      else some (s.without n aio) := by
    rw [State.asyncIoArrived, foundRef, Option.bind_some, size, if_pos full]
    rfl
  rw [lowered]
  by_cases last : s.tracker aio.chunk = 1
  · rw [if_pos last]
    obtain ⟨swapBuf, isSwapBuf⟩ := Option.isSome_iff_exists.mp copied
    have ends : State.endOf s.swap.allSpace s.swap.allSpace.entries.length aio.ref =
        some aio.chunk :=
      endOf_spec _ _ (h.books.chain_length found isSwapBuf) (before.built copied) _ part.ref
    have completes : ∀ swap, s.swap.completeTransactionOn aio.chunk = some swap →
        (s.without n aio).completeTransactionOn aio.ref = some
          (if c.status = .swapout then { s.without n aio with
            swap, locPtr := Function.update s.locPtr aio.chunk none }
          else { s.without n aio with swap }) := by
      intro swap completed
      have ends : State.endOf (s.without n aio).swap.allSpace
          (s.without n aio).swap.allSpace.entries.length aio.ref = some aio.chunk := ends
      have found : (s.without n aio).swap.memChunks.get? aio.chunk = some c := found
      have completed : (s.without n aio).swap.completeTransactionOn aio.chunk = some swap :=
        completed
      rw [State.completeTransactionOn, ends, Option.bind_some, found, Option.bind_some, completed]
      rfl
    rcases transit with swapin | swapout
    · -- a read
      have completed : s.swap.completeTransactionOn aio.chunk = some
          ((s.swap.claimUsageof c.size false).setChunk aio.chunk { c with
            status := if c.useCnt = 0 then .allocated else .allocatedInuseRead }) := by
        rw [FileSwap.State.completeTransactionOn, found, Option.bind_some]
        simp only [swapin]
      have notOut : ¬ c.status = .swapout := by rw [swapin]; simp
      refine ⟨_, (completes _ completed).trans (congrArg some (if_neg notOut)), ?_, rfl⟩
      exact h.arrived is found full rfl (h.books.complete completed) ⟨rfl, rfl⟩ rfl
        (fun j ne => (get?_setChunk _ _ _ _).trans (if_neg ne)) (fun _ _ => rfl)
        ((get?_setChunk _ _ _ _).trans (if_pos rfl)) rfl rfl rfl
        (.inr ⟨last, .inl ⟨swapin, by
          simp only
          split
          · exact .inl rfl
          · exact .inr rfl, rfl⟩⟩)
    · -- a write
      have completed : s.swap.completeTransactionOn aio.chunk =
          some (s.swap.setChunk aio.chunk { c with status := .swapped }) := by
        rw [FileSwap.State.completeTransactionOn, found, Option.bind_some]
        simp only [swapout]
      refine ⟨_, (completes _ completed).trans (congrArg some (if_pos swapout)), ?_, rfl⟩
      exact h.arrived is found full rfl (h.books.complete completed) ⟨rfl, rfl⟩ rfl
        (fun j ne => (get?_setChunk _ _ _ _).trans (if_neg ne))
        (fun j ne => Function.update_of_ne ne _ _)
        ((get?_setChunk _ _ _ _).trans (if_pos rfl)) rfl rfl rfl
        (.inr ⟨last, .inr ⟨swapout, rfl, Function.update_self _ _ _⟩⟩)
  · rw [if_neg last]
    refine ⟨_, rfl, ?_, rfl⟩
    have same : s.without n aio = { s.without n aio with swap := s.swap, locPtr := s.locPtr } := rfl
    exact h.arrived is found full same h.books ⟨rfl, rfl⟩ rfl
      (fun _ _ => rfl) (fun _ _ => rfl) found rfl rfl rfl (.inl ⟨by omega, rfl, rfl⟩)

end Rambrain.SwapBytes
