import Rambrain.ByteTransfers

/-!
The managed memory is transparent: a program finds in a chunk what it has written to it.

`step_holds` carries the invariant through every event, whatever the order of the transfers.
`transparent` then says that a run of the managed memory is a run of a memory without a swap, with
the same reads, and that what is in RAM is what was written. The transfers themselves meet no
error (`transfers_succeed`), do not meet each other (`transfers_apart`), and can always be brought
to their end (`transfers_end`).
-/

namespace Rambrain.SwapBytes

open Lib FileSwap
open Transfer (InTransit)

variable {g : Setup} {s t : State} {p : Plain} {parts : Nat → List Nat}

/-! ### Requests -/

/-- A request lies in its swap file. -/
theorem Holds.in_file {n : Nat} {aio : Aio} (h : Holds g s p parts)
    (is : s.pendingAios[n]? = some aio) : Fits s.swap.swapFiles aio.window.2 := by
  obtain ⟨c, text, _, _, before, part, _, copied, _⟩ := h.pending is
  apply before.fits copied
  rw [← Stretch.windows_snd 0 (s.swap.stretches (parts aio.chunk))]
  exact List.mem_map_of_mem part.window

/-- No read of the kernel is short. -/
theorem Holds.not_behindEnd {n i : Nat} {aio : Aio} (h : Holds g s p parts)
    (is : s.pendingAios[n]? = some aio) (less : i < aio.length) : ¬ s.behindEnd aio i := by
  intro behind
  obtain ⟨file, opened, within⟩ := h.in_file is
  have le := behind file opened
  have within : aio.offset + aio.length ≤ file.currentSize := within
  omega

/-- The kernel can move every byte of a request. -/
theorem Holds.transfers {n i : Nat} {aio : Aio} (h : Holds g s p parts)
    (is : s.pendingAios[n]? = some aio) (less : i < aio.length) :
    ∃ t, step g s (.transfer n i) = some t ∧ Holds g t p parts ∧
      t.pendingAios = s.pendingAios.set n { aio with moved := insert i aio.moved } := by
  obtain ⟨c, text, found, _, before, _, transit, _⟩ := h.pending is
  obtain ⟨buf, isBuf, _⟩ := before.ram fun eq => by
    rcases transit with status | status <;> rw [eq] at status <;> cases status
  have guard : i < aio.length ∧ ¬ (aio.reverse = true ∧ s.behindEnd aio i) :=
    ⟨less, fun both => h.not_behindEnd is less both.2⟩
  have taken : step g s (.transfer n i) = s.transfer n i aio := by
    rw [step, is, Option.bind_some, if_pos guard]
  obtain ⟨t, moved⟩ : ∃ t, s.transfer n i aio = some t := by
    rw [State.transfer, isBuf]
    exact ⟨_, rfl⟩
  refine ⟨t, taken.trans moved, h.transfer (taken.trans moved), ?_⟩
  rw [State.transfer, isBuf] at moved
  cases moved
  split
  · rfl
  · rfl

/-- A request that the kernel has done with has moved all its bytes. -/
theorem Holds.finished {n : Nat} {aio : Aio} (h : Holds g s p parts)
    (is : s.pendingAios[n]? = some aio) (finished : s.Finished aio) :
    aio.moved.card = aio.length := by
  obtain ⟨_, _, _, _, _, part, _⟩ := h.pending is
  have all : aio.moved = Finset.range aio.length := by
    ext i
    rw [Finset.mem_range]
    constructor
    · exact part.moved i
    · intro less
      rcases finished i less with mem | ⟨_, behind⟩
      · exact mem
      · exact absurd behind (h.not_behindEnd is less)
  rw [all, Finset.card_range]

theorem Holds.arrives {n : Nat} {aio : Aio} (h : Holds g s p parts)
    (is : s.pendingAios[n]? = some aio) (finished : s.Finished aio) :
    ∃ t, step g s (.arrive n) = some t ∧ Holds g t p parts ∧
      t.pendingAios = s.pendingAios.eraseIdx n := by
  obtain ⟨t, took, holds, pending⟩ := h.asyncIoArrived is (h.finished is finished)
  refine ⟨t, ?_, holds, pending⟩
  rw [step, is, Option.bind_some, if_pos finished]
  exact took

theorem Holds.arrive {n : Nat} (h : Holds g s p parts) (taken : step g s (.arrive n) = some t) :
    Holds g t p parts := by
  obtain ⟨aio, is, took⟩ := Option.bind_eq_some_iff.mp taken
  split at took
  · rename_i finished
    obtain ⟨u, taken', holds, _⟩ := h.arrives is finished
    cases taken.symm.trans taken'
    exact holds
  · cases took

/-! ### Runs -/

theorem step_holds {e : Event} (h : Holds g s p parts) (taken : step g s e = some t) :
    ∃ p', Plain.step g p e = some p' ∧ ∃ parts', Holds g t p' parts' := by
  cases e with
  | mmalloc id sizereq bytes =>
      obtain ⟨p', plain, holds⟩ := h.mmalloc taken
      exact ⟨p', plain, parts, holds⟩
  | setUse id writeAccess => exact ⟨p, rfl, parts, h.setUse taken⟩
  | resumeUse id writeAccess pause swapInResult => exact ⟨p, rfl, parts, h.resumeUse taken⟩
  | unsetUse id noUnsets writes => exact ⟨p, rfl, parts, h.unsetUse taken⟩
  | read id i byte =>
      obtain ⟨rfl, plain⟩ := h.read taken
      exact ⟨p, plain, parts, h⟩
  | write id i byte =>
      obtain ⟨p', plain, holds⟩ := h.write taken
      exact ⟨p', plain, parts, holds⟩
  | swapOut id => exact ⟨p, rfl, h.swapOut taken⟩
  | swapIn id bytes => exact ⟨p, rfl, parts, h.swapIn taken⟩
  | transfer n i => exact ⟨p, rfl, parts, h.transfer taken⟩
  | arrive n => exact ⟨p, rfl, parts, h.arrive taken⟩
  | mfree id =>
      obtain ⟨p', plain, holds⟩ := h.mfree taken
      exact ⟨p', plain, parts, holds⟩
  | cleanupCachedElements minimumSize => exact ⟨p, rfl, parts, h.cleanupCachedElements taken⟩
  | extendSwap freeDiskSpace opens size => exact ⟨p, rfl, parts, h.extendSwap taken⟩

theorem start_holds (g : Setup) (pageFileNumber : Nat) (enableDMA : Bool) (fileno : Nat → Nat) :
    Holds g (start g pageFileNumber enableDMA fileno) (fun _ => none) fun _ => [] := by
  obtain ⟨_, _, _, _, _, chunks, _⟩ :=
    construct_spec g.toGeometry pageFileNumber enableDMA fileno
  have absent : ∀ id, (start g pageFileNumber enableDMA fileno).swap.memChunks.get? id = none := by
    intro id
    simp only [start, chunks]
    rfl
  exact {
    books := construct_books _ _ _ _
    files := construct_filesOpen _ _ _ _
    sizes := fun id => by rw [absent]; rfl
    chunks := fun id c _ found _ => by rw [absent] at found; cases found
    registered := fun r mem => by cases mem
    gone := fun _ _ => ⟨rfl, rfl, rfl⟩ }

theorem run_holds {pageFileNumber : Nat} {enableDMA : Bool} {fileno : Nat → Nat} {es : List Event}
    (reached : run (step g) (start g pageFileNumber enableDMA fileno) es = some s) :
    ∃ p, run (Plain.step g) (fun _ => none) es = some p ∧ ∃ parts, Holds g s p parts := by
  apply run_simulates (fun s p => ∃ parts, Holds g s p parts) _ es
    ⟨_, start_holds g pageFileNumber enableDMA fileno⟩ reached
  rintro s p e t ⟨parts, holds⟩ taken
  exact step_holds holds taken

/-- Files of 8 bytes with an alignment of 2, extended by 4 bytes at a time. -/
def small : Setup := ⟨⟨8, 2, 3, by decide, by decide, by decide, by decide⟩, 4, by decide⟩

/-- Two chunks are written to the swap, the second in two parts, which arrive out of order. -/
def written : List Event :=
  [.mmalloc 1 3 fun _ => 7, .mmalloc 2 9 fun i => i.toUInt8, .setUse 2 true, .write 2 5 9,
    .unsetUse 2 1 1, .swapOut 1, .swapOut 2] ++
  (List.range 6).map (.transfer 2) ++ (List.range 4).map (.transfer 0) ++ [.arrive 2] ++
  (List.range 4).map (.transfer 1)

set_option maxRecDepth 4000 in
theorem written_reaches :
    ∃ s, run (step small) (start small 2 true id) written = some s ∧ s.pendingAios.length = 2 := by
  have two : (run (step small) (start small 2 true id) written).map
      (fun s => s.pendingAios.length) = some 2 := by decide
  exact Option.map_eq_some_iff.mp two

/-- The second chunk is read back. -/
def readBack : List Event :=
  written ++ [.arrive 0, .arrive 0, .swapIn 2 fun _ => 0] ++ (List.range 6).map (.transfer 1) ++
  [.arrive 1] ++ (List.range 4).map (.transfer 0) ++
  [.arrive 0, .setUse 2 false, .read 2 5 9, .read 2 1 1]

/-- What the program reads is what it has written, wherever the chunk has been meanwhile. -/
theorem transparent {pageFileNumber : Nat} {enableDMA : Bool} {fileno : Nat → Nat}
    {es : List Event}
    (reached : run (step g) (start g pageFileNumber enableDMA fileno) es = some s) :
    ∃ p, run (Plain.step g) (fun _ => none) es = some p ∧
      (∀ id, (p id).map Text.size = (s.swap.memChunks.get? id).map Chunk.size) ∧
      ∀ id c text, s.swap.memChunks.get? id = some c → p id = some text →
        c.status.hasFlag .allocated = true →
          ∃ buf, s.locPtr id = some buf ∧ ∀ i, i < c.size → buf i = text.byte i := by
  obtain ⟨p, plain, parts, holds⟩ := run_holds reached
  refine ⟨p, plain, holds.sizes, fun id c text found isText resident => ?_⟩
  exact (holds.chunks id c text found isText).resident resident

set_option maxRecDepth 4000 in
theorem transparent_small : ∃ s, run (step small) (start small 2 true id) readBack = some s ∧
    ∃ p, run (Plain.step small) (fun _ => none) readBack = some p ∧
      (∀ id, (p id).map Text.size = (s.swap.memChunks.get? id).map Chunk.size) ∧
      ∀ id c text, s.swap.memChunks.get? id = some c → p id = some text →
        c.status.hasFlag .allocated = true →
          ∃ buf, s.locPtr id = some buf ∧ ∀ i, i < c.size → buf i = text.byte i := by
  have taken : (run (step small) (start small 2 true id) readBack).isSome := by decide
  obtain ⟨s, reached⟩ := Option.isSome_iff_exists.mp taken
  exact ⟨s, reached, transparent reached⟩

/-! ### Transfers -/

/-- The kernel can do what it is asked to, and `asyncIoArrived` meets none of its errors. -/
theorem transfers_succeed {pageFileNumber : Nat} {enableDMA : Bool} {fileno : Nat → Nat}
    {es : List Event} {n : Nat} {aio : Aio}
    (reached : run (step g) (start g pageFileNumber enableDMA fileno) es = some s)
    (is : s.pendingAios[n]? = some aio) :
    (∀ i, i < aio.length → ∃ t, step g s (.transfer n i) = some t) ∧
      (s.Finished aio → ∃ t, s.asyncIoArrived g n aio = some t) := by
  obtain ⟨p, _, parts, holds⟩ := run_holds reached
  constructor
  · intro i less
    obtain ⟨t, taken, _⟩ := holds.transfers is less
    exact ⟨t, taken⟩
  · intro finished
    obtain ⟨t, took, _⟩ := holds.asyncIoArrived is (holds.finished is finished)
    exact ⟨t, took⟩

theorem transfers_succeed_small :
    ∃ s aio, run (step small) (start small 2 true id) written = some s ∧
      s.pendingAios[1]? = some aio ∧
      (∀ i, i < aio.length → ∃ t, step small s (.transfer 1 i) = some t) ∧
      (s.Finished aio → ∃ t, s.asyncIoArrived small 1 aio = some t) := by
  obtain ⟨s, reached, two⟩ := written_reaches
  have is : s.pendingAios[1]? = some s.pendingAios[1] := List.getElem?_eq_getElem (by omega)
  exact ⟨s, _, reached, is, transfers_succeed reached is⟩

theorem pairwise_of_filter {requests : List Aio} {R : Nat × Stretch Nat → Nat × Stretch Nat → Prop}
    (each : ∀ id, ((requests.filter fun r => r.chunk = id).map Aio.window).Pairwise R) :
    requests.Pairwise fun a b => a.chunk = b.chunk → R a.window b.window := by
  induction requests with
  | nil => exact .nil
  | cons a rest ih =>
      refine List.pairwise_cons.mpr ⟨fun b mem same => ?_, ih fun id => ?_⟩
      · have here := each a.chunk
        rw [List.filter_cons_of_pos (by simp), List.map_cons] at here
        apply (List.pairwise_cons.mp here).1
        exact List.mem_map_of_mem (List.mem_filter.mpr ⟨mem, decide_eq_true same.symm⟩)
      · exact (each id).sublist (((List.sublist_cons_self a rest).filter _).map _)

/-- No two requests have a byte of the swap or of a buffer in common. -/
theorem Holds.apart (h : Holds g s p parts) :
    s.pendingAios.Pairwise fun a b => a.window.2.Apart b.window.2 ∧
      (a.chunk = b.chunk → a.ramBuf + a.length ≤ b.ramBuf) := by
  have order : s.pendingAios.Pairwise fun a b =>
      a.chunk = b.chunk → Stretch.Behind a.window b.window := by
    apply pairwise_of_filter
    intro id
    cases found : s.swap.memChunks.get? id with
    | none =>
        have empty : s.inFlight id = [] := by
          apply List.filter_eq_nil_iff.mpr
          intro r mem same
          obtain ⟨c, found'⟩ := h.registered r mem
          rw [of_decide_eq_true same, found] at found'
          cases found'
        have order : ((s.inFlight id).map Aio.window).Pairwise Stretch.Behind := by
          rw [empty]
          exact .nil
        exact order
    | some c =>
        obtain ⟨text, isText, _⟩ := h.exists_text found
        exact (h.chunks id c text found isText).order
  refine order.imp_of_mem fun {a b} memA memB behind => ?_
  by_cases same : a.chunk = b.chunk
  · exact ⟨(behind same).2, fun _ => (behind same).1⟩
  · refine ⟨?_, fun eq => absurd eq same⟩
    obtain ⟨n, isA⟩ := List.getElem?_of_mem memA
    obtain ⟨m, isB⟩ := List.getElem?_of_mem memB
    obtain ⟨c, _, foundA, _, _, partA, _, copiedA, _⟩ := h.pending isA
    obtain ⟨d, _, foundB, _, _, partB, _, copiedB, _⟩ := h.pending isB
    obtain ⟨bufA, isBufA⟩ := Option.isSome_iff_exists.mp copiedA
    obtain ⟨bufB, isBufB⟩ := Option.isSome_iff_exists.mp copiedB
    have stretch : ∀ {es : List (Stretch Nat)} {w}, w ∈ Stretch.windows 0 es → w.2 ∈ es := by
      intro es w mem
      rw [← Stretch.windows_snd 0 es]
      exact List.mem_map_of_mem mem
    exact h.books.stretches_apart same foundB isBufB foundA isBufA
      _ (stretch partA.window) _ (stretch partB.window)

/-- Whatever is in flight, the transfers touch no byte twice and none that is not theirs. -/
theorem transfers_apart {pageFileNumber : Nat} {enableDMA : Bool} {fileno : Nat → Nat}
    {es : List Event}
    (reached : run (step g) (start g pageFileNumber enableDMA fileno) es = some s) :
    (s.pendingAios.Pairwise fun a b =>
      (a.file = b.file → a.offset + a.length ≤ b.offset ∨ b.offset + b.length ≤ a.offset) ∧
        (a.chunk = b.chunk → a.ramBuf + a.length ≤ b.ramBuf)) ∧
      ∀ a ∈ s.pendingAios, ∃ c buf file, s.swap.memChunks.get? a.chunk = some c ∧
        s.locPtr a.chunk = some buf ∧ a.ramBuf + a.length ≤ c.size ∧
        s.swap.swapFiles[a.file]? = some (some file) ∧
        a.offset + a.length ≤ file.currentSize ∧
        (c.status = .swapin ∧ a.reverse = true ∨ c.status = .swapout ∧ a.reverse = false) := by
  obtain ⟨p, _, parts, holds⟩ := run_holds reached
  refine ⟨holds.apart, fun a mem => ?_⟩
  obtain ⟨n, is⟩ := List.getElem?_of_mem mem
  obtain ⟨c, text, found, _, before, part, transit, _, inside, _⟩ := holds.pending is
  obtain ⟨buf, isBuf, _⟩ := before.ram fun eq => by
    rcases transit with status | status <;> rw [eq] at status <;> cases status
  obtain ⟨file, opened, within⟩ := holds.in_file is
  refine ⟨c, buf, file, found, isBuf, inside, opened, within, ?_⟩
  rcases transit with swapin | swapout
  · exact .inl ⟨swapin, part.reverse.mpr swapin⟩
  · refine .inr ⟨swapout, ?_⟩
    rw [← Bool.not_eq_true, part.reverse, swapout]
    simp

theorem transfers_apart_small : ∃ s, run (step small) (start small 2 true id) written = some s ∧
    s.pendingAios.length = 2 ∧
    (s.pendingAios.Pairwise fun a b =>
      (a.file = b.file → a.offset + a.length ≤ b.offset ∨ b.offset + b.length ≤ a.offset) ∧
        (a.chunk = b.chunk → a.ramBuf + a.length ≤ b.ramBuf)) ∧
      ∀ a ∈ s.pendingAios, ∃ c buf file, s.swap.memChunks.get? a.chunk = some c ∧
        s.locPtr a.chunk = some buf ∧ a.ramBuf + a.length ≤ c.size ∧
        s.swap.swapFiles[a.file]? = some (some file) ∧
        a.offset + a.length ≤ file.currentSize ∧
        (c.status = .swapin ∧ a.reverse = true ∨ c.status = .swapout ∧ a.reverse = false) := by
  obtain ⟨s, reached, two⟩ := written_reaches
  exact ⟨s, reached, two, transfers_apart reached⟩

/-- The events that are not calls of the program. -/
def Event.ofKernel : Event → Prop
  | .transfer _ _ | .arrive _ => True
  | _ => False

theorem Holds.moves {n : Nat} {aio : Aio} (h : Holds g s p parts)
    (is : s.pendingAios[n]? = some aio) (k : Nat) (le : k ≤ aio.length) :
    ∃ t, run (step g) s ((List.range k).map (.transfer n)) = some t ∧ Holds g t p parts ∧
      t.pendingAios = s.pendingAios.set n { aio with moved := aio.moved ∪ Finset.range k } := by
  obtain ⟨inside, isAt⟩ := List.getElem?_eq_some_iff.mp is
  induction k with
  | zero =>
      refine ⟨s, rfl, h, ?_⟩
      rw [Finset.range_zero, Finset.union_empty, ← isAt, List.set_getElem_self]
  | succ k ih =>
      obtain ⟨t, moved, holds, pending⟩ := ih (Nat.le_of_succ_le le)
      have here : t.pendingAios[n]? =
          some { aio with moved := aio.moved ∪ Finset.range k } := by
        rw [pending, List.getElem?_set_self inside]
      obtain ⟨u, taken, holds', pending'⟩ := holds.transfers here (Nat.lt_of_succ_le le)
      refine ⟨u, ?_, holds', ?_⟩
      · rw [List.range_succ, List.map_append, run_append, moved, Option.bind_some]
        exact run_cons_eq_some.mpr ⟨u, taken, rfl⟩
      · rw [pending', pending, List.set_set, Finset.range_add_one, Finset.union_insert]

/-- One request after the other comes to its end. -/
theorem Holds.drain (h : Holds g s p parts) :
    ∃ fs t, (∀ e ∈ fs, Event.ofKernel e) ∧ run (step g) s fs = some t ∧ Holds g t p parts ∧
      t.pendingAios = [] := by
  induction isRequests : s.pendingAios generalizing s with
  | nil => exact ⟨[], s, fun e mem => absurd mem List.not_mem_nil, rfl, h, isRequests⟩
  | cons aio rest ih =>
      have is : s.pendingAios[0]? = some aio := by rw [isRequests]; rfl
      obtain ⟨t, moved, holds, pending⟩ := h.moves is aio.length le_rfl
      rw [isRequests, List.set_cons_zero] at pending
      have isT : t.pendingAios[0]? = some { aio with
          moved := aio.moved ∪ Finset.range aio.length } := by rw [pending]; rfl
      obtain ⟨u, arrived, holds', pending'⟩ := holds.arrives isT fun i less =>
        .inl (Finset.mem_union_right _ (Finset.mem_range.mpr less))
      rw [pending, List.eraseIdx_cons_zero] at pending'
      obtain ⟨fs, v, kernel, drained, ends⟩ := ih holds' pending'
      refine ⟨(List.range aio.length).map (.transfer 0) ++ .arrive 0 :: fs, v, ?_, ?_, ends⟩
      · intro e mem
        rcases List.mem_append.mp mem with mem | mem
        · obtain ⟨i, _, rfl⟩ := List.mem_map.mp mem
          trivial
        · rcases List.mem_cons.mp mem with rfl | mem
          · trivial
          · exact kernel e mem
      · rw [run_append, moved, Option.bind_some]
        exact run_cons_eq_some.mpr ⟨u, arrived, drained⟩

/-- The kernel can always bring what is in flight to its end; then no chunk is in transit. -/
theorem transfers_end {pageFileNumber : Nat} {enableDMA : Bool} {fileno : Nat → Nat}
    {es : List Event}
    (reached : run (step g) (start g pageFileNumber enableDMA fileno) es = some s) :
    ∃ fs t, (∀ e ∈ fs, Event.ofKernel e) ∧ run (step g) s fs = some t ∧ t.pendingAios = [] ∧
      ∀ id c, t.swap.memChunks.get? id = some c → ¬ InTransit c.status := by
  obtain ⟨p, _, parts, holds⟩ := run_holds reached
  obtain ⟨fs, t, kernel, drained, holds', nothing⟩ := holds.drain
  refine ⟨fs, t, kernel, drained, nothing, fun id c found transit => ?_⟩
  obtain ⟨text, isText, _⟩ := holds'.exists_text found
  have pending := ((holds'.chunks id c text found isText).tracker transit).2
  apply pending
  rw [State.inFlight, nothing]
  rfl

theorem transfers_end_small : ∃ s, run (step small) (start small 2 true id) written = some s ∧
    ∃ fs t, (∀ e ∈ fs, Event.ofKernel e) ∧ run (step small) s fs = some t ∧ t.pendingAios = [] ∧
      ∀ id c, t.swap.memChunks.get? id = some c → ¬ InTransit c.status := by
  obtain ⟨s, reached, _⟩ := written_reaches
  exact ⟨s, reached, transfers_end reached⟩

end Rambrain.SwapBytes
