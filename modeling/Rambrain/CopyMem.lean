import Rambrain.SwapBytes

/-!
`copyMem` schedules one request for each part of a chain.

`requests` are these requests; their windows are those of the chain (`requests_windows`), so they
cover the buffer. `copyMem_spec` is an induction along the chain: the requests are pending, every
part lies before the end of its swap file, and nothing else has changed.
-/

namespace Rambrain.SwapBytes

open Lib FileSwap

variable {g : Setup} {s t : State} {id : Nat} {chain : List Nat} {size : Nat} {reverse : Bool}

theorem aligned_of_dvd (divides : g.memoryAlignment ∣ size) : aligned g size = size := by
  rw [aligned, if_pos (Nat.mod_eq_zero_of_dvd divides), Nat.add_zero]

/-! ### The swap files -/

/-- The stretch lies before the end of its file. -/
def Fits (files : List (Option SwapFileDesc)) (e : Stretch Nat) : Prop :=
  ∃ file : SwapFileDesc, files[e.medium]? = some (some file) ∧ e.offset + e.size ≤ file.currentSize

/-- The open files are open, and no file has become smaller. -/
def Larger (files files' : List (Option SwapFileDesc)) : Prop :=
  ∀ (n : Nat) (file : SwapFileDesc), files[n]? = some (some file) →
    ∃ file' : SwapFileDesc, files'[n]? = some (some file') ∧ file.currentSize ≤ file'.currentSize

theorem Larger.refl (files : List (Option SwapFileDesc)) : Larger files files :=
  fun _ file is => ⟨file, is, le_rfl⟩

theorem Larger.trans {files files' files'' : List (Option SwapFileDesc)}
    (first : Larger files files') (second : Larger files' files'') : Larger files files'' := by
  intro n file is
  obtain ⟨file', is', le⟩ := first n file is
  obtain ⟨file'', is'', le'⟩ := second n file' is'
  exact ⟨file'', is'', le.trans le'⟩

theorem Fits.larger {files files' : List (Option SwapFileDesc)} {e : Stretch Nat}
    (fits : Fits files e) (larger : Larger files files') : Fits files' e := by
  obtain ⟨file, is, le⟩ := fits
  obtain ⟨file', is', le'⟩ := larger _ file is
  exact ⟨file', is', le.trans le'⟩

theorem resizeFile_spec (g : Setup) (ref : PageFileLocation) (file : SwapFileDesc) :
    ref.offset + ref.size ≤ (State.resizeFile g ref file).currentSize ∧
      file.currentSize ≤ (State.resizeFile g ref file).currentSize := by
  by_cases behind : file.currentSize < ref.size + ref.offset
  · have enough : ref.size + ref.offset ≤
        if (ref.size + ref.offset) % g.resizeStep = 0 then ref.size + ref.offset
        else g.resizeStep * ((ref.size + ref.offset) / g.resizeStep + 1) := by
      split
      · exact le_rfl
      · have less := Nat.mod_lt (ref.size + ref.offset) g.resize_pos
        have division := Nat.div_add_mod (ref.size + ref.offset) g.resizeStep
        rw [Nat.mul_add, Nat.mul_one]
        omega
    simp only [State.resizeFile, if_pos behind]
    omega
  · simp only [State.resizeFile, if_neg behind]
    omega

/-! ### The requests of a chain -/

/-- What the loop of `copyMem` schedules along a chain, `ramBuf` being where it stands in the
buffer. -/
def requests (g : Setup) (swap : FileSwap.State) (id : Nat) (reverse : Bool) :
    List Nat → Nat → List Aio
  | [], _ => []
  | k :: chain, ramBuf =>
      match swap.allSpace.get? k with
      | some ref =>
          ⟨k, id, ramBuf, ref.file, ref.offset, aligned g ref.size, reverse, ∅⟩ ::
            requests g swap id reverse chain (ramBuf + ref.size)
      | none => requests g swap id reverse chain ramBuf

/-- What a request moves: where in the buffer, and the bytes of the swap file. -/
def Aio.window (aio : Aio) : Nat × Stretch Nat :=
  (aio.ramBuf, ⟨aio.file, aio.offset, aio.length⟩)

theorem requests_congr {swap swap' : FileSwap.State} (same : swap'.allSpace = swap.allSpace)
    (chain : List Nat) (ramBuf : Nat) :
    requests g swap' id reverse chain ramBuf = requests g swap id reverse chain ramBuf := by
  induction chain generalizing ramBuf with
  | nil => rfl
  | cons k chain ih =>
      rw [requests, requests, same]
      split
      · rw [ih]
      · exact ih ramBuf

/-- What is known of every request. -/
theorem mem_requests {swap : FileSwap.State} {ramBuf : Nat} {r : Aio}
    (mem : r ∈ requests g swap id reverse chain ramBuf) :
    r.chunk = id ∧ r.reverse = reverse ∧ r.moved = ∅ ∧ r.ref ∈ chain ∧
      ∃ ref, swap.allSpace.get? r.ref = some ref ∧ aligned g ref.size = r.length := by
  induction chain generalizing ramBuf with
  | nil => cases mem
  | cons k chain ih =>
      have later : ∀ {ramBuf}, r ∈ requests g swap id reverse chain ramBuf →
          r.chunk = id ∧ r.reverse = reverse ∧ r.moved = ∅ ∧ r.ref ∈ k :: chain ∧
            ∃ ref, swap.allSpace.get? r.ref = some ref ∧ aligned g ref.size = r.length := by
        intro ramBuf mem
        obtain ⟨chunk, dir, moved, inChain, isFound⟩ := ih mem
        exact ⟨chunk, dir, moved, List.mem_cons_of_mem k inChain, isFound⟩
      rw [requests] at mem
      split at mem
      · rename_i ref found
        rcases List.mem_cons.mp mem with rfl | mem
        · exact ⟨rfl, rfl, rfl, List.mem_cons_self, ref, found, rfl⟩
        · exact later mem
      · exact later mem

/-- All the parts of a new chain are aligned. -/
theorem built_aligned {swap : FileSwap.State} (divides : g.memoryAlignment ∣ size)
    (built : Built g.toGeometry swap.allSpace id chain size) :
    ∀ k ∈ chain, ∃ ref, swap.allSpace.get? k = some ref ∧ g.memoryAlignment ∣ ref.size := by
  induction chain generalizing size with
  | nil => exact built.elim
  | cons k chain ih =>
      cases chain with
      | nil =>
          obtain ⟨ref, found, _, _, rfl⟩ := built
          intro j mem
          cases List.mem_singleton.mp mem
          exact ⟨ref, found, divides⟩
      | cons k' chain =>
          obtain ⟨ref, found, _, _, here, _, rest⟩ := built
          intro j mem
          rcases List.mem_cons.mp mem with rfl | mem
          · exact ⟨ref, found, here⟩
          · exact ih ((Nat.dvd_sub divides here)) rest j mem

/-- The windows of the requests are those of the chain. -/
theorem requests_windows {swap : FileSwap.State} (id : Nat) (reverse : Bool) (ramBuf : Nat)
    (parts : ∀ k ∈ chain, ∃ ref, swap.allSpace.get? k = some ref ∧
      g.memoryAlignment ∣ ref.size) :
    (requests g swap id reverse chain ramBuf).map Aio.window =
      Stretch.windows ramBuf (swap.stretches chain) := by
  induction chain generalizing ramBuf with
  | nil => rfl
  | cons k chain ih =>
      obtain ⟨ref, found, divides⟩ := parts k List.mem_cons_self
      have rest := ih (ramBuf + ref.size) fun j mem => parts j (List.mem_cons_of_mem k mem)
      have placed : swap.stretches (k :: chain) = ref.stretch :: swap.stretches chain := by
        rw [FileSwap.State.stretches, FileSwap.State.locations, List.filterMap_cons_some found]
        rfl
      rw [placed, Stretch.windows]
      simp only [requests, found, List.map_cons]
      rw [rest, Aio.window, aligned_of_dvd divides]
      rfl

theorem requests_length {swap : FileSwap.State} {ramBuf : Nat}
    (parts : ∀ k ∈ chain, ∃ ref, swap.allSpace.get? k = some ref) :
    (requests g swap id reverse chain ramBuf).length = chain.length := by
  induction chain generalizing ramBuf with
  | nil => rfl
  | cons k chain ih =>
      obtain ⟨ref, found⟩ := parts k List.mem_cons_self
      simp only [requests, found, List.length_cons]
      rw [ih fun j mem => parts j (List.mem_cons_of_mem k mem)]

/-! ### The loop -/

/-- What `copyMem` may change beside the requests and the tracker. -/
structure Scheduled (s t : State) : Prop where
  swap : t.swap = { s.swap with swapFiles := t.swap.swapFiles }
  files : Larger s.swap.swapFiles t.swap.swapFiles
  length : t.swap.swapFiles.length = s.swap.swapFiles.length
  rest : t = { s with swap := t.swap, tracker := t.tracker, pendingAios := t.pendingAios }

theorem Scheduled.refl (s : State) : Scheduled s s := ⟨rfl, Larger.refl _, rfl, rfl⟩

theorem Scheduled.trans {u : State} (first : Scheduled s t) (second : Scheduled t u) :
    Scheduled s u where
  swap := by rw [second.swap, first.swap]
  files := first.files.trans second.files
  length := second.length.trans first.length
  rest := by rw [second.rest, first.rest]

theorem scheduleCopy_spec (g : Setup) (id cur ramBuf : Nat) (reverse : Bool)
    {ref : PageFileLocation} {file : SwapFileDesc}
    (opened : s.swap.swapFiles[ref.file]? = some (some file)) :
    ∃ t, s.scheduleCopy g cur ref id ramBuf reverse = some t ∧ Scheduled s t ∧
      t.tracker = Function.update s.tracker id (s.tracker id + 1) ∧
      t.pendingAios = s.pendingAios ++
        [⟨cur, id, ramBuf, ref.file, ref.offset, aligned g ref.size, reverse, ∅⟩] ∧
      Fits t.swap.swapFiles ref.stretch := by
  obtain ⟨enough, larger⟩ := resizeFile_spec g ref file
  have less := (List.getElem?_eq_some_iff.mp opened).1
  have self : (s.swap.swapFiles.set ref.file (some (State.resizeFile g ref file)))[ref.file]? =
      some (some (State.resizeFile g ref file)) := List.getElem?_set_self less
  simp only [State.scheduleCopy, opened]
  refine ⟨_, rfl, ⟨rfl, fun n old is => ?_, List.length_set, rfl⟩, rfl, rfl, ?_⟩
  · by_cases here : ref.file = n
    · cases here
      cases opened.symm.trans is
      exact ⟨_, self, larger⟩
    · refine ⟨old, ?_, le_rfl⟩
      rw [← is]
      exact List.getElem?_set_ne here
  · exact ⟨_, self, enough⟩

theorem copyParts_spec (reverse : Bool) :
    ∀ (chain : List Nat) (fuel : Nat) (s : State) (ramBuf : Nat)
    {size : Nat}, chain.length ≤ fuel → Built g.toGeometry s.swap.allSpace id chain size →
    (∀ k ∈ chain, ∀ ref, s.swap.allSpace.get? k = some ref →
      ∃ file, s.swap.swapFiles[ref.file]? = some (some file)) →
    ∃ t last, State.copyParts g id reverse fuel s (chain.headD 0) ramBuf = some (t, last) ∧
      last ∈ chain ∧ Scheduled s t ∧
      t.tracker = Function.update s.tracker id (s.tracker id + chain.length) ∧
      t.pendingAios = s.pendingAios ++ requests g s.swap id reverse chain ramBuf ∧
      ∀ e ∈ s.swap.stretches chain, Fits t.swap.swapFiles e := by
  intro chain
  induction chain with
  | nil =>
      intro _ _ _ _ _ built
      exact built.elim
  | cons k chain ih =>
      intro fuel s ramBuf size enough built opened
      obtain ⟨fuel, rfl⟩ : ∃ n, fuel = n + 1 := ⟨fuel - 1, by simp at enough; omega⟩
      -- the part at `k`, and the end of the chain or the rest of it
      obtain ⟨ref, found, isLast⟩ : ∃ ref, s.swap.allSpace.get? k = some ref ∧
          ((ref.status = .pageEnd ∧ chain = []) ∨ (ref.status ≠ .pageEnd ∧
            ref.globOffNext = .globOffNext (chain.headD 0) ∧
            Built g.toGeometry s.swap.allSpace id chain (size - ref.size))) := by
        cases chain with
        | nil =>
            obtain ⟨ref, found, isEnd, _⟩ := built
            exact ⟨ref, found, .inl ⟨isEnd, rfl⟩⟩
        | cons k' chain =>
            obtain ⟨ref, found, part, next, _, _, rest⟩ := built
            exact ⟨ref, found, .inr ⟨by rw [part]; simp, next, rest⟩⟩
      have placed : s.swap.stretches (k :: chain) = ref.stretch :: s.swap.stretches chain := by
        rw [FileSwap.State.stretches, FileSwap.State.locations, List.filterMap_cons_some found]
        rfl
      obtain ⟨file, isOpen⟩ := opened k List.mem_cons_self ref found
      obtain ⟨mid, first, scheduled, tracker, pending, fits⟩ :=
        scheduleCopy_spec g id k ramBuf reverse isOpen
      have space : mid.swap.allSpace = s.swap.allSpace := by rw [scheduled.swap]
      rcases isLast with ⟨isEnd, rfl⟩ | ⟨part, next, rest⟩
      · refine ⟨mid, k, ?_, List.mem_cons_self, scheduled, tracker, ?_, ?_⟩
        · simp only [State.copyParts, List.headD_cons, found, Option.bind_some, first, isEnd,
            if_true]
        · simp only [pending, requests, found]
        · intro e mem
          rw [placed] at mem
          rcases List.mem_cons.mp mem with rfl | mem
          · exact fits
          · cases mem
      · obtain ⟨t, last, is, memLast, more, tracker', pending', fits'⟩ :=
          ih fuel mid (ramBuf + ref.size) (Nat.le_of_succ_le_succ enough)
            (space.symm ▸ rest :
              Built g.toGeometry mid.swap.allSpace id chain (size - ref.size)) (by
              intro j mem b foundJ
              rw [space] at foundJ
              obtain ⟨old, isOld⟩ := opened j (List.mem_cons_of_mem k mem) b foundJ
              obtain ⟨new, isNew, _⟩ := scheduled.files _ old isOld
              exact ⟨new, isNew⟩)
        refine ⟨t, last, ?_, List.mem_cons_of_mem k memLast, scheduled.trans more, ?_, ?_, ?_⟩
        · simp only [State.copyParts, List.headD_cons, found, Option.bind_some, first, if_neg part,
            next]
          exact is
        · rw [tracker', tracker, Function.update_self, Function.update_idem, List.length_cons]
          congr 1
          omega
        · rw [pending', pending, requests_congr space]
          simp only [requests, found, List.append_assoc, List.singleton_append]
        · intro e mem
          rw [placed] at mem
          rcases List.mem_cons.mp mem with rfl | mem
          · exact fits.larger more.files
          · apply fits'
            rw [FileSwap.State.stretches, FileSwap.State.locations, space]
            exact mem

/-- The walk of `completeTransactionOn` finds the chunk from every part of its chain. -/
theorem endOf_spec {allSpace : SortedMap Nat PageFileLocation} :
    ∀ (chain : List Nat) (fuel : Nat) {size : Nat}, chain.length ≤ fuel →
      Built g.toGeometry allSpace id chain size →
      ∀ k ∈ chain, State.endOf allSpace fuel k = some id := by
  intro chain
  induction chain with
  | nil =>
      intro _ _ _ _ k mem
      cases mem
  | cons j chain ih =>
      intro fuel size enough built k mem
      obtain ⟨fuel, rfl⟩ : ∃ n, fuel = n + 1 := ⟨fuel - 1, by simp at enough; omega⟩
      have shorter : chain.length ≤ fuel := Nat.le_of_succ_le_succ enough
      have longer : ∀ {fuel k c}, State.endOf allSpace fuel k = some c →
          State.endOf allSpace (fuel + 1) k = some c := by
        intro fuel
        induction fuel with
        | zero =>
            intro k c is
            cases is
        | succ fuel ih =>
            intro k c is
            rw [State.endOf] at is ⊢
            obtain ⟨loc, found, is⟩ := Option.bind_eq_some_iff.mp is
            rw [found, Option.bind_some]
            split at is
            · exact is
            · exact is
            · exact ih is
            · cases is
      cases chain with
      | nil =>
          obtain ⟨ref, found, isEnd, next, _⟩ := built
          cases List.mem_singleton.mp mem
          simp only [State.endOf, found, Option.bind_some, isEnd, next]
      | cons j' chain =>
          obtain ⟨ref, found, part, next, _, _, rest⟩ := built
          rcases List.mem_cons.mp mem with rfl | mem
          · simp only [State.endOf, found, Option.bind_some, part, next]
            exact ih fuel shorter rest j' List.mem_cons_self
          · exact longer (ih fuel shorter rest k mem)

/-- `copyMem` leaves a request for each part pending, and one count of the tracker for each. -/
theorem copyMem_spec (reverse : Bool)
    (enough : chain.length ≤ s.swap.allSpace.entries.length)
    (built : Built g.toGeometry s.swap.allSpace id chain size)
    (opened : ∀ k ∈ chain, ∀ ref, s.swap.allSpace.get? k = some ref →
      ∃ file, s.swap.swapFiles[ref.file]? = some (some file)) :
    ∃ t, s.copyMem g (chain.headD 0) id reverse = some t ∧ Scheduled s t ∧
      t.tracker = Function.update s.tracker id chain.length ∧
      t.pendingAios = s.pendingAios ++ requests g s.swap id reverse chain 0 ∧
      ∀ e ∈ s.swap.stretches chain, Fits t.swap.swapFiles e := by
  obtain ⟨t, last, is, mem, scheduled, tracker, pending, fits⟩ :=
    copyParts_spec reverse chain s.swap.allSpace.entries.length
      { s with tracker := Function.update s.tracker id 1 } 0 enough built opened
  simp only [Function.update_self, Function.update_idem] at tracker
  have value : t.tracker id = chain.length + 1 := by
    rw [tracker, Function.update_self, Nat.add_comm]
  have pos : 0 < chain.length := List.length_pos_of_mem mem
  refine ⟨{ t with tracker := Function.update t.tracker id chain.length }, ?_, ?_, ?_, pending,
    fits⟩
  · have notLast : ¬ chain.length + 1 = 1 := by omega
    rw [State.copyMem, is, Option.bind_some, State.lower]
    simp only [value, if_neg notLast, Nat.add_sub_cancel]
  · exact ⟨scheduled.swap, scheduled.files, scheduled.length, by
      have rest := scheduled.rest
      rw [rest]⟩
  · simp only
    rw [tracker, Function.update_idem]

/-! ### Arrivals -/

/-- The state without request `n`, with its count of the tracker. -/
def State.without (s : State) (n : Nat) (aio : Aio) : State :=
  { s with
    pendingAios := s.pendingAios.eraseIdx n
    tracker := Function.update s.tracker aio.chunk (s.tracker aio.chunk - 1) }

/-- The requests before and behind request `n`. -/
theorem pending_split {n : Nat} {aio : Aio} (is : s.pendingAios[n]? = some aio) :
    ∃ pre post, s.pendingAios = pre ++ aio :: post ∧
      (s.without n aio).pendingAios = pre ++ post := by
  obtain ⟨less, isAt⟩ := List.getElem?_eq_some_iff.mp is
  refine ⟨s.pendingAios.take n, s.pendingAios.drop (n + 1), ?_,
    List.eraseIdx_eq_take_drop_succ ..⟩
  rw [← isAt, List.getElem_cons_drop, List.take_append_drop]

end Rambrain.SwapBytes
