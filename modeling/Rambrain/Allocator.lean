import Rambrain.SwapSpace

/-!
Runs of the page-file allocator.

A run is calls of `pfmalloc`, of `pffree` on the head of a live chain and of a successful
`extendSwap`, with the chunks of the manager changing between them. `AllocState` keeps the live
allocations beside the swap; they are history, read off the returned location and off the cached
copies that `pfmalloc` has dropped. `AllocState.step_represents` keeps `Represents`, and `Partition`
says what it means for the two maps.
-/

namespace Rambrain.FileSwap

open Lib

variable {g : Geometry} {s t : State} {live : List Allocation}

structure AllocState where
  swap : State
  /-- History: what has been handed out and not been given back. -/
  live : List Allocation

inductive AllocOp where
  | pfmalloc (size chunk : Nat)
  | pffree (pagePtr : Nat)
  | extendSwap (freeDiskSpace : Nat) (opens : Nat → State.OpenResult) (size : Nat)
  /-- What the manager does with its chunks. -/
  | manager (memChunks : SortedMap Nat Chunk)

namespace AllocOp

/-- The parts from `k` on. -/
def chainFrom (m : SortedMap Nat PageFileLocation) : Nat → Nat → List Nat
  | 0, _ => []
  | left + 1, k =>
      match m.get? k with
      | some loc =>
          if loc.status = .pageEnd then [k]
          else
            match loc.globOffNext with
            | .globOffNext next => k :: chainFrom m left next
            | _ => [k]
      | none => []

/-- The chunk of the allocation was cached in it, and has lost its swap copy. -/
def dropped (s t : State) (a : Allocation) : Bool :=
  (s.memChunks.get? a.chunk).bind State.cachedBuf = some a.head ∧
    (t.memChunks.get? a.chunk).bind Chunk.swapBuf = none

/-- What `pfmalloc` is promised: a chunk that may drop its swap copy owns the allocation. -/
def owners (s : State) (live : List Allocation) : Bool :=
  s.memChunks.entries.all fun e =>
    match State.cachedBuf e.2 with
    | some buf => live.any fun a => a.chunk = e.1 ∧ a.head = buf ∧ s.chainSize a.parts = e.2.size
    | none => true

/-- One call; `none` where it is not made or does not succeed as it should. -/
def step (g : Geometry) (s : AllocState) : AllocOp → Option AllocState
  | pfmalloc size chunk =>
      if 0 < size ∧ owners s.swap s.live then
        match s.swap.pfmalloc g size chunk with
        | .found t res =>
            let parts := chainFrom t.allSpace t.allSpace.entries.length res
            some ⟨t, ⟨parts, chunk⟩ :: s.live.filter fun a => !dropped s.swap t a⟩
        | .null t => some ⟨t, s.live⟩
        | .outOfSwapSpace t => some ⟨t, s.live.filter fun a => !dropped s.swap t a⟩
        | .fault => none
      else none
  | pffree pagePtr =>
      (s.live.find? fun a => a.head = pagePtr).bind fun a =>
        (s.swap.pffree g pagePtr).map fun t => ⟨t, s.live.erase a⟩
  | extendSwap freeDiskSpace opens size =>
      match s.swap.extendSwap g freeDiskSpace opens size with
      | .returned t true => some ⟨t, s.live⟩
      | .returned _ false => none
      | .couldNotOpen _ => none
  | manager memChunks => some ⟨{ s.swap with memChunks }, s.live⟩

end AllocOp

/-! ### What a call keeps -/

theorem chainFrom_eq {m : SortedMap Nat PageFileLocation} {chunk : Nat} :
    ∀ (parts : List Nat) {left : Nat}, Chained m chunk parts → parts.length ≤ left →
      AllocOp.chainFrom m left (parts.headD 0) = parts := by
  intro parts
  induction parts with
  | nil =>
      intro left chained
      cases chained
  | cons k ks ih =>
      intro left chained long
      cases left with
      | zero => exact absurd long (by simp)
      | succ left =>
          cases ks with
          | nil =>
              obtain ⟨loc, found, isEnd, _⟩ := chained
              simp only [List.headD_cons, AllocOp.chainFrom, found, isEnd, if_true]
          | cons k' ks =>
              obtain ⟨⟨loc, found, isPart, next⟩, rest⟩ := chained
              have tail : AllocOp.chainFrom m left k' = k' :: ks :=
                ih rest (Nat.le_of_succ_le_succ long)
              have notEnd : loc.status ≠ .pageEnd := by
                rw [isPart]
                decide
              simp only [List.headD_cons, AllocOp.chainFrom, found, if_neg notEnd, next, tail]

theorem owners_of_eq (is : AllocOp.owners s live = true) : Owners s live := by
  intro e mem buf isBuf
  have here := List.all_eq_true.mp is e mem
  simp only [isBuf] at here
  obtain ⟨a, memA, facts⟩ := List.any_eq_true.mp here
  exact ⟨a, memA, of_decide_eq_true facts⟩

/-- The parts of an allocation are entries. -/
theorem Represents.parts_length (h : Represents g s live) {a : Allocation} (mem : a ∈ live) :
    a.parts.length ≤ s.allSpace.entries.length := by
  have nodup : a.parts.Nodup := by
    obtain ⟨pre, post, rfl⟩ := List.append_of_mem mem
    have nodup := h.parts_nodup
    rw [List.flatMap_append, List.flatMap_cons] at nodup
    exact (List.nodup_append.mp (List.nodup_append.mp nodup).2.1).1
  have sub : a.parts ⊆ s.allSpace.keys := fun k memK => by
    obtain ⟨b, found, _⟩ := (h.chained a mem).held memK
    exact SortedMap.mem_keys_iff.mpr ⟨b, found⟩
  have le := (nodup.subperm sub).length_le
  rwa [SortedMap.keys, List.length_map] at le

theorem Chained.head_mem {m : SortedMap Nat PageFileLocation} {a : Allocation}
    (chained : Chained m a.chunk a.parts) : a.head ∈ a.parts := by
  unfold Allocation.head
  cases is : a.parts with
  | nil =>
      rw [is] at chained
      cases chained
  | cons k ks => exact List.mem_cons_self

theorem swapBuf_of_cachedBuf {c : Chunk} {buf : Nat} (is : State.cachedBuf c = some buf) :
    c.swapBuf = some buf := by
  unfold State.cachedBuf at is
  split at is
  · exact is
  · cases is

/-- The history drops exactly the allocations that the clean-up has freed. -/
theorem Released.filter_dropped {gone kept : List Allocation} (h : Represents g s live)
    (released : Released g s t live gone kept) :
    (live.filter fun a => !AllocOp.dropped s t a).Perm kept := by
  have out : ∀ a ∈ gone, AllocOp.dropped s t a = true := by
    intro a mem
    obtain ⟨c, found, cached⟩ := released.cached a mem
    have now := released.memChunks a.chunk
    rw [if_pos (List.mem_map_of_mem mem), found] at now
    refine decide_eq_true ⟨by rw [found]; exact cached, ?_⟩
    rw [now]
    rfl
  have stay : ∀ a ∈ kept, AllocOp.dropped s t a = false := by
    intro a mem
    by_contra not
    obtain ⟨was, lost⟩ := of_decide_eq_true (eq_true_of_ne_false not)
    obtain ⟨c, found, cached⟩ := Option.bind_eq_some_iff.mp was
    have now := released.memChunks a.chunk
    by_cases among : a.chunk ∈ gone.map Allocation.chunk
    · -- the dropped allocation of the chunk has the same head
      obtain ⟨d, memD, same⟩ := List.mem_map.mp among
      obtain ⟨c', found', cached'⟩ := released.cached d memD
      rw [same, found] at found'
      cases found'
      rw [cached] at cached'
      have heads : a.head = d.head := Option.some.inj cached'
      have nodup := (h.perm released.split).parts_nodup
      rw [List.flatMap_append, List.nodup_append] at nodup
      have chained := (h.perm released.split).chained
      refine nodup.2.2 d.head (List.mem_flatMap.mpr ⟨d, memD, ?_⟩) a.head
        (List.mem_flatMap.mpr ⟨a, mem, ?_⟩) heads.symm
      · exact (chained d (List.mem_append_left kept memD)).head_mem
      · exact (chained a (List.mem_append_right gone mem)).head_mem
    · rw [if_neg among, found] at now
      rw [now, Option.bind_some, swapBuf_of_cachedBuf cached] at lost
      cases lost
  refine (released.split.filter _).trans ?_
  rw [List.filter_append, List.filter_eq_nil_iff.mpr fun a mem => by simp [out a mem],
    List.filter_eq_self.mpr fun a mem => by simp [stay a mem]]
  exact .refl kept

theorem OnlySpace.files (only : OnlySpace s t) : t.pageFileNumber = s.pageFileNumber := by
  rw [OnlySpace.eq_1] at only
  rw [only]

theorem Represents.withChunks (h : Represents g s live) (memChunks : SortedMap Nat Chunk) :
    Represents g { s with memChunks } live :=
  ⟨⟨h.laid.tiles, h.laid.merged, h.laid.free⟩, h.files, h.chained, h.owned, h.balanced⟩

theorem step_represents {a b : AllocState} {op : AllocOp} (h : Represents g a.swap a.live)
    (taken : AllocOp.step g a op = some b) : Represents g b.swap b.live := by
  cases op with
  | pfmalloc size chunk =>
      simp only [AllocOp.step] at taken
      split at taken
      · rename_i promised
        have result := pfmalloc_result g a.swap a.live h (owners_of_eq promised.2) size promised.1
          chunk
        split at taken
        · rename_i t res is
          cases taken
          rw [is] at result
          obtain ⟨u, parts, gone, kept, released, chunks, head, represents, _⟩ := result
          have isRes : res = parts.headD 0 := by
            rw [List.headD_eq_head?_getD, head]
            rfl
          have chain : AllocOp.chainFrom t.allSpace t.allSpace.entries.length res = parts := by
            rw [isRes]
            exact chainFrom_eq parts (represents.chained _ List.mem_cons_self)
              (represents.parts_length (a := ⟨parts, chunk⟩) List.mem_cons_self)
          have same : (a.live.filter fun x => !AllocOp.dropped a.swap t x) =
              a.live.filter fun x => !AllocOp.dropped a.swap u x := by
            simp only [AllocOp.dropped, chunks]
          simp only [chain, same]
          exact represents.perm ((released.filter_dropped h).symm.cons _)
        · rename_i t is
          cases taken
          rw [is] at result
          rw [show t = a.swap from result]
          exact h
        · rename_i t is
          cases taken
          rw [is] at result
          obtain ⟨gone, kept, released⟩ := result
          exact released.represents.perm (released.filter_dropped h).symm
        · cases taken
      · cases taken
  | pffree pagePtr =>
      obtain ⟨x, found, is⟩ := Option.bind_eq_some_iff.mp taken
      obtain ⟨t, freed, rfl⟩ := Option.map_eq_some_iff.mp is
      have head : x.head = pagePtr := by simpa using List.find?_some found
      have mem := List.mem_of_find?_eq_some found
      obtain ⟨t', freed', represents, _⟩ := pffree_spec (h.perm (List.perm_cons_erase mem))
      rw [head, freed] at freed'
      cases freed'
      exact represents
  | extendSwap freeDiskSpace opens size =>
      simp only [AllocOp.step] at taken
      split at taken
      · rename_i t is
        cases taken
        obtain ⟨room, opened⟩ := extendSwap_returned_true is
        obtain ⟨t', is', grown, used, _⟩ := extendSwap_grown (h.laid.below h.files) room opened
        rw [is] at is'
        cases is'
        exact (h.grown grown used).1
      · cases taken
      · cases taken
  | manager memChunks =>
      cases taken
      exact h.withChunks memChunks

/-! ### The invariant in its own words -/

/-- The two maps and the live allocations. -/
structure Partition (g : Geometry) (s : State) (live : List Allocation) : Prop where
  keyed : ∀ k loc, s.allSpace.get? k = some loc → determineGlobalOffset g loc = k
  files : ∀ n < s.pageFileNumber, ∃ loc, s.allSpace.get? (n * g.pageFileSize) = some loc ∧
    loc.file = n ∧ loc.offset = 0
  /-- The interval up to the next entry, or to `swapSize`, lies in one file. -/
  intervals : ∀ pre k loc post, s.allSpace.entries = pre ++ (k, loc) :: post →
    k < start post s.swapSize ∧ (start post s.swapSize - 1) / g.pageFileSize = k / g.pageFileSize ∧
      0 < loc.size ∧ k + loc.size ≤ start post s.swapSize
  freeSpace : s.freeSpace.keys =
    (s.allSpace.entries.filter fun e => e.2.status = .pageFree).map Prod.fst
  fills : ∀ pre k loc post, s.allSpace.entries = pre ++ (k, loc) :: post →
    loc.status = .pageFree → k + loc.size = start post s.swapSize ∧ g.memoryAlignment ∣ loc.size
  merged : ∀ pre e f post, s.allSpace.entries = pre ++ e :: f :: post → e.2.file = f.2.file →
    ¬ (e.2.status = .pageFree ∧ f.2.status = .pageFree)
  chained : ∀ a ∈ live, Chained s.allSpace a.chunk a.parts
  owned : ∀ k loc, s.allSpace.get? k = some loc → loc.status ≠ .pageFree →
    ∃ a, live.filter (fun a => k ∈ a.parts) = [a]

theorem Laid.extent (h : Laid g s) {pre post : List (Nat × PageFileLocation)} {k : Nat}
    {loc : PageFileLocation} (placed : s.allSpace.entries = pre ++ (k, loc) :: post) :
    k < start post s.swapSize ∧ Extent g k loc (start post s.swapSize) := by
  have tiles := h.tiles
  rw [placed] at tiles
  obtain ⟨mid, _, less, extent, rest⟩ := tiles_place.mp tiles
  rw [rest.start_eq]
  exact ⟨less, extent⟩

/-- Every place is in the interval of an entry. -/
theorem Tiles.covers {α : Type} {ok : Nat → α → Nat → Prop} {lo hi p : Nat} {l : List (Nat × α)}
    (tiles : Tiles ok lo l hi) (above : lo ≤ p) (below : p < hi) :
    ∃ e ∈ l, ∃ mid, e.1 ≤ p ∧ p < mid ∧ ok e.1 e.2 mid := by
  induction l generalizing lo with
  | nil =>
      have eq : lo = hi := tiles
      omega
  | cons e l ih =>
      obtain ⟨rfl, mid, _, allowed, rest⟩ := tiles
      by_cases here : p < mid
      · exact ⟨e, List.mem_cons_self, mid, above, here, allowed⟩
      · obtain ⟨f, mem, found⟩ := ih rest (Nat.le_of_not_lt here)
        exact ⟨f, List.mem_cons_of_mem e mem, found⟩

theorem Represents.owned_once (h : Represents g s live) {k : Nat} {loc : PageFileLocation}
    (found : s.allSpace.get? k = some loc) (not : loc.status ≠ .pageFree) :
    ∃ a, live.filter (fun a => k ∈ a.parts) = [a] := by
  obtain ⟨fin, held⟩ := held_of_get? found not
  have mem : k ∈ live.flatMap Allocation.parts :=
    h.owned.mem_iff.mpr (List.mem_map_of_mem (f := Prod.fst) held)
  obtain ⟨a, memA, memK⟩ := List.mem_flatMap.mp mem
  obtain ⟨pre, post, rfl⟩ := List.append_of_mem memA
  refine ⟨a, ?_⟩
  have rest : ∀ b ∈ pre ++ post, k ∉ b.parts := fun b memB memKB =>
    (h.perm List.perm_middle).disjoint memB k memKB memK
  rw [List.filter_append, List.filter_cons_of_pos (by simpa using memK),
    List.filter_eq_nil_iff.mpr fun b mem => by simp [rest b (List.mem_append_left post mem)],
    List.filter_eq_nil_iff.mpr fun b mem => by simp [rest b (List.mem_append_right pre mem)]]
  rfl

theorem Represents.partition (h : Represents g s live) : Partition g s live where
  keyed k loc found := by
    obtain ⟨pre, post, placed⟩ := SortedMap.split found
    have extent := (h.laid.extent placed).2
    rw [determineGlobalOffset, extent.file, extent.offset, Nat.mul_comm]
    exact Nat.div_add_mod k g.pageFileSize
  files n less := by
    have below : n * g.pageFileSize < s.swapSize := by
      rw [h.files]
      exact Nat.mul_lt_mul_of_pos_right less g.file_pos
    obtain ⟨⟨k, loc⟩, mem, mid, le, more, extent⟩ :=
      Tiles.covers h.laid.tiles (Nat.zero_le _) below
    -- no file begins inside an interval
    have eq : k = n * g.pageFileSize := by
      by_contra ne
      exact extent.inside _ (lt_of_le_of_ne le ne) more (Nat.dvd_mul_left _ _)
    subst eq
    refine ⟨loc, SortedMap.get?_eq_some_iff.mpr mem, ?_, ?_⟩
    · rw [extent.file, Nat.mul_div_cancel _ g.file_pos]
    · rw [extent.offset, Nat.mul_mod_left]
  intervals pre k loc post placed := by
    obtain ⟨less, extent⟩ := h.laid.extent placed
    have size := extent.size_le
    refine ⟨less, (same_file g.file_pos (by omega) fun p above upTo => ?_).1, extent.size_pos,
      by omega⟩
    exact extent.inside p above (by omega)
  freeSpace := h.laid.free
  fills pre k loc post placed free := by
    obtain ⟨less, extent⟩ := h.laid.extent placed
    have size := extent.fills free
    refine ⟨by omega, ?_⟩
    rw [size]
    exact extent.aligned
  merged pre e f post placed same := by
    rintro ⟨freeE, freeF⟩
    have extentE := (h.laid.extent
      (show s.allSpace.entries = pre ++ (e.1, e.2) :: f :: post from placed)).2
    have behind : s.allSpace.entries = (pre ++ [e]) ++ (f.1, f.2) :: post := by
      rw [placed]
      simp
    have extentF := (h.laid.extent behind).2
    have chain := h.laid.merged
    rw [Merged, placed] at chain
    have begins : ¬ Joins g f.1 := by
      refine (List.isChain_cons_cons.mp (List.IsChain.right_of_append chain)).1 ?_ ?_
      · rw [heldOf, if_pos freeE]
      · rw [heldOf, if_pos freeF]
    -- a file begins at `f`, and `e` is before it
    have sorted := s.allSpace.sorted
    rw [placed] at sorted
    have less : e.1 < f.1 := (List.pairwise_cons.mp (List.pairwise_append.mp sorted).2.1).1 f
      List.mem_cons_self
    obtain ⟨n, is⟩ := not_not.mp begins
    rw [extentE.file, extentF.file, is, Nat.mul_div_cancel_left _ g.file_pos] at same
    rw [is] at less
    have lower := Nat.mul_div_le e.1 g.pageFileSize
    rw [same] at lower
    omega
  chained := h.chained
  owned _ _ found not := h.owned_once found not

/-- In every run of the allocator the entries partition the swap, and what is not free belongs to
exactly one live chain. -/
theorem allocator_partition (g : Geometry) (n : Nat) (enableDMA : Bool) (fileno : Nat → Nat)
    (ops : List AllocOp) (b : AllocState)
    (reached : run (AllocOp.step g) ⟨.construct g n enableDMA fileno, []⟩ ops = some b) :
    Partition g b.swap b.live := by
  have represents : Represents g b.swap b.live :=
    run_invariant (fun s : AllocState => Represents g s.swap s.live)
      (fun _ _ _ h taken => step_represents h taken) ops
      (construct_represents g n enableDMA fileno).1 reached
  exact represents.partition

/-- A chain over two files, a second one, and the first one given back. -/
theorem allocator_partition_two_chains :
    ∃ b, run (AllocOp.step kibFiles) ⟨.construct kibFiles 3 true id, []⟩
        [.pfmalloc 1500 7, .pfmalloc 600 8, .pffree 0] = some b ∧
      Partition kibFiles b.swap b.live ∧ b.live.map Allocation.chunk = [8] := by
  have ran : (run (AllocOp.step kibFiles) ⟨.construct kibFiles 3 true id, []⟩
      [.pfmalloc 1500 7, .pfmalloc 600 8, .pffree 0]).map
      (fun b => b.live.map Allocation.chunk) = some [8] := by
    decide +kernel
  obtain ⟨b, is, chunks⟩ := Option.map_eq_some_iff.mp ran
  exact ⟨b, is, allocator_partition kibFiles 3 true id _ b is, chunks⟩

end Rambrain.FileSwap
