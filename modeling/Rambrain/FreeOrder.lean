import Rambrain.Pfmalloc

/-!
What freeing chains leaves does not depend on the order.

A chain is freed by `pffree`; if it counts as used swap space, its owner gives this back with
`claimUsageof`. `freeAll_spec` says what is held after any number of chains is freed, and
`Represents.canonical` that this determines the maps and the free bytes.
-/

namespace Rambrain.FileSwap

open Lib

variable {g : Geometry} {s t u : State} {live rest : List Allocation}

/-- `managedSwap::claimUsageof ( bytes, false, used )`, the part of the swap. -/
def State.claimUsageof (s : State) (bytes : Nat) (used : Bool) : State :=
  if used then { s with swapFree := s.swapFree - bytes, swapUsed := s.swapUsed + bytes }
  else { s with swapFree := s.swapFree + bytes, swapUsed := s.swapUsed - bytes }

/-- `pffree`, and `claimUsageof` for the bytes that the chain counts as used: none for a cached
copy. -/
def State.freeChain (g : Geometry) (claimed : Allocation → Nat) (s : State) (a : Allocation) :
    Option State :=
  (s.pffree g a.head).map fun t => t.claimUsageof (claimed a) false

/-- One chain after the other. -/
def State.freeAll (g : Geometry) (claimed : Allocation → Nat) :
    List Allocation → State → Option State
  | [], s => some s
  | a :: as, s => (s.freeChain g claimed a).bind (freeAll g claimed as)

theorem Represents.claimUsageof (h : Represents g s live) (bytes : Nat) (used : Bool) :
    Represents g (s.claimUsageof bytes used) live := by
  have balanced := h.balanced
  cases used
  · exact {
      laid := ⟨h.laid.tiles, h.laid.merged, h.laid.free⟩
      files := h.files
      chained := h.chained
      owned := h.owned
      balanced := by
        change s.swapFree + bytes + (s.swapUsed - bytes) + tails s.held = s.swapSize
        omega }
  · exact {
      laid := ⟨h.laid.tiles, h.laid.merged, h.laid.free⟩
      files := h.files
      chained := h.chained
      owned := h.owned
      balanced := by
        change s.swapFree - bytes + (s.swapUsed + bytes) + tails s.held = s.swapSize
        omega }

/-- The swap after these chains have been freed. -/
structure Freed (g : Geometry) (claimed : Allocation → Nat) (s t : State)
    (freed rest : List Allocation) : Prop where
  represents : Represents g t rest
  held : ∀ e, e ∈ t.held ↔ e ∈ s.held ∧ e.1 ∉ freed.flatMap Allocation.parts
  swapUsed : t.swapUsed = s.swapUsed - (freed.map claimed).sum
  swapSize : t.swapSize = s.swapSize
  number : t.pageFileNumber = s.pageFileNumber

theorem freeAll_spec (claimed : Allocation → Nat) : ∀ (freed : List Allocation) {s : State},
    Represents g s (freed ++ rest) →
    ∃ t, State.freeAll g claimed freed s = some t ∧ Freed g claimed s t freed rest := by
  intro freed
  induction freed with
  | nil =>
      intro s h
      exact ⟨s, rfl, h, by simp, by simp, rfl, rfl⟩
  | cons a freed ih =>
      intro s h
      obtain ⟨t, isFreed, rep, only, held⟩ := pffree_spec h
      obtain ⟨u, is, later⟩ := ih (rep.claimUsageof (claimed a) false)
      have number : t.pageFileNumber = s.pageFileNumber := by
        rw [OnlySpace.eq_1] at only
        rw [only]
      refine ⟨u, ?_, ?_⟩
      · rw [State.freeAll, State.freeChain, isFreed]
        exact is
      · exact {
          represents := later.represents
          held := by
            intro e
            have first : e ∈ (t.claimUsageof (claimed a) false).held ↔
                e ∈ s.held ∧ e.1 ∉ a.parts := held e
            rw [later.held e, first, List.flatMap_cons, List.mem_append, not_or, and_assoc]
          swapUsed := by
            have used : (t.claimUsageof (claimed a) false).swapUsed = s.swapUsed - claimed a := by
              rw [← only.swapUsed]
              rfl
            rw [later.swapUsed, used, List.map_cons, List.sum_cons]
            push_cast
            ring
          swapSize := later.swapSize.trans only.swapSize
          number := later.number.trans number }

/-- What is held determines everything else. -/
theorem Represents.canonical {live' : List Allocation} (h : Represents g s live)
    (h' : Represents g t live') (size : s.swapSize = t.swapSize) (used : s.swapUsed = t.swapUsed)
    (same : ∀ e, e ∈ s.held ↔ e ∈ t.held) :
    s.layout = t.layout ∧ s.freeSpace = t.freeSpace ∧ s.swapFree = t.swapFree := by
  have held := held_ext same
  obtain ⟨layout, keys⟩ := h.laid.layout_eq h'.laid size held
  refine ⟨layout, SortedMap.ext ?_, ?_⟩
  · exact List.map_injective_iff.mpr (fun a b eq => Prod.ext eq rfl) keys
  · have balanced := h.balanced
    have balanced' := h'.balanced
    rw [held, size, used] at balanced
    omega

/-- The state before `pfmalloc` is the one after the chain is freed. -/
theorem pfmalloc_pffree (h : Represents g s live) (owners : Owners s live) {size chunk res : Nat}
    (pos : 0 < size) (found : s.pfmalloc g size chunk = .found t res)
    (cached : t.memChunks = s.memChunks) :
    ∃ u, t.pffree g res = some u ∧ OnlySpace s u ∧ u.layout = s.layout ∧
      u.freeSpace = s.freeSpace ∧ u.swapFree = s.swapFree := by
  rcases pfmalloc_cases h owners pos chunk with ⟨is, _⟩ |
    ⟨v, dropped, kept, t', parts, released, is, placed⟩ | ⟨v, dropped, kept, _, is⟩
  · rw [found] at is
    cases is
  · rw [found] at is
    cases is
    have chunks := placed.only.memChunks
    have empty : dropped = [] := by
      cases isDropped : dropped with
      | nil => rfl
      | cons a as =>
          obtain ⟨c, foundC, cachedC⟩ :=
            released.cached a (by rw [isDropped]; exact List.mem_cons_self)
          have now := released.memChunks a.chunk
          rw [← chunks, cached, isDropped, List.map_cons, if_pos List.mem_cons_self, foundC] at now
          have same : c.swapBuf = none := congrArg (fun c => c.bind Chunk.swapBuf) now
          simp [State.cachedBuf, same] at cachedC
    cases empty
    have before : OnlySpace s v := by
      have only := released.only
      rw [← chunks, cached] at only
      exact only
    obtain ⟨u, freed, rep, only, held⟩ := pffree_spec (placed.represents released.represents)
    have all := (before.trans placed.only).trans only
    refine ⟨u, freed, all, ?_⟩
    refine rep.canonical h all.swapSize all.swapUsed fun e => ?_
    have keys := placed.keys.nodup_iff.mp (held_keys_nodup t)
    have keeps : e ∈ v.held ↔ e ∈ s.held := by simpa using released.held e
    rw [held e, ← keeps]
    constructor
    · rintro ⟨mem, not⟩
      have memKey := placed.keys.mem_iff.mp (List.mem_map_of_mem (f := Prod.fst) mem)
      obtain ⟨f, memF, same⟩ := List.mem_map.mp ((List.mem_append.mp memKey).resolve_left not)
      have memF' := placed.same f memF (by simp)
      have eq : f = e := by
        by_contra ne
        have apart := (held_keys_nodup t)
        exact ne (List.inj_on_of_nodup_map apart memF' mem same)
      rwa [← eq]
    · intro mem
      exact ⟨placed.same e mem (by simp), fun memParts =>
        (List.nodup_append.mp keys).2.2 e.1 memParts e.1 (List.mem_map_of_mem mem) rfl⟩
  · rw [found] at is
    cases is

/-- The layout of swap files that are free as a whole. -/
def freeFiles (g : Geometry) (n : Nat) : List (Nat × Nat × Nat × Nat × PageChunkStatus) :=
  (List.range n).map fun m => (m * g.pageFileSize, m, 0, g.pageFileSize, .pageFree)

theorem Represents.all_free (h : Represents g s []) :
    s.layout = freeFiles g s.pageFileNumber ∧
      s.freeSpace.keys = (List.range s.pageFileNumber).map (· * g.pageFileSize) ∧
      s.swapFree + s.swapUsed = s.swapSize := by
  obtain ⟨entries, swapSize, _, _, _, _, laid⟩ := construct_spec g s.pageFileNumber true id
  have empty : s.held = [] := by
    have perm := h.owned
    rw [List.flatMap_nil, List.nil_perm, List.map_eq_nil_iff] at perm
    exact perm
  have none' : (State.construct g s.pageFileNumber true id).held = [] := by
    rw [State.held, entries, kept_newFiles]
  obtain ⟨layout, keys⟩ := h.laid.layout_eq laid (h.files.trans swapSize.symm)
    (empty.trans none'.symm)
  refine ⟨?_, ?_, ?_⟩
  · rw [layout, State.layout, entries, newFiles, List.map_map, freeFiles, List.range_eq_range']
    rfl
  · rw [keys, laid.free, entries, List.range_eq_range']
    exact freeKeys_newFiles 0 s.pageFileNumber
  · have balanced := h.balanced
    rw [empty] at balanced
    simpa [tails] using balanced

theorem freeing_canonical (g : Geometry) (s : State) (live : List Allocation)
    (h : Represents g s live) (owners : Owners s live) :
    (∀ (claimed : Allocation → Nat) as bs rest, live.Perm (as ++ rest) → as.Perm bs →
      ∃ t u, s.freeAll g claimed as = some t ∧ s.freeAll g claimed bs = some u ∧
        t.layout = u.layout ∧ t.freeSpace = u.freeSpace ∧ t.swapFree = u.swapFree) ∧
    (∀ size chunk t res, 0 < size → s.pfmalloc g size chunk = .found t res →
      t.memChunks = s.memChunks →
      ∃ u, t.pffree g res = some u ∧ OnlySpace s u ∧ u.layout = s.layout ∧
        u.freeSpace = s.freeSpace ∧ u.swapFree = s.swapFree) ∧
    ∀ (claimed : Allocation → Nat) as, live.Perm as → s.swapUsed = (live.map claimed).sum →
      ∃ t, s.freeAll g claimed as = some t ∧ t.layout = freeFiles g s.pageFileNumber ∧
        t.freeSpace.keys = (List.range s.pageFileNumber).map (· * g.pageFileSize) ∧
        t.swapSize = s.swapSize ∧ t.swapFree = s.swapSize := by
  refine ⟨?_, ?_, ?_⟩
  · intro claimed as bs rest perm order
    obtain ⟨t, isT, freed⟩ := freeAll_spec claimed as (h.perm perm)
    obtain ⟨u, isU, freed'⟩ :=
      freeAll_spec claimed bs (h.perm (perm.trans (order.append_right rest)))
    refine ⟨t, u, isT, isU, freed.represents.canonical freed'.represents ?_ ?_ fun e => ?_⟩
    · rw [freed.swapSize, freed'.swapSize]
    · rw [freed.swapUsed, freed'.swapUsed, (order.map claimed).sum_eq]
    · rw [freed.held, freed'.held, (order.flatMap_right _).mem_iff]
  · intro size chunk t res pos found cached
    exact pfmalloc_pffree h owners pos found cached
  · intro claimed as perm used
    have all : Represents g s (as ++ []) := h.perm (perm.trans (by rw [List.append_nil]))
    obtain ⟨t, is, freed⟩ := freeAll_spec claimed as all
    obtain ⟨layout, keys, free⟩ := freed.represents.all_free
    have zero : t.swapUsed = 0 := by
      rw [freed.swapUsed, used, (perm.map claimed).sum_eq]
      exact sub_self _
    refine ⟨t, is, ?_, ?_, freed.swapSize, ?_⟩
    · rw [layout, freed.number]
    · rw [keys, freed.number]
    · rw [zero, add_zero, freed.swapSize] at free
      exact free

/-- Chains for chunks, one after the other; `none` where one does not fit. -/
def State.pfmallocAll (g : Geometry) : List (Nat × Nat) → State → Option State
  | [], s => some s
  | (size, chunk) :: l, s =>
      if 0 < size ∧ size ≤ freeBytes s then
        match s.pfmalloc g size chunk with
        | .found t _ => t.pfmallocAll g l
        | _ => none
      else none

theorem pfmallocAll_represents : ∀ (l : List (Nat × Nat)) {s t : State} {live : List Allocation},
    Represents g s live → s.pfmallocAll g l = some t → ∃ chains : List Allocation,
      chains.length = l.length ∧ Represents g t (chains ++ live) ∧ t.memChunks = s.memChunks
  | [], s, t, live, h, taken => by
      cases taken
      exact ⟨[], rfl, h, rfl⟩
  | (size, chunk) :: l, s, t, live, h, taken => by
      rw [State.pfmallocAll, Option.ite_none_right_eq_some] at taken
      obtain ⟨⟨pos, fits⟩, taken⟩ := taken
      obtain ⟨u, parts, found, placed⟩ := pfmalloc_free h.laid pos fits chunk
      rw [found] at taken
      obtain ⟨chains, length, represents, same⟩ :=
        pfmallocAll_represents l (placed.represents h) taken
      refine ⟨chains ++ [⟨parts, chunk⟩], ?_, ?_, same.trans placed.only.memChunks⟩
      · rw [List.length_append, length]
        rfl
      · rw [List.append_assoc]
        exact represents

/-- Three chains, the second of which lies in two files, are freed in two orders. -/
theorem freeing_canonical_three_chains :
    ∃ (s t u : State) (a b c : Allocation),
      (State.construct kibFiles 3 true id).pfmallocAll kibFiles [(512, 1), (1500, 2), (512, 3)] =
        some s ∧
      s.freeAll kibFiles (fun _ => 0) [a, b, c] = some t ∧
      s.freeAll kibFiles (fun _ => 0) [b, c, a] = some u ∧ t.layout = u.layout ∧
      t.freeSpace = u.freeSpace ∧ t.swapFree = u.swapFree := by
  have taken : ((State.construct kibFiles 3 true id).pfmallocAll kibFiles
      [(512, 1), (1500, 2), (512, 3)]).isSome := by decide
  obtain ⟨s, isS⟩ := Option.isSome_iff_exists.mp taken
  obtain ⟨chains, length, represents, same⟩ :=
    pfmallocAll_represents _ (construct_represents kibFiles 3 true id).1 isS
  obtain ⟨a, b, c, rfl⟩ := List.length_eq_three.mp length
  have owners : Owners s ([a, b, c] ++ []) := by
    intro e mem
    rw [same] at mem
    cases mem
  have order : ([a] ++ [b, c]).Perm ([b, c] ++ [a]) := List.perm_append_comm
  obtain ⟨t, u, isT, isU, layout, free, swapFree⟩ :=
    (freeing_canonical kibFiles s ([a, b, c] ++ []) represents owners).1 (fun _ => 0) [a, b, c]
      [b, c, a] [] (.refl _) order
  exact ⟨s, t, u, a, b, c, isS, isT, isU, layout, free, swapFree⟩

end Rambrain.FileSwap
