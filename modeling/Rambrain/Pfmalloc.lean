import Rambrain.PageChain
import Rambrain.ExtendSwap

/-!
`pfmalloc`: first fit, the concatenation of free locations, and what `cleanupCachedElements` drops.

`allocInFree_allocated` and `modify_written` say what one allocation and one write do to what is
held. `concat_spec` is an induction on the turns of the loop: it takes free locations as a whole,
the first one of `free_space` in every turn, until one is left that is large enough.
-/

namespace Rambrain.FileSwap

open Lib

variable {g : Geometry} {s t u : State}

/-! ### Free bytes -/

def freeBytesOf (l : List (Nat × PageFileLocation)) : Nat :=
  ((l.filter fun e => e.2.status = .pageFree).map fun e => e.2.size).sum

/-- The bytes in the locations of `free_space`. -/
def freeBytes (s : State) : Nat := freeBytesOf s.allSpace.entries

/-- The bytes of the intervals of what is held. -/
def spanned (held : List (Nat × PageFileLocation × Nat)) : Nat :=
  (held.map fun e => e.2.2 - e.1).sum

theorem spanned_append (held held' : List (Nat × PageFileLocation × Nat)) :
    spanned (held ++ held') = spanned held + spanned held' := by
  rw [spanned, List.map_append, List.sum_append]
  rfl

theorem spanned_cons (e : Nat × PageFileLocation × Nat)
    (held : List (Nat × PageFileLocation × Nat)) :
    spanned (e :: held) = (e.2.2 - e.1) + spanned held := rfl

theorem freeBytesOf_add_spanned {lo hi : Nat} {l : List (Nat × PageFileLocation)}
    (tiles : Tiles (Extent g) lo l hi) :
    freeBytesOf l + spanned (kept (shape heldOf l hi)) = hi - lo := by
  induction l generalizing lo with
  | nil =>
      cases tiles
      simp [freeBytesOf, spanned]
  | cons e l ih =>
      obtain ⟨k, b⟩ := e
      obtain ⟨rfl, mid, less, extent, rest⟩ := tiles
      have behind := ih rest
      have le := rest.le
      simp only at less extent ⊢
      by_cases free : b.status = .pageFree
      · have fills := extent.fills free
        have bytes : freeBytesOf ((k, b) :: l) = b.size + freeBytesOf l := by
          rw [freeBytesOf, List.filter_cons_of_pos (by simpa using free), List.map_cons,
            List.sum_cons]
          rfl
        have held : kept (shape heldOf ((k, b) :: l) hi) = kept (shape heldOf l hi) := by
          rw [shape, heldOf_eq_none.mpr free]
          rfl
        rw [bytes, held]
        omega
      · have bytes : freeBytesOf ((k, b) :: l) = freeBytesOf l := by
          rw [freeBytesOf, List.filter_cons_of_neg (by simpa using free)]
          rfl
        have held : kept (shape heldOf ((k, b) :: l) hi) =
            (k, b, mid) :: kept (shape heldOf l hi) := by
          rw [shape, heldOf_of_ne free, rest.start_eq]
          rfl
        rw [bytes, held, spanned_cons]
        simp only
        omega

theorem Laid.freeBytes_add_spanned (h : Laid g s) : freeBytes s + spanned s.held = s.swapSize :=
  freeBytesOf_add_spanned h.tiles

/-- The bytes that are in use in what is held. -/
def heldBytes (held : List (Nat × PageFileLocation × Nat)) : Nat :=
  (held.map fun e => e.2.1.size).sum

theorem Laid.size_le (h : Laid g s) {e : Nat × PageFileLocation × Nat} (mem : e ∈ s.held) :
    e.2.1.size ≤ e.2.2 - e.1 := by
  obtain ⟨k, b, fin⟩ := e
  obtain ⟨a, is, _, extent⟩ := h.tiles.of_mem_shape (mem_kept.mp mem)
  unfold heldOf at is
  split at is
  · cases is
  · cases is
    exact extent.size_le

/-- Two intervals that are held do not meet. -/
theorem Laid.apart (h : Laid g s) {e f : Nat × PageFileLocation × Nat} (memE : e ∈ s.held)
    (memF : f ∈ s.held) (ne : e.1 ≠ f.1) : e.2.2 ≤ f.1 ∨ f.2.2 ≤ e.1 := by
  have intervals : (shape heldOf s.allSpace.entries s.swapSize).Pairwise fun e f => e.2.2 ≤ f.1 :=
    h.tiles.apart
  have pairs : s.held.Pairwise fun e f => e.2.2 ≤ f.1 :=
    List.pairwise_filterMap.mpr (intervals.imp fun le e' is f' is' => by
      obtain ⟨_, _, rfl⟩ := Option.map_eq_some_iff.mp is
      obtain ⟨_, _, rfl⟩ := Option.map_eq_some_iff.mp is'
      exact le)
  have both : s.held.Pairwise fun e f => e.2.2 ≤ f.1 ∨ f.2.2 ≤ e.1 := pairs.imp .inl
  have : Std.Symm fun e f : Nat × PageFileLocation × Nat => e.2.2 ≤ f.1 ∨ f.2.2 ≤ e.1 :=
    ⟨fun _ _ => Or.symm⟩
  exact both.forall memE memF fun eq => ne (by rw [eq])

theorem heldBytes_le_spanned (h : Laid g s) (held : List (Nat × PageFileLocation × Nat))
    (sub : ∀ e ∈ held, e ∈ s.held) : heldBytes held ≤ spanned held :=
  List.sum_le_sum fun e mem => h.size_le (sub e mem)

/-! ### One write and one allocation -/

/-- What a write to a location that is held may do. -/
structure Keeps (f : PageFileLocation → PageFileLocation) : Prop where
  file : ∀ b, (f b).file = b.file
  offset : ∀ b, (f b).offset = b.offset
  size : ∀ b, (f b).size = b.size
  status : ∀ b, b.status ≠ .pageFree → (f b).status ≠ .pageFree

/-- `f` is written to the location at `key`, if there is one. -/
structure Written (g : Geometry) (s t : State) (key : Option Nat)
    (f : PageFileLocation → PageFileLocation) : Prop where
  laid : Laid g t
  only : OnlySpace s t
  swapFree : t.swapFree = s.swapFree
  freeSpace : t.freeSpace = s.freeSpace
  keys : t.held.map Prod.fst = s.held.map Prod.fst
  tails : tails t.held = tails s.held
  spanned : spanned t.held = spanned s.held
  same : ∀ e ∈ s.held, some e.1 ≠ key → e ∈ t.held
  written : ∀ k b fin, key = some k → (k, b, fin) ∈ s.held → (k, f b, fin) ∈ t.held

theorem Written.refl (h : Laid g s) (f : PageFileLocation → PageFileLocation) :
    Written g s s none f where
  laid := h
  only := OnlySpace.refl s
  swapFree := rfl
  freeSpace := rfl
  keys := rfl
  tails := rfl
  spanned := rfl
  same := fun _ mem _ => mem
  written := fun _ _ _ isKey => by cases isKey

theorem modify_written (h : Laid g s) {k fin : Nat} {b : PageFileLocation}
    (mem : (k, b, fin) ∈ s.held) {f : PageFileLocation → PageFileLocation} (keeps : Keeps f) :
    Written g s (s.modify k f) (some k) f := by
  obtain ⟨found, not⟩ := get?_of_held mem
  obtain ⟨pre, post, placed⟩ := SortedMap.split found
  obtain ⟨is, entries⟩ := modify_of_place s placed f
  have tiles := h.tiles
  have free := h.free
  have merged := h.merged
  rw [placed] at tiles free merged
  obtain ⟨mid, before, less, extent, behind⟩ := tiles_place.mp tiles
  have not' := keeps.status b not
  have held : s.held = kept (shape heldOf pre k) ++
      (k, b, mid) :: kept (shape heldOf post s.swapSize) := by
    rw [State.held, placed, shape_append, kept_append, start_cons, shape, behind.start_eq,
      heldOf_of_ne not]
    rfl
  have held' : (s.modify k f).held = kept (shape heldOf pre k) ++
      (k, f b, mid) :: kept (shape heldOf post s.swapSize) := by
    rw [State.held, entries, shape_append, kept_append, start_cons, shape, is, behind.start_eq,
      heldOf_of_ne not']
    rfl
  have sorted := held_sorted s
  rw [held, List.pairwise_append, List.pairwise_cons] at sorted
  exact {
    laid := {
      tiles := by
        rw [entries, is]
        refine tiles_place.mpr ⟨mid, before, less, ?_, behind⟩
        exact {
          file := (keeps.file b).trans extent.file
          offset := (keeps.offset b).trans extent.offset
          inside := extent.inside
          aligned := extent.aligned
          size_pos := by rw [keeps.size]; exact extent.size_pos
          size_le := by rw [keeps.size]; exact extent.size_le
          fills := fun isFree => absurd isFree not' }
      merged := by
        rw [entries]
        refine List.isChain_append.mpr ⟨merged.left, List.isChain_cons.mpr
          ⟨fun e _ unheld => absurd (heldOf_eq_none.mp unheld) not',
            merged.right.right (l := [(k, b)])⟩, ?_⟩
        intro e _ e' memE' _ unheld
        cases memE'
        exact absurd (heldOf_eq_none.mp unheld) not'
      free := by
        rw [entries, is]
        change s.freeSpace.keys = freeKeys (pre ++ (k, f b) :: post)
        change s.freeSpace.keys = freeKeys (pre ++ (k, b) :: post) at free
        rw [free, freeKeys_append, freeKeys_append, freeKeys_cons_held _ not,
          freeKeys_cons_held _ not'] }
    only := by rw [is]; rfl
    swapFree := by rw [is]
    freeSpace := by rw [is]
    keys := by rw [held, held', List.map_append, List.map_append]; rfl
    tails := by
      rw [held, held', tails_append, tails_append, tails_cons, tails_cons]
      simp only [keeps.size]
    spanned := by
      rw [held, held', spanned_append, spanned_append]
      rfl
    same := by
      intro e memE ne
      rw [held, List.mem_append, List.mem_cons] at memE
      rw [held', List.mem_append, List.mem_cons]
      rcases memE with memE | rfl | memE
      · exact .inl memE
      · exact absurd rfl ne
      · exact .inr (.inr memE)
    written := by
      intro k' b' fin' isKey memE
      cases isKey
      rw [held, List.mem_append, List.mem_cons] at memE
      rw [held', List.mem_append, List.mem_cons]
      rcases memE with memE | isHere | memE
      · exact absurd (sorted.2.2 _ memE _ List.mem_cons_self) (Nat.lt_irrefl k)
      · cases isHere
        exact .inr (.inl rfl)
      · exact absurd (sorted.2.1.1 _ memE) (Nat.lt_irrefl k) }

/-- `a` is allocated at `k`, with the space up to `mid`. -/
structure Allocated (g : Geometry) (s t : State) (k : Nat) (a : PageFileLocation) (mid : Nat) :
    Prop where
  laid : Laid g t
  only : OnlySpace s t
  balance : t.swapFree + tails t.held = s.swapFree + tails s.held
  keys : (t.held.map Prod.fst).Perm (k :: s.held.map Prod.fst)
  spanned : spanned t.held = spanned s.held + (mid - k)
  same : ∀ e ∈ s.held, e ∈ t.held
  new : (k, a, mid) ∈ t.held

theorem allocInFree_allocated (h : Laid g s) {k : Nat} {page : PageFileLocation}
    (found : s.allSpace.get? k = some page) (free : page.status = .pageFree) {size : Nat}
    (pos : 0 < size) (fits : size ≤ page.size) {f : PageFileLocation → PageFileLocation}
    (holds : Holds f) :
    ∃ t mid, s.allocInFree g page size = some (t, k) ∧
      Allocated g s (t.modify k f) k (f { page with size }) mid ∧
      (size = page.size → mid - k = page.size ∧
        ∀ ks, s.freeSpace.keys = k :: ks → (t.modify k f).freeSpace.keys = ks) := by
  obtain ⟨pre, post, placed⟩ := SortedMap.split found
  obtain ⟨t, mid, fin, left, is, only, swapFree, laid, entries, before, later, less, midLe, sizeLe,
    leftKept, whole⟩ := allocInFree_spec h placed free pos fits holds
  have held : s.held = kept (shape heldOf pre k) ++ kept (shape heldOf post s.swapSize) := by
    rw [State.held, before, kept_append]
    rfl
  have held' : (t.modify k f).held = kept (shape heldOf pre k) ++
      (k, f { page with size }, mid) :: kept (shape heldOf post s.swapSize) := by
    rw [State.held, only.swapSize, later, kept_append]
    congr 1
    rw [← List.nil_append (kept (shape heldOf post s.swapSize)), ← leftKept, ← kept_append]
    rfl
  refine ⟨t, mid, is, ?_, fun all => ?_⟩
  · exact {
      laid := laid
      only := only
      balance := by
        rw [swapFree, held, held', tails_append, tails_append, tails_cons]
        simp only [holds.size]
        push_cast
        omega
      keys := by
        rw [held, held', List.map_append, List.map_append]
        exact List.perm_middle
      spanned := by
        rw [held, held', spanned_append, spanned_append, spanned_cons]
        simp only
        omega
      same := by
        intro e mem
        rw [held, List.mem_append] at mem
        rw [held', List.mem_append, List.mem_cons]
        exact mem.imp_right .inr
      new := by
        rw [held']
        exact List.mem_append_right _ List.mem_cons_self }
  · obtain ⟨rfl, rfl⟩ := whole all
    have tiles := h.tiles
    rw [placed] at tiles
    obtain ⟨fin₀, _, _, extent, behind⟩ := tiles_place.mp tiles
    have ends : fin₀ = mid := by
      have eq := before
      rw [placed, shape_append, start_cons, shape, behind.start_eq] at eq
      have tail := List.append_cancel_left eq
      injection tail with here
      injection here with _ here
      injection here
    refine ⟨by rw [extent.fills free, ends], fun ks first => ?_⟩
    have keys : s.freeSpace.keys = freeKeys s.allSpace.entries := h.free
    have keys' : (t.modify k f).freeSpace.keys = freeKeys (t.modify k f).allSpace.entries :=
      laid.free
    have sorted := s.freeSpace.sorted_keys
    rw [keys, placed, freeKeys_append, freeKeys_cons_free _ free] at first sorted
    have empty : freeKeys pre = [] := by
      cases isPre : freeKeys pre with
      | nil => rfl
      | cons j js =>
          rw [isPre] at first sorted
          cases first
          have less := (List.pairwise_append.mp sorted).2.2 k List.mem_cons_self k
            List.mem_cons_self
          exact absurd less (Nat.lt_irrefl k)
    rw [empty] at first
    rw [keys', entries, freeKeys_append, freeKeys_cons_held _ (holds.status _), empty]
    injection first

/-! ### The chain that is built -/

/-- The parts of a chain of `size` bytes: all but the last are `PAGE_PART`, with an aligned size. -/
def Built (g : Geometry) (m : SortedMap Nat PageFileLocation) (chunk : Nat) : List Nat → Nat → Prop
  | [], _ => False
  | [k], size => ∃ b, m.get? k = some b ∧ b.status = .pageEnd ∧ b.globOffNext = .chunk chunk ∧
      b.size = size
  | k :: k' :: ks, size => ∃ b, m.get? k = some b ∧ b.status = .pagePart ∧
      b.globOffNext = .globOffNext k' ∧ g.memoryAlignment ∣ b.size ∧ b.size ≤ size ∧
      Built g m chunk (k' :: ks) (size - b.size)

/-- The bytes of a chain. -/
def State.chainSize (s : State) (parts : List Nat) : Nat :=
  (parts.map fun k => ((s.allSpace.get? k).map PageFileLocation.size).getD 0).sum

theorem State.chainSize_cons (s : State) {k : Nat} {b : PageFileLocation}
    (found : s.allSpace.get? k = some b) (ks : List Nat) :
    s.chainSize (k :: ks) = b.size + s.chainSize ks := by
  rw [State.chainSize, List.map_cons, List.sum_cons, found]
  rfl

theorem Built.chained {chunk : Nat} {parts : List Nat} {size : Nat}
    (built : Built g s.allSpace chunk parts size) : Chained s.allSpace chunk parts := by
  induction parts generalizing size with
  | nil => exact built
  | cons k ks ih =>
      cases ks with
      | nil =>
          obtain ⟨b, found, isEnd, next, _⟩ := built
          exact ⟨b, found, isEnd, next⟩
      | cons k' ks =>
          obtain ⟨b, found, part, next, _, _, rest⟩ := built
          exact ⟨⟨b, found, part, next⟩, ih rest⟩

theorem Built.chainSize {chunk : Nat} {parts : List Nat} {size : Nat}
    (built : Built g s.allSpace chunk parts size) : s.chainSize parts = size := by
  induction parts generalizing size with
  | nil => exact built.elim
  | cons k ks ih =>
      cases ks with
      | nil =>
          obtain ⟨b, found, _, _, is⟩ := built
          rw [s.chainSize_cons found, is]
          rfl
      | cons k' ks =>
          obtain ⟨b, found, _, _, _, le, rest⟩ := built
          rw [s.chainSize_cons found, ih rest]
          omega

theorem Built.aligned {chunk : Nat} {parts : List Nat} {size : Nat}
    (built : Built g s.allSpace chunk parts size) :
    ∀ k ∈ parts.dropLast, ∀ b, s.allSpace.get? k = some b →
      b.status = .pagePart ∧ g.memoryAlignment ∣ b.size := by
  induction parts generalizing size with
  | nil => exact built.elim
  | cons k ks ih =>
      cases ks with
      | nil =>
          intro j mem
          cases mem
      | cons k' ks =>
          obtain ⟨b, found, part, _, aligned, _, rest⟩ := built
          intro j mem c foundJ
          rcases List.mem_cons.mp mem with rfl | mem
          · rw [found] at foundJ
            cases foundJ
            exact ⟨part, aligned⟩
          · exact ih rest j mem c foundJ

/-- A chain for `chunk` has been built beside what was held, and linked to the part at `former`. -/
structure Placed (g : Geometry) (s t : State) (former : Option Nat) (chunk : Nat)
    (parts : List Nat) (size : Nat) : Prop where
  laid : Laid g t
  only : OnlySpace s t
  balance : t.swapFree + tails t.held = s.swapFree + tails s.held
  keys : (t.held.map Prod.fst).Perm (parts ++ s.held.map Prod.fst)
  built : Built g t.allSpace chunk parts size
  same : ∀ e ∈ s.held, some e.1 ≠ former → e ∈ t.held
  linked : ∀ k b fin, former = some k → (k, b, fin) ∈ s.held →
    (k, { b with globOffNext := .globOffNext (parts.headD 0) }, fin) ∈ t.held

/-- What the loop of `pfmalloc` makes of `former` in a turn. -/
def linkFormer (former : Option Nat) (neu : Nat) (s : State) : State :=
  match former with
  | some former => s.modify former fun b => { b with globOffNext := .globOffNext neu }
  | none => s

theorem keeps_next (next : GlobOffUnion) : Keeps fun b => { b with globOffNext := next } where
  file := fun _ => rfl
  offset := fun _ => rfl
  size := fun _ => rfl
  status := fun _ not => not

theorem linkFormer_written (h : Laid g s) {former : Option Nat}
    (there : ∀ k, former = some k → ∃ b fin, (k, b, fin) ∈ s.held) (neu : Nat) :
    Written g s (linkFormer former neu s) former fun b =>
      { b with globOffNext := .globOffNext neu } := by
  cases former with
  | none => exact Written.refl h _
  | some k =>
      obtain ⟨b, fin, mem⟩ := there k rfl
      exact modify_written h mem (keeps_next _)

theorem holds_status (status : PageChunkStatus) (not : status ≠ .pageFree) :
    Holds fun b => { b with status } where
  file := fun _ => rfl
  offset := fun _ => rfl
  size := fun _ => rfl
  status := fun _ => not

/-- A location of `free_space` in `all_space`. -/
theorem Laid.get?_free (h : Laid g s) {k : Nat} (mem : k ∈ s.freeSpace.keys) :
    ∃ page, s.allSpace.get? k = some page ∧ page.status = .pageFree ∧ 0 < page.size ∧
      g.memoryAlignment ∣ page.size ∧ determineGlobalOffset g page = k := by
  rw [h.free] at mem
  obtain ⟨page, memE, free⟩ := mem_of_mem_freeKeys mem
  have found := SortedMap.get?_eq_some_iff.mpr memE
  obtain ⟨pre, post, placed⟩ := SortedMap.split found
  have tiles := h.tiles
  rw [placed] at tiles
  obtain ⟨fin, _, _, extent, _⟩ := tiles_place.mp tiles
  exact ⟨page, found, free, extent.size_pos, by rw [extent.fills free]; exact extent.aligned,
    extent.globalOffset⟩

theorem Laid.freeBytes_zero (h : Laid g s) (empty : s.freeSpace.keys = []) : freeBytes s = 0 := by
  have keys : freeKeys s.allSpace.entries = [] := h.free.symm.trans empty
  rw [freeKeys, List.map_eq_nil_iff] at keys
  rw [freeBytes, freeBytesOf, keys]
  rfl

theorem Laid.freeLocations (h : Laid g s) : s.freeLocations =
    (s.allSpace.entries.filter fun e => e.2.status = .pageFree).map Prod.snd := by
  rw [State.freeLocations, h.free, List.filterMap_map]
  rw [List.filterMap_congr (g := fun e => some e.2) fun e mem => by
    simp only [Function.comp_apply]
    exact SortedMap.get?_eq_some_iff.mpr (List.mem_filter.mp mem).1]
  rw [← List.filterMap_eq_map]
  rfl

theorem Laid.mem_freeLocations (h : Laid g s) {page : PageFileLocation}
    (mem : page ∈ s.freeLocations) :
    ∃ k, s.allSpace.get? k = some page ∧ page.status = .pageFree ∧
      g.memoryAlignment ∣ page.size := by
  rw [h.freeLocations] at mem
  obtain ⟨e, memE, rfl⟩ := List.mem_map.mp mem
  have memKeys : e.1 ∈ s.freeSpace.keys := by
    rw [h.free]
    exact List.mem_map_of_mem memE
  obtain ⟨page, found, free, _, aligned, _⟩ := h.get?_free memKeys
  have here := SortedMap.get?_eq_some_iff.mpr (List.mem_filter.mp memE).1
  rw [found] at here
  cases here
  exact ⟨e.1, found, free, aligned⟩

theorem Laid.freeBytes_eq (h : Laid g s) :
    freeBytes s = (s.freeLocations.map PageFileLocation.size).sum := by
  rw [h.freeLocations, List.map_map]
  rfl

/-! ### The loop -/

/-- The sizes of the free locations, in the order of `free_space`. -/
def State.freeSizes (s : State) : List Nat := s.freeLocations.map PageFileLocation.size

theorem State.freeSizes_eq (s : State) : s.freeSizes =
    s.freeSpace.keys.filterMap fun k => (s.allSpace.get? k).map PageFileLocation.size :=
  List.map_filterMap

theorem freeSizes_cons {it : Nat} {ks : List Nat} {page : PageFileLocation}
    (keys : s.freeSpace.keys = it :: ks) (found : s.allSpace.get? it = some page) :
    s.freeSizes = page.size ::
      ks.filterMap fun k => (s.allSpace.get? k).map PageFileLocation.size := by
  rw [s.freeSizes_eq, keys, List.filterMap_cons_some (by rw [found]; rfl)]

theorem modify_size {f : PageFileLocation → PageFileLocation} (keeps : Keeps f) (s : State)
    (k j : Nat) : ((s.modify k f).allSpace.get? j).map PageFileLocation.size =
      (s.allSpace.get? j).map PageFileLocation.size := by
  unfold State.modify
  cases found : s.allSpace.get? k with
  | none => rfl
  | some loc =>
      rw [SortedMap.get?_insert]
      split
      · next here =>
          rw [here, found, Option.map_some, Option.map_some, keeps.size]
      · rfl

/-- An allocation leaves the other locations where they are. -/
theorem allocInFree_others (h : Laid g s) {k : Nat} {page : PageFileLocation}
    (found : s.allSpace.get? k = some page) (free : page.status = .pageFree) {size : Nat}
    (pos : 0 < size) (fits : size ≤ page.size) {f : PageFileLocation → PageFileLocation}
    (holds : Holds f) (is : s.allocInFree g page size = some (t, k)) {j : Nat}
    {other : PageFileLocation} (foundJ : s.allSpace.get? j = some other) (ne : j ≠ k) :
    (t.modify k f).allSpace.get? j = some other := by
  obtain ⟨pre, post, placed⟩ := SortedMap.split found
  obtain ⟨t', mid, fin, left, is', _, _, _, entries, _⟩ :=
    allocInFree_spec h placed free pos fits holds
  rw [is] at is'
  cases is'
  have mem := SortedMap.get?_eq_some_iff.mp foundJ
  rw [placed, List.mem_append, List.mem_cons] at mem
  refine SortedMap.get?_eq_some_iff.mpr ?_
  rw [entries, List.mem_append, List.mem_cons, List.mem_append]
  rcases mem with mem | here | mem
  · exact .inl mem
  · cases here
    exact absurd rfl ne
  · exact .inr (.inr (.inr mem))

/-- A turn that takes the first free location as a whole. -/
structure TakenWhole (g : Geometry) (s t₁ t : State) (it mid : Nat) (page : PageFileLocation)
    (former : Option Nat) (ks : List Nat) : Prop where
  alloc : Allocated g s t₁ it { page with status := .pagePart } mid
  linked : Written g t₁ t former fun b => { b with globOffNext := .globOffNext it }
  keys : t.freeSpace.keys = ks
  sizes : s.freeSizes = page.size :: t.freeSizes

theorem TakenWhole.bytes {t₁ : State} {it mid : Nat} {page : PageFileLocation}
    {former : Option Nat} {ks : List Nat} (taken : TakenWhole g s t₁ t it mid page former ks)
    (h : Laid g s) : freeBytes s = page.size + freeBytes t := by
  have all := congrArg List.sum taken.sizes
  rw [List.sum_cons] at all
  rw [h.freeBytes_eq, taken.linked.laid.freeBytes_eq]
  exact all

theorem takenWhole (h : Laid g s) {it : Nat} {ks : List Nat} {page : PageFileLocation}
    (keys : s.freeSpace.keys = it :: ks) (found : s.allSpace.get? it = some page)
    {former : Option Nat} (there : ∀ k, former = some k → ∃ b fin, (k, b, fin) ∈ s.held) :
    ∃ t₀ mid, s.allocInFree g page page.size = some (t₀, it) ∧
      TakenWhole g s (t₀.modify it fun b => { b with status := .pagePart })
        (linkFormer former it (t₀.modify it fun b => { b with status := .pagePart })) it mid page
        former ks := by
  obtain ⟨page', found', free, pagePos, _⟩ := h.get?_free (k := it) (by
    rw [keys]
    exact List.mem_cons_self)
  rw [found] at found'
  cases found'
  have holds := holds_status .pagePart (by decide)
  obtain ⟨t₀, mid, is, alloc, whole⟩ := allocInFree_allocated h found free pagePos le_rfl holds
  have linked := linkFormer_written alloc.laid
    (fun k isFormer => by
      obtain ⟨b, fin, mem⟩ := there k isFormer
      exact ⟨b, fin, alloc.same _ mem⟩) it
  have keysNow := (whole rfl).2 ks keys
  rw [← linked.freeSpace] at keysNow
  refine ⟨t₀, mid, is, ⟨alloc, linked, keysNow, ?_⟩⟩
  rw [freeSizes_cons keys found, State.freeSizes_eq, keysNow]
  congr 1
  refine List.filterMap_congr fun j mem => ?_
  have sorted := s.freeSpace.sorted_keys
  rw [keys] at sorted
  have ne : j ≠ it := ((List.pairwise_cons.mp sorted).1 j mem).ne'
  obtain ⟨other, foundJ, _⟩ := h.get?_free (k := j) (by
    rw [keys]
    exact List.mem_cons_of_mem it mem)
  have same := allocInFree_others h found free pagePos le_rfl holds is foundJ ne
  rw [foundJ, ← same]
  cases former with
  | none => rfl
  | some former => exact (modify_size (keeps_next _) _ former j).symm

theorem held_keys_nodup (s : State) : (s.held.map Prod.fst).Nodup :=
  List.pairwise_map.mpr ((held_sorted s).imp fun less => less.ne)

theorem Allocated.fresh {k mid : Nat} {a : PageFileLocation} (alloc : Allocated g s t k a mid) :
    ∀ e ∈ s.held, e.1 ≠ k := by
  rintro e mem rfl
  have nodup := alloc.keys.nodup_iff.mp (held_keys_nodup t)
  exact (List.nodup_cons.mp nodup).1 (List.mem_map_of_mem mem)

section
variable {s₁ s₂ s₃ : State} {it mid chunk : Nat} {a : PageFileLocation} {former : Option Nat}

/-- The turn that allocates what is left to allocate. -/
theorem Placed.last {size : Nat} (alloc : Allocated g s s₁ it a mid)
    (linked : Written g s₁ s₂ former fun b => { b with globOffNext := .globOffNext it })
    (ended : Written g s₂ s₃ (some it) fun b => { b with globOffNext := .chunk chunk })
    (there : ∀ k, former = some k → ∃ b fin, (k, b, fin) ∈ s.held)
    (isEnd : a.status = .pageEnd) (is : a.size = size) :
    Placed g s s₃ former chunk [it] size := by
  have apart : some it ≠ former := by
    rintro rfl
    obtain ⟨b, fin, mem⟩ := there it rfl
    exact alloc.fresh _ mem rfl
  have notHere : ∀ e ∈ s.held, some e.1 ≠ some it := fun e mem eq =>
    alloc.fresh e mem (by cases eq; rfl)
  exact {
    laid := ended.laid
    only := (alloc.only.trans linked.only).trans ended.only
    balance := by
      rw [ended.swapFree, ended.tails, linked.swapFree, linked.tails]
      exact alloc.balance
    keys := by
      rw [ended.keys, linked.keys]
      exact alloc.keys
    built := ⟨_, (get?_of_held (ended.written it a mid rfl (linked.same _ alloc.new apart))).1,
      isEnd, rfl, is⟩
    same := fun e mem ne => ended.same e (linked.same e (alloc.same e mem) ne) (notHere e mem)
    linked := fun k b fin isFormer mem =>
      ended.same _ (linked.written k b fin isFormer (alloc.same _ mem))
        (notHere (k, b, fin) mem) }

/-- A turn that takes a location as a whole, and the turns behind it. -/
theorem Placed.step {parts : List Nat} {size : Nat} (alloc : Allocated g s s₁ it a mid)
    (linked : Written g s₁ s₂ former fun b => { b with globOffNext := .globOffNext it })
    (rest : Placed g s₂ s₃ (some it) chunk parts (size - a.size))
    (there : ∀ k, former = some k → ∃ b fin, (k, b, fin) ∈ s.held)
    (part : a.status = .pagePart) (aligned : g.memoryAlignment ∣ a.size) (le : a.size ≤ size) :
    Placed g s s₃ former chunk (it :: parts) size := by
  have apart : some it ≠ former := by
    rintro rfl
    obtain ⟨b, fin, mem⟩ := there it rfl
    exact alloc.fresh _ mem rfl
  have notHere : ∀ e ∈ s.held, some e.1 ≠ some it := fun e mem eq =>
    alloc.fresh e mem (by cases eq; rfl)
  exact {
    laid := rest.laid
    only := (alloc.only.trans linked.only).trans rest.only
    balance := by
      rw [rest.balance, linked.swapFree, linked.tails]
      exact alloc.balance
    keys := by
      refine rest.keys.trans ?_
      rw [linked.keys]
      exact (alloc.keys.append_left parts).trans List.perm_middle
    built := by
      have built := rest.built
      have here := rest.linked it a mid rfl (linked.same _ alloc.new apart)
      cases parts with
      | nil => exact built.elim
      | cons k' ks => exact ⟨_, (get?_of_held here).1, part, rfl, aligned, le, built⟩
    same := fun e mem ne => rest.same e (linked.same e (alloc.same e mem) ne) (notHere e mem)
    linked := fun k b fin isFormer mem =>
      rest.same _ (linked.written k b fin isFormer (alloc.same _ mem))
        (notHere (k, b, fin) mem) }

end

theorem after_first {m : SortedMap Nat Unit} {k : Nat} {ks : List Nat} (keys : m.keys = k :: ks) :
    (m.after k).map Prod.fst = ks.head? := by
  obtain ⟨e, l, found, rfl, rfl⟩ := List.map_eq_cons_iff.mp keys
  rw [SortedMap.after_of_place (show m.entries = [] ++ (e.1, e.2) :: l from found), List.head?_map]

/-- The loop finds all of `size` in the free locations. -/
theorem concat_spec (chunk : Nat) : ∀ (fuel : Nat) {s : State} {it : Nat} {ks : List Nat}
    (size : Nat) (res former : Option Nat), Laid g s →
    s.freeSpace.keys = it :: ks → 0 < size → size ≤ freeBytes s → (it :: ks).length ≤ fuel →
    (∀ k, former = some k → ∃ b fin, (k, b, fin) ∈ s.held) →
    ∃ t parts, State.concat g chunk fuel s it size res former =
        .found t (res.getD (parts.headD 0)) ∧ Placed g s t former chunk parts size := by
  intro fuel
  induction fuel with
  | zero =>
      intro s it ks size res former _ _ _ _ enough
      simp at enough
  | succ fuel ih =>
      intro s it ks size res former h keys pos fits enough there
      obtain ⟨page, found, free, pagePos, aligned, _⟩ :=
        h.get?_free (k := it) (by rw [keys]; exact List.mem_cons_self)
      by_cases more : page.size < size
      · -- the location is taken as a whole and becomes a part
        have here : (if min page.size size < size then
            min page.size size - min page.size size % g.memoryAlignment
            else min page.size size) = page.size := by
          rw [Nat.min_eq_left more.le, if_pos more, Nat.mod_eq_zero_of_dvd aligned, Nat.sub_zero]
        have left : ¬ size - page.size = 0 := by omega
        obtain ⟨t₀, mid, is, taken⟩ := takenWhole h keys found there
        have bytes := taken.bytes h
        obtain ⟨alloc, linked, keysNow, _⟩ := taken
        cases ks with
        | nil =>
            have isZero := linked.laid.freeBytes_zero keysNow
            omega
        | cons k' ks =>
            have apart : some it ≠ former := by
              rintro rfl
              obtain ⟨b, fin, mem⟩ := there it rfl
              exact alloc.fresh _ mem rfl
            obtain ⟨t, parts, is', placed⟩ := ih (size - page.size) (some (res.getD it)) (some it)
              linked.laid keysNow (by omega) (by omega)
              (Nat.le_of_succ_le_succ enough)
              (fun k isFormer => by
                cases isFormer
                exact ⟨_, mid, linked.same _ alloc.new apart⟩)
            refine ⟨t, it :: parts, ?_, placed.step alloc linked there rfl aligned more.le⟩
            have first := after_first keys
            have mem : k' ∈ (linkFormer former it (t₀.modify it fun b =>
                { b with status := .pagePart })).freeSpace.keys := by
              rw [keysNow]
              exact List.mem_cons_self
            simp only [State.concat, found, here, is, if_neg left, first, List.head?_cons]
            cases former with
            | none =>
                simp only [linkFormer] at mem is'
                simp only [Option.filter_some, mem, decide_true, if_true]
                exact is'
            | some former =>
                simp only [linkFormer] at mem is'
                simp only [Option.filter_some, mem, decide_true, if_true]
                exact is'
      · -- the location is large enough for what is left
        have le : size ≤ page.size := Nat.le_of_not_lt more
        have here : (if min page.size size < size then
            min page.size size - min page.size size % g.memoryAlignment
            else min page.size size) = size := by
          rw [Nat.min_eq_right le, if_neg (Nat.lt_irrefl size)]
        obtain ⟨t₀, mid, is, alloc, _⟩ := allocInFree_allocated h found free pos le
          (holds_status .pageEnd (by decide))
        have linked := linkFormer_written alloc.laid
          (fun k isFormer => by
            obtain ⟨b, fin, mem⟩ := there k isFormer
            exact ⟨b, fin, alloc.same _ mem⟩) it
        have apart : some it ≠ former := by
          rintro rfl
          obtain ⟨b, fin, mem⟩ := there it rfl
          exact alloc.fresh _ mem rfl
        have ended := modify_written linked.laid (linked.same _ alloc.new apart)
          (keeps_next (.chunk chunk))
        refine ⟨_, [it], ?_, Placed.last alloc linked ended there rfl rfl⟩
        simp only [State.concat, found, here, is, Nat.sub_self, if_true]
        cases former with
        | none => rfl
        | some former => rfl

/-! ### What `cleanupCachedElements` drops -/

/-- The bytes of a chain, added up in the order of the keys. -/
theorem chainSize_eq {parts : List Nat} (nodup : parts.Nodup)
    (held : ∀ k ∈ parts, k ∈ s.held.map Prod.fst) :
    s.chainSize parts = heldBytes (s.held.filter fun e => e.1 ∈ parts) := by
  have perm : parts.Perm ((s.held.filter fun e => e.1 ∈ parts).map Prod.fst) := by
    refine (List.perm_ext_iff_of_nodup nodup
      ((List.filter_sublist.map _).nodup (held_keys_nodup s))).mpr fun k => ?_
    simp only [List.mem_map, List.mem_filter, decide_eq_true_eq]
    constructor
    · intro mem
      obtain ⟨e, memE, rfl⟩ := List.mem_map.mp (held k mem)
      exact ⟨e, ⟨memE, mem⟩, rfl⟩
    · rintro ⟨e, ⟨_, mem⟩, rfl⟩
      exact mem
  rw [State.chainSize, (perm.map _).sum_eq, List.map_map, heldBytes]
  congr 1
  refine List.map_congr_left fun e mem => ?_
  obtain ⟨k, b, fin⟩ := e
  simp only [Function.comp_apply, (get?_of_held (List.mem_filter.mp mem).1).1, Option.map_some,
    Option.getD_some]

theorem chainSize_congr {parts : List Nat}
    (same : ∀ k ∈ parts, t.allSpace.get? k = s.allSpace.get? k) :
    t.chainSize parts = s.chainSize parts := by
  rw [State.chainSize, State.chainSize]
  congr 1
  exact List.map_congr_left fun k mem => by rw [same k mem]

/-- Each of these chunks that may drop its swap copy owns the allocation it lies in. -/
def Caches (s : State) (live : List Allocation) (chunks : List (Nat × Chunk)) : Prop :=
  ∀ e ∈ chunks, ∀ buf, State.cachedBuf e.2 = some buf →
    ∃ a ∈ live, a.chunk = e.1 ∧ a.head = buf ∧ s.chainSize a.parts = e.2.size

/-- What the loop of `cleanupCachedElements` adds up. -/
def cleanedUp (minimumSize : Nat) : List (Nat × Chunk) → Nat → Nat
  | [], cleaned => cleaned
  | (_, chunk) :: it, cleaned =>
      if minimumSize = 0 ∨ cleaned < minimumSize then
        match State.cachedBuf chunk with
        | some _ => cleanedUp minimumSize it (cleaned + chunk.size)
        | none => cleanedUp minimumSize it cleaned
      else cleaned

/-- The allocations `dropped` of cached copies have been freed, and `kept` are left. -/
structure Released (g : Geometry) (s t : State) (live dropped kept : List Allocation) : Prop where
  represents : Represents g t kept
  split : live.Perm (dropped ++ kept)
  held : ∀ e, e ∈ t.held ↔ e ∈ s.held ∧ e.1 ∉ dropped.flatMap Allocation.parts
  cached : ∀ a ∈ dropped, ∃ c, s.memChunks.get? a.chunk = some c ∧
    State.cachedBuf c = some a.head
  memChunks : ∀ id, t.memChunks.get? id = if id ∈ dropped.map Allocation.chunk
    then (s.memChunks.get? id).map fun c => { c with swapBuf := none } else s.memChunks.get? id
  only : OnlySpace { s with memChunks := t.memChunks } t

theorem Released.refl {live : List Allocation} (h : Represents g s live) :
    Released g s s live [] live where
  represents := h
  split := List.Perm.refl live
  held := fun _ => (and_iff_left List.not_mem_nil).symm
  cached := fun _ mem => absurd mem List.not_mem_nil
  memChunks := fun _ => (if_neg List.not_mem_nil).symm
  only := rfl

/-- The parts of the live allocations are all different. -/
theorem Represents.parts_nodup {live : List Allocation} (h : Represents g s live) :
    (live.flatMap Allocation.parts).Nodup :=
  h.owned.nodup_iff.mpr (held_keys_nodup s)

theorem Represents.disjoint {a b : Allocation} {live : List Allocation}
    (h : Represents g s (a :: live)) (mem : b ∈ live) : ∀ k ∈ b.parts, k ∉ a.parts := by
  intro k memB memA
  have nodup := h.parts_nodup
  rw [List.flatMap_cons, List.nodup_append] at nodup
  exact nodup.2.2 k memA k (List.mem_flatMap.mpr ⟨b, mem, memB⟩) rfl

/-- What is not freed is where it was. -/
theorem get?_of_kept {live : List Allocation} {dropped : List Nat} (h : Represents g s live)
    (held : ∀ e, e ∈ t.held ↔ e ∈ s.held ∧ e.1 ∉ dropped) {a : Allocation} (mem : a ∈ live)
    {k : Nat} (memK : k ∈ a.parts) (not : k ∉ dropped) : t.allSpace.get? k = s.allSpace.get? k := by
  obtain ⟨b, found, notFree⟩ := (h.chained a mem).held memK
  obtain ⟨fin, memHeld⟩ := held_of_get? found notFree
  rw [found]
  exact (get?_of_held ((held _).mpr ⟨memHeld, not⟩)).1

theorem Represents.setChunks {live : List Allocation} (h : Represents g s live)
    (chunks : SortedMap Nat Chunk) : Represents g { s with memChunks := chunks } live where
  laid := ⟨h.laid.tiles, h.laid.merged, h.laid.free⟩
  files := h.files
  chained := h.chained
  owned := h.owned
  balanced := h.balanced

/-- A cached copy is dropped, and then those in `dropped`. -/
theorem Released.cons {live kept dropped : List Allocation} {a : Allocation} {c : Chunk}
    (freed : ∀ e, e ∈ t.held ↔ e ∈ s.held ∧ e.1 ∉ a.parts) (only : OnlySpace s t)
    (found : s.memChunks.get? a.chunk = some c) (cached : State.cachedBuf c = some a.head)
    (rest : Released g
      { t with memChunks := t.memChunks.insert a.chunk { c with swapBuf := none } } u live dropped
      kept) :
    Released g s u (a :: live) (a :: dropped) kept := by
  have chunks := only.memChunks
  exact {
    represents := rest.represents
    split := rest.split.cons a
    held := by
      intro e
      have first : e ∈ State.held { t with
          memChunks := t.memChunks.insert a.chunk { c with swapBuf := none } } ↔
          e ∈ s.held ∧ e.1 ∉ a.parts := freed e
      rw [rest.held e, first, List.flatMap_cons, List.mem_append, not_or, and_assoc]
    cached := by
      intro b mem
      rcases List.mem_cons.mp mem with rfl | mem
      · exact ⟨c, found, cached⟩
      · obtain ⟨d, foundD, cachedD⟩ := rest.cached b mem
        simp only [SortedMap.get?_insert, chunks] at foundD
        split at foundD
        · cases foundD
          simp [State.cachedBuf] at cachedD
        · exact ⟨d, foundD, cachedD⟩
    memChunks := by
      intro id
      rw [rest.memChunks id]
      simp only [SortedMap.get?_insert, chunks, List.map_cons, List.mem_cons]
      by_cases here : id = a.chunk
      · cases here
        simp [found]
      · simp [here]
    only := by
      have second := rest.only
      rw [OnlySpace] at only second ⊢
      rw [second, only] }

/-- The loop of `cleanupCachedElements`. -/
theorem cleanupLoop_spec (minimumSize : Nat) : ∀ (chunks : List (Nat × Chunk)) {s : State}
    {live : List Allocation} (cleaned : Nat), Represents g s live → Caches s live chunks →
    (∀ e ∈ chunks, s.memChunks.get? e.1 = some e.2) → (chunks.map Prod.fst).Nodup →
    ∃ t dropped kept, State.cleanupLoop g minimumSize chunks s cleaned =
        some (t, cleanedUp minimumSize chunks cleaned) ∧ Released g s t live dropped kept ∧
      cleanedUp minimumSize chunks cleaned =
        cleaned + (dropped.map fun a => s.chainSize a.parts).sum := by
  intro chunks
  induction chunks with
  | nil =>
      intro s live cleaned h _ _ _
      exact ⟨s, [], live, rfl, Released.refl h, rfl⟩
  | cons e chunks ih =>
      intro s live cleaned h caches there nodup
      obtain ⟨id, chunk⟩ := e
      obtain ⟨fresh, nodup⟩ := List.nodup_cons.mp nodup
      have there' := fun e mem => there e (List.mem_cons_of_mem _ mem)
      by_cases goes : minimumSize = 0 ∨ cleaned < minimumSize
      · cases cached : State.cachedBuf chunk with
        | none =>
            obtain ⟨t, dropped, kept, is, released, sum⟩ := ih cleaned h
              (fun e mem => caches e (List.mem_cons_of_mem _ mem)) there' nodup
            refine ⟨t, dropped, kept, ?_, released, ?_⟩
            · simp only [State.cleanupLoop, cleanedUp, if_pos goes, cached]
              exact is
            · simp only [cleanedUp, if_pos goes, cached]
              exact sum
        | some buf =>
            obtain ⟨a, memA, isChunk, isHead, isSize⟩ := caches _ List.mem_cons_self buf cached
            obtain ⟨live', perm⟩ : ∃ live', live.Perm (a :: live') :=
              ⟨live.erase a, List.perm_cons_erase memA⟩
            have first := h.perm perm
            obtain ⟨t₀, freed, rep, only, held⟩ := pffree_spec first
            have sizes : ∀ b ∈ live', t₀.chainSize b.parts = s.chainSize b.parts := fun b memB =>
              chainSize_congr fun k memK => get?_of_kept h held
                (perm.mem_iff.mpr (List.mem_cons_of_mem _ memB)) memK
                (first.disjoint memB k memK)
            have others : ∀ e ∈ chunks, e.1 ≠ id := by
              rintro e mem rfl
              exact fresh (List.mem_map.mpr ⟨e, mem, rfl⟩)
            obtain ⟨t, dropped, kept, is, released, sum⟩ := ih (cleaned + chunk.size)
              (rep.setChunks (t₀.memChunks.insert id { chunk with swapBuf := none }))
              (by
                intro e mem buf' cached'
                obtain ⟨b, memB, isChunkB, isHeadB, isSizeB⟩ :=
                  caches e (List.mem_cons_of_mem _ mem) buf' cached'
                rcases List.mem_cons.mp (perm.mem_iff.mp memB) with rfl | memB
                · exact absurd (isChunkB.symm.trans isChunk) (others e mem)
                · exact ⟨b, memB, isChunkB, isHeadB, (sizes b memB).trans isSizeB⟩)
              (by
                intro e mem
                simp only [SortedMap.get?_insert, if_neg (others e mem), only.memChunks]
                exact there' e mem) nodup
            cases isChunk
            refine ⟨t, a :: dropped, kept, ?_, ?_, ?_⟩
            · simp only [State.cleanupLoop, cleanedUp, if_pos goes, cached]
              rw [← isHead, freed]
              exact is
            · have all := Released.cons held only (there _ List.mem_cons_self)
                (by rw [isHead]; exact cached) released
              exact { all with split := perm.trans all.split }
            · have here : (dropped.map fun b => t₀.chainSize b.parts) =
                  dropped.map fun b => s.chainSize b.parts :=
                List.map_congr_left fun b memB =>
                  sizes b (released.split.mem_iff.mpr (List.mem_append_left _ memB))
              change _ = _ + (dropped.map fun b => t₀.chainSize b.parts).sum at sum
              rw [here] at sum
              simp only [cleanedUp, if_pos goes, cached, List.map_cons, List.sum_cons]
              rw [sum, isSize, Nat.add_assoc]
      · refine ⟨s, [], live, ?_, Released.refl h, ?_⟩
        · simp only [State.cleanupLoop, cleanedUp, if_neg goes]
        · simp only [cleanedUp, if_neg goes, List.map_nil, List.sum_nil, Nat.add_zero]

/-! ### The result of `pfmalloc` -/

/-- Free locations are aligned, so nothing is lost when they are added up. -/
theorem totalSpace_spec (size : Nat) : ∀ (l : List PageFileLocation) {total : Nat},
    (∀ page ∈ l, g.memoryAlignment ∣ page.size) → g.memoryAlignment ∣ total →
    State.totalSpace g size l total ≤ total + (l.map PageFileLocation.size).sum ∧
      (State.totalSpace g size l total < size →
        State.totalSpace g size l total = total + (l.map PageFileLocation.size).sum) := by
  intro l
  induction l with
  | nil =>
      intro total _ _
      exact ⟨le_rfl, fun _ => rfl⟩
  | cons page l ih =>
      intro total aligned whole
      have next := whole.add (aligned page List.mem_cons_self)
      rw [State.totalSpace, Nat.mod_eq_zero_of_dvd whole, Nat.sub_zero, List.map_cons,
        List.sum_cons]
      split
      · obtain ⟨le, eq⟩ := ih (fun p mem => aligned p (List.mem_cons_of_mem _ mem)) next
        exact ⟨by omega, fun less => by rw [eq less, Nat.add_assoc]⟩
      · exact ⟨by omega, fun less => by omega⟩

/-- The sum of the free locations is all that is free, as far as it is needed. -/
theorem Laid.totalSpace (h : Laid g s) (size : Nat) :
    (size ≤ freeBytes s → size ≤ State.totalSpace g size s.freeLocations 0) ∧
      (freeBytes s < size → State.totalSpace g size s.freeLocations 0 = freeBytes s) := by
  have aligned : ∀ page ∈ s.freeLocations, g.memoryAlignment ∣ page.size := fun page mem =>
    (h.mem_freeLocations mem).choose_spec.2.2
  obtain ⟨le, eq⟩ := totalSpace_spec size s.freeLocations aligned (Nat.dvd_zero _)
  rw [Nat.zero_add, ← h.freeBytes_eq] at le eq
  constructor
  · intro fits
    by_contra less
    have all := eq (Nat.lt_of_not_le less)
    omega
  · intro more
    exact eq (le.trans_lt more)

theorem pfmalloc_null (empty : s.freeSpace.keys = []) (size chunk : Nat) :
    s.pfmalloc g size chunk = .null s := by
  rw [State.pfmalloc, empty]

/-- There is room in the free locations. -/
theorem pfmalloc_free (h : Laid g s) {size : Nat} (pos : 0 < size) (fits : size ≤ freeBytes s)
    (chunk : Nat) :
    ∃ t parts, s.pfmalloc g size chunk = .found t (parts.headD 0) ∧
      Placed g s t none chunk parts size := by
  obtain ⟨it, ks, keys⟩ : ∃ it ks, s.freeSpace.keys = it :: ks := by
    cases keys : s.freeSpace.keys with
    | nil =>
        have zero := h.freeBytes_zero keys
        omega
    | cons it ks => exact ⟨it, ks, rfl⟩
  cases first : s.freeLocations.find? fun it => size ≤ it.size with
  | some page =>
      have fitsPage : size ≤ page.size := by simpa using List.find?_some first
      obtain ⟨k, found, free, _⟩ := h.mem_freeLocations (List.mem_of_find?_eq_some first)
      obtain ⟨t, mid, is, alloc, _⟩ := allocInFree_allocated h found free pos fitsPage
        (f := fun b => { b with status := .pageEnd, globOffNext := .chunk chunk })
        ⟨fun _ => rfl, fun _ => rfl, fun _ => rfl, fun _ is => by cases is⟩
      refine ⟨t.modify k fun b => { b with status := .pageEnd, globOffNext := .chunk chunk }, [k],
        ?_, ?_⟩
      · simp only [State.pfmalloc, keys, first, is]
        rfl
      · exact {
          laid := alloc.laid
          only := alloc.only
          balance := alloc.balance
          keys := alloc.keys
          built := ⟨_, (get?_of_held alloc.new).1, rfl, rfl, rfl⟩
          same := fun e mem _ => alloc.same e mem
          linked := fun _ _ _ isFormer => by cases isFormer }
  | none =>
      have enough := (h.totalSpace size).1 fits
      obtain ⟨t, parts, is, placed⟩ := concat_spec chunk s.freeSpace.entries.length size
        none none h keys pos fits
        (by rw [← keys, SortedMap.keys, List.length_map]) (fun _ isFormer => by cases isFormer)
      refine ⟨t, parts, ?_, placed⟩
      simp only [State.pfmalloc, keys, first, if_neg (Nat.not_lt.mpr enough), if_pos enough]
      exact is

theorem chainSize_flatMap (s : State) (live : List Allocation) :
    s.chainSize (live.flatMap Allocation.parts) =
      (live.map fun a => s.chainSize a.parts).sum := by
  rw [State.chainSize, List.map_flatMap, List.flatMap, List.sum_flatten, List.map_map]
  rfl

/-- What has been cleaned up is free. -/
theorem Released.freeBytes {live dropped kept : List Allocation}
    (released : Released g s t live dropped kept) (h : Represents g s live) {cleaned : Nat}
    (sum : cleaned = 0 + (dropped.map fun a => s.chainSize a.parts).sum) :
    freeBytes s + cleaned ≤ freeBytes t := by
  obtain ⟨parts, isParts⟩ : ∃ parts, parts = dropped.flatMap Allocation.parts := ⟨_, rfl⟩
  have owned := (released.split.flatMap_right Allocation.parts).symm.trans h.owned
  rw [List.flatMap_append, ← isParts] at owned
  have nodup := owned.nodup_iff.mpr (held_keys_nodup s)
  have bytes := chainSize_eq (s := s) (List.nodup_append.mp nodup).1 fun k mem =>
    owned.mem_iff.mp (List.mem_append_left _ mem)
  have all : s.chainSize parts = (dropped.map fun a => s.chainSize a.parts).sum := by
    rw [isParts, chainSize_flatMap]
  have left : t.held = s.held.filter fun e => ¬ e.1 ∈ parts := by
    refine List.Perm.eq_of_pairwise (fun a b _ _ less less' => absurd less (Nat.lt_asymm less'))
      (held_sorted t) ((held_sorted s).filter _) ?_
    have distinct : ∀ s : State, s.held.Nodup := fun s =>
      List.Nodup.of_map Prod.fst (held_keys_nodup s)
    refine (List.perm_ext_iff_of_nodup (distinct t) ((distinct s).filter _)).mpr fun e => ?_
    rw [released.held e, List.mem_filter, isParts]
    simp
  have sums : spanned s.held =
      spanned (s.held.filter fun e => e.1 ∈ parts) + spanned t.held := by
    rw [left, ← spanned_append]
    refine (List.Perm.map _ ?_).sum_eq
    have perm := (List.filter_append_perm (fun e => decide (e.1 ∈ parts)) s.held).symm
    simpa only [decide_not] using perm
  have le := heldBytes_le_spanned h.laid (s.held.filter fun e => e.1 ∈ parts)
    fun e mem => (List.mem_filter.mp mem).1
  have before := h.laid.freeBytes_add_spanned
  have later := released.represents.laid.freeBytes_add_spanned
  have size : t.swapSize = s.swapSize := released.only.swapSize
  omega

/-- Every chunk of the manager that may drop its swap copy owns the allocation it lies in. -/
def Owners (s : State) (live : List Allocation) : Prop := Caches s live s.memChunks.entries

theorem cleanupCachedElements_spec {live : List Allocation} (h : Represents g s live)
    (owners : Owners s live) (minimumSize : Nat) :
    ∃ t dropped kept, s.cleanupCachedElements g minimumSize =
        some (t, decide (minimumSize < cleanedUp minimumSize s.memChunks.entries 0)) ∧
      Released g s t live dropped kept ∧
      freeBytes s + cleanedUp minimumSize s.memChunks.entries 0 ≤ freeBytes t := by
  obtain ⟨t, dropped, kept, is, released, sum⟩ := cleanupLoop_spec minimumSize s.memChunks.entries
    0 h owners (fun e mem => SortedMap.get?_eq_some_iff.mpr mem)
    (s.memChunks.sorted_keys.imp fun less => less.ne)
  refine ⟨t, dropped, kept, ?_, released, ?_⟩
  · rw [State.cleanupCachedElements, is]
    rfl
  · exact released.freeBytes h sum

theorem pfmalloc_none {live : List Allocation} (h : Represents g s live) (owners : Owners s live)
    {size : Nat} (nonempty : s.freeSpace.keys ≠ []) (more : freeBytes s < size) (chunk : Nat) :
    ∃ u dropped kept, Released g s u live dropped kept ∧
      (∃ result, s.cleanupCachedElements g (size - freeBytes s) = some (u, result)) ∧
      (size - freeBytes s < cleanedUp (size - freeBytes s) s.memChunks.entries 0 →
        ∃ t parts, s.pfmalloc g size chunk = .found t (parts.headD 0) ∧
          Placed g u t none chunk parts size) ∧
      (¬ size - freeBytes s < cleanedUp (size - freeBytes s) s.memChunks.entries 0 →
        s.pfmalloc g size chunk = .outOfSwapSpace u) := by
  obtain ⟨it, ks, keys⟩ := List.exists_cons_of_ne_nil nonempty
  have bytes := h.laid.freeBytes_eq
  have first : s.freeLocations.find? (fun it => size ≤ it.size) = none := by
    refine List.find?_eq_none.mpr fun page mem => ?_
    have le := List.single_le_sum (fun n _ => Nat.zero_le n) _
      (List.mem_map_of_mem (f := PageFileLocation.size) mem)
    simp only [decide_eq_true_eq]
    omega
  have total := (h.laid.totalSpace size).2 more
  obtain ⟨u, dropped, kept, is, released, room⟩ :=
    cleanupCachedElements_spec h owners (size - freeBytes s)
  refine ⟨u, dropped, kept, released, ⟨_, is⟩, fun enough => ?_, fun not => ?_⟩
  · have fits : size ≤ freeBytes u := by omega
    obtain ⟨it', ks', keys'⟩ : ∃ it ks, u.freeSpace.keys = it :: ks := by
      cases keys : u.freeSpace.keys with
      | nil =>
          have zero := released.represents.laid.freeBytes_zero keys
          omega
      | cons it ks => exact ⟨it, ks, rfl⟩
    obtain ⟨t, parts, is', placed⟩ := concat_spec chunk u.freeSpace.entries.length size
      none none released.represents.laid keys' (by omega) fits
      (by rw [← keys', SortedMap.keys, List.length_map]) (fun _ isFormer => by cases isFormer)
    refine ⟨t, parts, ?_, placed⟩
    have all : size ≤ freeBytes s + (size - freeBytes s) := by omega
    simp only [State.pfmalloc, keys, first, total, if_pos more, is, Option.map_some,
      decide_eq_true enough, if_true, if_pos all, keys']
    exact is'
  · simp only [State.pfmalloc, keys, first, total, if_pos more, is, Option.map_some,
      decide_eq_false not, Bool.false_eq_true, if_false, if_neg (Nat.not_le.mpr more)]

theorem Placed.represents {live : List Allocation} {chunk size : Nat} {parts : List Nat}
    (placed : Placed g s t none chunk parts size) (h : Represents g s live) :
    Represents g t (⟨parts, chunk⟩ :: live) where
  laid := placed.laid
  files := by
    have only := placed.only
    rw [OnlySpace.eq_1] at only
    rw [only]
    exact h.files
  chained := by
    intro a mem
    rcases List.mem_cons.mp mem with rfl | mem
    · exact placed.built.chained
    · refine (h.chained a mem).frame fun k _ b found not => ?_
      obtain ⟨fin, memHeld⟩ := held_of_get? found not
      exact (get?_of_held (placed.same _ memHeld (by simp))).1
  owned := (h.owned.append_left parts).trans placed.keys.symm
  balanced := by
    have before := h.balanced
    have balance := placed.balance
    rw [placed.only.swapUsed, placed.only.swapSize]
    omega

/-- The chain that `pfmalloc` returns for `chunk`, when it has dropped these cached copies. -/
structure NewChain (g : Geometry) (s t : State) (dropped : List Allocation) (chunk size : Nat)
    (parts : List Nat) : Prop where
  chained : Chained t.allSpace chunk parts
  distinct : parts.Nodup
  aligned : ∀ k ∈ parts.dropLast, ∀ b, t.allSpace.get? k = some b →
    b.status = .pagePart ∧ g.memoryAlignment ∣ b.size
  sum : t.chainSize parts = size
  /-- Its intervals were in no location that was allocated, the dropped ones apart. -/
  fresh : ∀ e ∈ t.held, e.1 ∈ parts → ∀ f ∈ s.held,
    f.1 ∉ dropped.flatMap Allocation.parts → e.2.2 ≤ f.1 ∨ f.2.2 ≤ e.1
  unchanged : ∀ e ∈ s.held, e.1 ∉ dropped.flatMap Allocation.parts → e ∈ t.held

theorem Placed.newChain {live dropped kept : List Allocation} {chunk size : Nat} {parts : List Nat}
    (released : Released g s u live dropped kept) (placed : Placed g u t none chunk parts size) :
    NewChain g s t dropped chunk size parts where
  chained := placed.built.chained
  distinct := by
    have nodup := placed.keys.nodup_iff.mp (held_keys_nodup t)
    exact (List.nodup_append.mp nodup).1
  aligned := placed.built.aligned
  sum := placed.built.chainSize
  fresh := by
    intro e memE memParts f memF not
    have inU := (released.held f).mpr ⟨memF, not⟩
    refine placed.laid.apart memE (placed.same f inU (by simp)) fun eq => ?_
    have nodup := placed.keys.nodup_iff.mp (held_keys_nodup t)
    exact (List.nodup_append.mp nodup).2.2 e.1 memParts f.1 (List.mem_map_of_mem inU) eq
  unchanged := fun e mem not => placed.same e ((released.held e).mpr ⟨mem, not⟩) (by simp)

/-- What `pfmalloc ( size, chunk )` may do. The allocations it drops are cached copies; with
`NULL` it has not even dropped one. -/
def PfmallocResult (g : Geometry) (s : State) (live : List Allocation) (size chunk : Nat) :
    State.Pfmalloc → Prop
  | .found t res => ∃ u parts dropped kept, Released g s u live dropped kept ∧
      t.memChunks = u.memChunks ∧ parts.head? = some res ∧
      Represents g t (⟨parts, chunk⟩ :: kept) ∧ NewChain g s t dropped chunk size parts
  | .null t => t = s
  | .outOfSwapSpace t => ∃ dropped kept, Released g s t live dropped kept
  | .fault => False

theorem Placed.result {live dropped kept : List Allocation} {chunk size : Nat} {parts : List Nat}
    (released : Released g s u live dropped kept) (placed : Placed g u t none chunk parts size) :
    PfmallocResult g s live size chunk (.found t (parts.headD 0)) := by
  refine ⟨u, parts, dropped, kept, released, placed.only.memChunks, ?_,
    placed.represents released.represents, placed.newChain released⟩
  cases parts with
  | nil => exact placed.built.elim
  | cons k ks => rfl

/-- The ends of `pfmalloc`. -/
theorem pfmalloc_cases {live : List Allocation} (h : Represents g s live) (owners : Owners s live)
    {size : Nat} (pos : 0 < size) (chunk : Nat) :
    (s.pfmalloc g size chunk = .null s ∧ s.freeSpace.keys = []) ∨
      (∃ u dropped kept t parts, Released g s u live dropped kept ∧
        s.pfmalloc g size chunk = .found t (parts.headD 0) ∧
        Placed g u t none chunk parts size) ∨
      ∃ u dropped kept, Released g s u live dropped kept ∧
        s.pfmalloc g size chunk = .outOfSwapSpace u := by
  by_cases empty : s.freeSpace.keys = []
  · exact .inl ⟨pfmalloc_null empty size chunk, empty⟩
  · by_cases fits : size ≤ freeBytes s
    · obtain ⟨t, parts, is, placed⟩ := pfmalloc_free h.laid pos fits chunk
      exact .inr (.inl ⟨s, [], live, t, parts, Released.refl h, is, placed⟩)
    · obtain ⟨u, dropped, kept, released, _, enough, not⟩ :=
        pfmalloc_none h owners empty (Nat.lt_of_not_le fits) chunk
      by_cases cleaned :
          size - freeBytes s < cleanedUp (size - freeBytes s) s.memChunks.entries 0
      · obtain ⟨t, parts, is, placed⟩ := enough cleaned
        exact .inr (.inl ⟨u, dropped, kept, t, parts, released, is, placed⟩)
      · exact .inr (.inr ⟨u, dropped, kept, released, not cleaned⟩)

theorem pfmalloc_result (g : Geometry) (s : State) (live : List Allocation)
    (h : Represents g s live) (owners : Owners s live) (size : Nat) (pos : 0 < size)
    (chunk : Nat) : PfmallocResult g s live size chunk (s.pfmalloc g size chunk) := by
  rcases pfmalloc_cases h owners pos chunk with ⟨is, _⟩ |
    ⟨u, dropped, kept, t, parts, released, is, placed⟩ | ⟨u, dropped, kept, released, is⟩
  · rw [is]
    rfl
  · rw [is]
    exact placed.result released
  · rw [is]
    exact ⟨dropped, kept, released⟩

theorem construct_represents (g : Geometry) (n : Nat) (enableDMA : Bool) (fileno : Nat → Nat) :
    Represents g (.construct g n enableDMA fileno) [] ∧
      Owners (.construct g n enableDMA fileno) [] := by
  obtain ⟨entries, swapSize, swapFree, swapUsed, number, chunks, laid⟩ :=
    construct_spec g n enableDMA fileno
  have held : (State.construct g n enableDMA fileno).held = [] := by
    rw [State.held, entries, kept_newFiles]
  constructor
  · exact {
      laid := laid
      files := by rw [swapSize, number]
      chained := fun a mem => by cases mem
      owned := by
        rw [held]
        exact List.Perm.refl []
      balanced := by
        rw [held, swapFree, swapUsed, swapSize]
        simp [tails] }
  · intro e mem
    rw [chunks] at mem
    cases mem

/-- A chunk that no file has room for is distributed over two of them. -/
theorem pfmalloc_result_two_files :
    0 < 1500 ∧ PfmallocResult kibFiles (.construct kibFiles 2 true id) [] 1500 7
      (State.pfmalloc kibFiles (.construct kibFiles 2 true id) 1500 7) :=
  ⟨by decide, pfmalloc_result kibFiles (.construct kibFiles 2 true id) []
    (construct_represents kibFiles 2 true id).1 (construct_represents kibFiles 2 true id).2 1500
    (by decide) 7⟩

end Rambrain.FileSwap
