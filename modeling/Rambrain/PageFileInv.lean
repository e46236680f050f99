import Rambrain.PageFile
import Rambrain.Lib.Tiling

/-!
The representation invariant of the allocator, and what freeing one location does.

`Laid` says that the locations of `all_space` tile the swap space, each inside one file, that
`free_space` has the free ones, and that no two free ones meet inside a file. `freePage_spec` is
the step lemma: of everything that is held, `pffree` takes away the location it frees, and gives
back its tail. `Laid.layout_eq` says that nothing else matters: what is held determines both maps.
-/

namespace Rambrain.FileSwap

open Lib

variable {g : Geometry} {s : State}

/-- The location, if it is not free. -/
def heldOf (b : PageFileLocation) : Option PageFileLocation :=
  if b.status = .pageFree then none else some b

/-- A location at `k` that has the space up to `fin` to itself. -/
structure Span (g : Geometry) (k : Nat) (b : PageFileLocation) (fin : Nat) : Prop where
  file : b.file = k / g.pageFileSize
  offset : b.offset = k % g.pageFileSize
  inside : ∀ p, k < p → p < fin → ¬ g.pageFileSize ∣ p
  aligned : g.memoryAlignment ∣ fin - k

/-- The interval `[k, fin)` of a location at `k`. -/
structure Extent (g : Geometry) (k : Nat) (b : PageFileLocation) (fin : Nat) : Prop extends
    Span g k b fin where
  size_pos : 0 < b.size
  size_le : b.size ≤ fin - k
  fills : b.status = .pageFree → b.size = fin - k

/-- Two neighbours may be joined where no file begins. -/
def Joins (g : Geometry) (p : Nat) : Prop := ¬ g.pageFileSize ∣ p

structure Laid (g : Geometry) (s : State) : Prop where
  tiles : Tiles (Extent g) 0 s.allSpace.entries s.swapSize
  merged : Merged (Joins g) heldOf s.allSpace.entries
  free : s.freeSpace.keys =
    (s.allSpace.entries.filter fun e => e.2.status = .pageFree).map Prod.fst

/-- What is held, with the ends of the intervals. -/
def State.held (s : State) : List (Nat × PageFileLocation × Nat) :=
  kept (shape heldOf s.allSpace.entries s.swapSize)

/-- What the allocator writes: the maps and `swapFree`. -/
def OnlySpace (s t : State) : Prop :=
  t = { s with allSpace := t.allSpace, freeSpace := t.freeSpace, swapFree := t.swapFree }

theorem OnlySpace.refl (s : State) : OnlySpace s s := rfl

theorem OnlySpace.trans {t u : State} (first : OnlySpace s t) (second : OnlySpace t u) :
    OnlySpace s u := by
  rw [OnlySpace] at first second ⊢
  rw [second, first]

theorem OnlySpace.swapSize {t : State} (only : OnlySpace s t) : t.swapSize = s.swapSize := by
  rw [OnlySpace.eq_1 s t] at only
  rw [only]

theorem OnlySpace.swapUsed {t : State} (only : OnlySpace s t) : t.swapUsed = s.swapUsed := by
  rw [OnlySpace.eq_1 s t] at only
  rw [only]

theorem OnlySpace.memChunks {t : State} (only : OnlySpace s t) : t.memChunks = s.memChunks := by
  rw [OnlySpace.eq_1 s t] at only
  rw [only]

theorem heldOf_eq_none {b : PageFileLocation} : heldOf b = none ↔ b.status = .pageFree := by
  unfold heldOf
  split <;> simp_all

theorem heldOf_of_ne {b : PageFileLocation} (not : b.status ≠ .pageFree) : heldOf b = some b :=
  if_neg not

theorem Span.globalOffset {k fin : Nat} {b : PageFileLocation} (span : Span g k b fin) :
    determineGlobalOffset g b = k := by
  rw [determineGlobalOffset, span.file, span.offset, Nat.mul_comm]
  exact Nat.div_add_mod k g.pageFileSize

theorem Span.offset_ne_zero {k fin : Nat} {b : PageFileLocation} (span : Span g k b fin) :
    b.offset ≠ 0 ↔ Joins g k := by
  rw [span.offset, Joins, Nat.dvd_iff_mod_eq_zero]

/-- No file begins between two places: they are in the same file. -/
theorem same_file {P k q : Nat} (pos : 0 < P) (le : k ≤ q) (never : ∀ p, k < p → p ≤ q → ¬ P ∣ p) :
    q / P = k / P ∧ q % P = k % P + (q - k) := by
  have next := Nat.div_add_mod k P
  have less := Nat.mod_lt k pos
  have below : q < P * (k / P + 1) := by
    by_contra not
    have step : P * (k / P + 1) = P * (k / P) + P := by ring
    exact never (P * (k / P + 1)) (by omega) (by omega) ⟨_, rfl⟩
  have same : q / P = k / P := by
    refine le_antisymm (Nat.lt_succ_iff.mp ((Nat.div_lt_iff_lt_mul pos).mpr ?_))
      (Nat.div_le_div_right le)
    rw [Nat.mul_comm]
    exact below
  refine ⟨same, ?_⟩
  have next' := Nat.div_add_mod q P
  rw [same] at next'
  omega

/-! ### What determines the maps -/

/-- `all_space` as a map from offsets to file, offset, size and status. -/
def State.layout (s : State) : List (Nat × Nat × Nat × Nat × PageChunkStatus) :=
  s.allSpace.entries.map fun e => (e.1, e.2.file, e.2.offset, e.2.size, e.2.status)

/-- The layout of a location, read off its interval. -/
def layoutOf (g : Geometry) (e : Nat × Option PageFileLocation × Nat) :
    Nat × Nat × Nat × Nat × PageChunkStatus :=
  match e.2.1 with
  | some b => (e.1, e.1 / g.pageFileSize, e.1 % g.pageFileSize, b.size, b.status)
  | none => (e.1, e.1 / g.pageFileSize, e.1 % g.pageFileSize, e.2.2 - e.1, .pageFree)

theorem layout_of_shape {lo hi : Nat} {l : List (Nat × PageFileLocation)}
    (tiles : Tiles (Extent g) lo l hi) :
    (l.map fun e => (e.1, e.2.file, e.2.offset, e.2.size, e.2.status)) =
      (shape heldOf l hi).map (layoutOf g) := by
  induction l generalizing lo with
  | nil => rfl
  | cons e l ih =>
      obtain ⟨begins, mid, less, extent, rest⟩ := tiles
      rw [List.map_cons, shape, List.map_cons, ih rest, rest.start_eq]
      congr 1
      rw [← begins] at extent
      by_cases free : e.2.status = .pageFree
      · have unheld := heldOf_eq_none.mpr free
        simp only [layoutOf, unheld, ← extent.file, ← extent.offset, ← extent.fills free, free]
      · simp only [layoutOf, heldOf_of_ne free, ← extent.file, ← extent.offset]

theorem keys_of_shape (l : List (Nat × PageFileLocation)) (hi : Nat) :
    ((l.filter fun e => e.2.status = .pageFree).map Prod.fst) =
      ((shape heldOf l hi).filter fun e => e.2.1 = none).map Prod.fst := by
  induction l with
  | nil => rfl
  | cons e l ih =>
      by_cases free : e.2.status = .pageFree
      · rw [List.filter_cons_of_pos (by simpa using free), shape,
          List.filter_cons_of_pos (by simpa using heldOf_eq_none.mpr free), List.map_cons,
          List.map_cons, ih]
      · rw [List.filter_cons_of_neg (by simpa using free), shape,
          List.filter_cons_of_neg (by simp [heldOf_of_ne free]), ih]

/-- What is held determines `all_space` and `free_space`. -/
theorem Laid.layout_eq {t : State} (h : Laid g s) (h' : Laid g t)
    (size : s.swapSize = t.swapSize) (same : s.held = t.held) :
    s.layout = t.layout ∧ s.freeSpace.keys = t.freeSpace.keys := by
  have tiles := h.tiles
  have shapes : shape heldOf s.allSpace.entries s.swapSize =
      shape heldOf t.allSpace.entries t.swapSize := by
    have same := same
    rw [State.held, State.held, size] at same
    rw [size] at tiles ⊢
    exact tiles.unique h'.tiles (fun k a mid extent p => extent.inside p) h.merged h'.merged same
  constructor
  · rw [State.layout, State.layout, layout_of_shape h.tiles, layout_of_shape h'.tiles, shapes]
  · rw [h.free, h'.free, keys_of_shape _ s.swapSize, keys_of_shape _ t.swapSize, shapes]

/-! ### Freeing a location -/

/-- The keys of the free locations of a list. -/
def freeKeys (l : List (Nat × PageFileLocation)) : List Nat :=
  (l.filter fun e => e.2.status = .pageFree).map Prod.fst

@[simp] theorem freeKeys_nil : freeKeys [] = [] := rfl

theorem freeKeys_append (l l' : List (Nat × PageFileLocation)) :
    freeKeys (l ++ l') = freeKeys l ++ freeKeys l' := by
  rw [freeKeys, List.filter_append, List.map_append]
  rfl

theorem freeKeys_cons_free {e : Nat × PageFileLocation} (l : List (Nat × PageFileLocation))
    (free : e.2.status = .pageFree) : freeKeys (e :: l) = e.1 :: freeKeys l := by
  rw [freeKeys, List.filter_cons_of_pos (by simpa using free), List.map_cons]
  rfl

theorem freeKeys_cons_held {e : Nat × PageFileLocation} (l : List (Nat × PageFileLocation))
    (not : e.2.status ≠ .pageFree) : freeKeys (e :: l) = freeKeys l := by
  rw [freeKeys, List.filter_cons_of_neg (by simpa using not)]
  rfl

theorem mem_of_mem_freeKeys {l : List (Nat × PageFileLocation)} {k : Nat} (mem : k ∈ freeKeys l) :
    ∃ b, (k, b) ∈ l ∧ b.status = .pageFree := by
  obtain ⟨e, memE, rfl⟩ := List.mem_map.mp mem
  obtain ⟨memE, free⟩ := List.mem_filter.mp memE
  exact ⟨e.2, memE, by simpa using free⟩

/-- No gap at the end of the list may be joined with what follows at `k`. -/
def Closed (g : Geometry) (l : List (Nat × PageFileLocation)) (k : Nat) : Prop :=
  ∀ e ∈ l.getLast?, e.2.status = .pageFree → ¬ Joins g k

section
variable {pre post : List (Nat × PageFileLocation)} {k fin : Nat} {page : PageFileLocation}

/-- Adjacent locations of which the second does not begin a file lie in one file. -/
theorem Span.join {k₁ : Nat} {b : PageFileLocation} (left : Span g k₁ b k) (less : k₁ < k)
    (right : Span g k page fin) (le : k ≤ fin) (joins : Joins g k) : Span g k₁ b fin where
  file := left.file
  offset := left.offset
  inside := by
    intro p above below
    rcases Nat.lt_trichotomy p k with before | rfl | behind
    · exact left.inside p above before
    · exact joins
    · exact right.inside p behind below
  aligned := by
    have remains : fin - k₁ = (fin - k) + (k - k₁) := by omega
    rw [remains]
    exact right.aligned.add left.aligned

/-- After `mergeBefore` the location begins where no gap precedes it. -/
theorem mergeBefore_spec (placed : s.allSpace.entries = pre ++ (k, page) :: post)
    (before : Tiles (Extent g) 0 pre k) (merged : Merged (Joins g) heldOf pre)
    (span : Span g k page fin) (less : k < fin) :
    ∃ all pre₁ k₁ page₁ x joined, s.mergeBefore g k page =
        ({ s with allSpace := all }, k₁, page₁) ∧
      all.entries = pre₁ ++ (k₁, x) :: post ∧ Span g k₁ page₁ fin ∧ k₁ ≤ k ∧
      page₁.size = page.size + (k - k₁) ∧ Tiles (Extent g) 0 pre₁ k₁ ∧
      Merged (Joins g) heldOf pre₁ ∧ Closed g pre₁ k₁ ∧
      kept (shape heldOf pre₁ k₁) = kept (shape heldOf pre k) ∧
      freeKeys pre = freeKeys pre₁ ++ joined ∧ (joined = [] ∨ joined = [k₁]) := by
  have last := SortedMap.before_of_place placed
  by_cases joins : page.offset ≠ 0 ∧ ∃ e ∈ pre.getLast?, e.2.status = .pageFree
  · obtain ⟨offset, ⟨k₁, prev⟩, lastIs, free⟩ := joins
    obtain ⟨pre₁, rfl⟩ := List.getLast?_eq_some_iff.mp lastIs
    obtain ⟨k', tiles, less', extent, rfl⟩ := tiles_place.mp before
    have erased := SortedMap.erase_of_place placed
    rw [List.append_assoc] at erased
    refine ⟨s.allSpace.erase k', pre₁, k₁, { prev with size := prev.size + page.size }, prev, [k₁],
      ?_, erased, ?_, less'.le, ?_, tiles, merged.left, ?_, ?_, ?_, .inr rfl⟩
    · have both : page.offset ≠ 0 ∧ prev.status = .pageFree := ⟨offset, free⟩
      unfold State.mergeBefore
      rw [last, List.getLast?_concat]
      simp only [if_pos both, extent.globalOffset]
    · exact Span.join (b := { prev with size := prev.size + page.size })
        ⟨extent.file, extent.offset, extent.inside, extent.aligned⟩ less' span less.le
        (span.offset_ne_zero.mp offset)
    · simp only
      rw [extent.fills free, Nat.add_comm]
    · intro e memE freeE
      have step := (List.isChain_append.mp merged).2.2 e memE (k₁, prev) rfl
      exact step (heldOf_eq_none.mpr freeE) (heldOf_eq_none.mpr free)
    · rw [shape_append, kept_append]
      simp [shape, kept, heldOf_eq_none.mpr free]
    · rw [freeKeys_append, freeKeys_cons_free [] free]
      rfl
  · refine ⟨s.allSpace, pre, k, page, page, [], ?_, placed, span, le_rfl, by simp, before,
      merged, ?_,
      rfl, (List.append_nil _).symm, .inl rfl⟩
    · unfold State.mergeBefore
      rw [last]
      cases lastIs : pre.getLast? with
      | none => rfl
      | some e =>
          have not : ¬ (page.offset ≠ 0 ∧ e.2.status = .pageFree) := fun both =>
            joins ⟨both.1, e, lastIs, both.2⟩
          simp only [if_neg not]
    · intro e memE freeE joinsK
      exact joins ⟨span.offset_ne_zero.mpr joinsK, e, memE, freeE⟩

theorem reclaimTail_spec {k₁ : Nat} {x : PageFileLocation}
    (placed : s.allSpace.entries = pre ++ (k₁, x) :: post)
    (behind : Tiles (Extent g) fin post s.swapSize) (page₁ : PageFileLocation) :
    s.reclaimTail g k₁ page₁ =
      ({ s with swapFree := s.swapFree + ((fin - k₁ : Nat) - page₁.size) },
        { page₁ with size := fin - k₁ }) := by
  have next := SortedMap.after_of_place placed
  have offset : s.nextoff g k₁ = fin := by
    unfold State.nextoff
    rw [next]
    cases post with
    | nil => exact behind.symm
    | cons e post =>
        obtain ⟨begins, mid, _, extent, _⟩ := behind
        rw [← begins] at extent ⊢
        exact extent.globalOffset
  unfold State.reclaimTail
  rw [offset]

/-- After `mergeAfter` no gap follows the location. -/
theorem mergeAfter_spec (s : State) {k₁ : Nat} {x page₁ : PageFileLocation} {l : List Nat}
    (placed : s.allSpace.entries = pre ++ (k₁, x) :: post)
    (behind : Tiles (Extent g) fin post s.swapSize) (merged : Merged (Joins g) heldOf post)
    (span : Span g k₁ page₁ fin) (less : k₁ < fin) (size : page₁.size = fin - k₁)
    (free : s.freeSpace.keys = l ++ freeKeys post) :
    ∃ all frees post₁ fin₁ page₂, s.mergeAfter g k₁ page₁ =
        ({ s with allSpace := all, freeSpace := frees }, page₂) ∧
      all.entries = pre ++ (k₁, x) :: post₁ ∧ Span g k₁ page₂ fin₁ ∧ fin ≤ fin₁ ∧
      page₂.size = fin₁ - k₁ ∧ Tiles (Extent g) fin₁ post₁ s.swapSize ∧
      Merged (Joins g) heldOf post₁ ∧
      (∀ e ∈ post₁.head?, e.2.status = .pageFree → ¬ Joins g e.1) ∧
      kept (shape heldOf post₁ s.swapSize) = kept (shape heldOf post s.swapSize) ∧
      frees.keys = l ++ freeKeys post₁ := by
  have next := SortedMap.after_of_place placed
  by_cases joins : ∃ e ∈ post.head?, e.2.offset ≠ 0 ∧ e.2.status = .pageFree
  · obtain ⟨⟨k₂, n⟩, headIs, offset, isFree⟩ := joins
    obtain ⟨post₁, rfl⟩ := List.head?_eq_some_iff.mp headIs
    obtain ⟨begins, fin₁, less₁, extent, rest⟩ := behind
    cases begins
    have parts : s.allSpace.entries = (pre ++ [(k₁, x)]) ++ (k₂, n) :: post₁ := by
      rw [placed]
      simp
    have erased := SortedMap.erase_of_place parts
    rw [List.append_assoc] at erased
    rw [freeKeys_cons_free post₁ isFree] at free
    refine ⟨s.allSpace.erase k₂, s.freeSpace.erase k₂, post₁, fin₁,
      { page₁ with size := page₁.size + n.size }, ?_, erased, ?_, less₁.le, ?_, rest, ?_, ?_, ?_,
      SortedMap.keys_erase free⟩
    · have both : n.offset ≠ 0 ∧ n.status = .pageFree := ⟨offset, isFree⟩
      unfold State.mergeAfter
      rw [next]
      simp only [List.head?_cons, if_pos both, extent.globalOffset]
    · exact Span.join (b := { page₁ with size := page₁.size + n.size })
        ⟨span.file, span.offset, span.inside, span.aligned⟩ less extent.toSpan less₁.le
        (extent.offset_ne_zero.mp offset)
    · have fills : n.size = fin₁ - k₂ := extent.fills isFree
      simp only
      rw [size, fills]
      omega
    · exact merged.right (l := [(k₂, n)])
    · intro e memE freeE
      obtain ⟨rest', rfl⟩ := List.head?_eq_some_iff.mp memE
      exact (List.isChain_cons_cons.mp merged).1 (heldOf_eq_none.mpr isFree)
        (heldOf_eq_none.mpr freeE)
    · rw [shape]
      simp [kept, heldOf_eq_none.mpr isFree]
  · have here : ∀ e ∈ post.head?, ¬ (e.2.offset ≠ 0 ∧ e.2.status = .pageFree) := fun e mem both =>
      joins ⟨e, mem, both⟩
    refine ⟨s.allSpace, s.freeSpace, post, fin, page₁, ?_, placed, span, le_rfl, size,
      behind, merged,
      ?_, rfl, free⟩
    · unfold State.mergeAfter
      rw [next]
      cases headIs : post.head? with
      | none => rfl
      | some e => simp only [if_neg (here e headIs)]
    · intro e memE freeE joinsE
      obtain ⟨rest, rfl⟩ := List.head?_eq_some_iff.mp memE
      obtain ⟨begins, mid, _, extent, _⟩ := behind
      rw [← begins] at extent
      exact here e memE ⟨extent.offset_ne_zero.mpr joinsE, freeE⟩

/-- A turn of `pffree`: the location is no longer held, its tail is given back, and the maps are
laid out again. -/
theorem freePage_spec (h : Laid g s) (placed : s.allSpace.entries = pre ++ (k, page) :: post)
    (not : page.status ≠ .pageFree) :
    ∃ fin held held', OnlySpace s (s.freePage g page) ∧
      (s.freePage g page).swapFree = s.swapFree + ((fin - k : Nat) - page.size) ∧
      Laid g (s.freePage g page) ∧ k < fin ∧ page.size ≤ fin - k ∧
      s.held = held ++ (k, page, fin) :: held' ∧ (s.freePage g page).held = held ++ held' := by
  have tiles := h.tiles
  have merged := h.merged
  have free : s.freeSpace.keys = freeKeys s.allSpace.entries := h.free
  rw [placed] at tiles merged free
  obtain ⟨fin, before, less, extent, behind⟩ := tiles_place.mp tiles
  obtain ⟨all₁, pre₁, k₁, page₁, x, joined, eq₁, at₁, span₁, le₁, size₁, before₁, merged₁, closed₁,
    kept₁, free₁, joinedIs⟩ := mergeBefore_spec placed before merged.left extent.toSpan less
  have behindMerged : Merged (Joins g) heldOf post :=
    merged.right.right (l := [(k, page)])
  have le : k₁ ≤ fin := le₁.trans less.le
  have less₁ : k₁ < fin := le₁.trans_lt less
  rw [freeKeys_append, freeKeys_cons_held post not, free₁] at free
  have eq₂ := reclaimTail_spec (s := { s with allSpace := all₁ }) at₁ behind page₁
  obtain ⟨all₃, frees₃, post₁, fin₁, page₃, eq₃, at₃, span₃, le₃, size₃, behind₃, merged₃, closed₃,
    kept₃, free₃⟩ := mergeAfter_spec
      { s with
        allSpace := all₁
        swapFree := s.swapFree + ((fin - k₁ : Nat) - page₁.size) } at₁ behind behindMerged
      (show Span g k₁ { page₁ with size := fin - k₁ } fin from
        ⟨span₁.file, span₁.offset, span₁.inside, span₁.aligned⟩) less₁ rfl free
  have less₃ : k₁ < fin₁ := less₁.trans_le le₃
  have is : s.freePage g page = { s with
      allSpace := all₃.insert k₁ { page₃ with status := .pageFree }
      freeSpace := frees₃.insert k₁ ()
      swapFree := s.swapFree + ((fin - k₁ : Nat) - page₁.size) } := by
    simp only [State.freePage, extent.globalOffset, eq₁, eq₂, eq₃]
    rfl
  have entries := SortedMap.insert_of_place at₃ { page₃ with status := .pageFree }
  have freeNow : (frees₃.insert k₁ ()).keys = freeKeys pre₁ ++ k₁ :: freeKeys post₁ := by
    rcases joinedIs with rfl | rfl
    · rw [List.append_nil] at free₃
      refine SortedMap.keys_insert free₃ (fun j mem => ?_) (fun j mem => ?_) ()
      · obtain ⟨b, memB, _⟩ := mem_of_mem_freeKeys mem
        exact (before₁.mem_bounds memB).2
      · obtain ⟨b, memB, _⟩ := mem_of_mem_freeKeys mem
        exact less₃.trans_le (behind₃.mem_bounds memB).1
    · rw [List.append_assoc] at free₃
      rw [SortedMap.keys_insert_self free₃, free₃]
      rfl
  have tail : ((fin - k₁ : Nat) : Int) - page₁.size = (fin - k : Nat) - page.size := by omega
  have freed : heldOf { page₃ with status := .pageFree } = none := heldOf_eq_none.mpr rfl
  refine ⟨fin, kept (shape heldOf pre k), kept (shape heldOf post s.swapSize), by rw [is]; rfl,
    by rw [is, tail], ?_, less, extent.size_le, ?_, ?_⟩
  · rw [is]
    exact {
      tiles := by
        rw [entries]
        refine tiles_place.mpr ⟨fin₁, before₁, less₃, ?_, behind₃⟩
        exact {
          file := span₃.file
          offset := span₃.offset
          inside := span₃.inside
          aligned := span₃.aligned
          size_pos := by simp only; omega
          size_le := size₃.le
          fills := fun _ => size₃ }
      merged := by
        rw [entries]
        refine List.isChain_append.mpr ⟨merged₁, List.isChain_cons.mpr ⟨?_, merged₃⟩, ?_⟩
        · intro e mem _ unheld
          exact closed₃ e mem (heldOf_eq_none.mp unheld)
        · intro e mem f memF unheld _
          cases memF
          exact closed₁ e mem (heldOf_eq_none.mp unheld)
      free := by
        rw [entries, freeNow]
        exact ((freeKeys_append _ _).trans (by rw [freeKeys_cons_free post₁ rfl])).symm }
  · rw [State.held, placed, shape_append, kept_append, start_cons, shape, behind.start_eq,
      heldOf_of_ne not]
    rfl
  · rw [is, State.held, entries, shape_append, kept_append, start_cons, shape, freed, kept₁]
    simp only [← kept₃]
    rfl

/-! ### Allocating in a free location -/

/-- A free location gives way to a held one and, behind it, what is left of the free space. -/
theorem Laid.allocate (h : Laid g s) (placed : s.allSpace.entries = pre ++ (k, page) :: post)
    (free : page.status = .pageFree) (before : Tiles (Extent g) 0 pre k)
    (behind : Tiles (Extent g) fin post s.swapSize) (t : State) (a : PageFileLocation) (mid : Nat)
    (left : List (Nat × PageFileLocation))
    (entries : t.allSpace.entries = pre ++ (k, a) :: (left ++ post))
    (keys : t.freeSpace.keys = freeKeys pre ++ (freeKeys left ++ freeKeys post))
    (swapSize : t.swapSize = s.swapSize) (held : a.status ≠ .pageFree) (less : k < mid)
    (extent : Extent g k a mid) (begins : left = [] ∨ ∃ b, left = [(mid, b)] ∧ b.status = .pageFree)
    (leftTiles : Tiles (Extent g) mid left fin) :
    Laid g t ∧
      shape heldOf s.allSpace.entries s.swapSize =
        shape heldOf pre k ++ (k, none, fin) :: shape heldOf post s.swapSize ∧
      shape heldOf t.allSpace.entries t.swapSize =
        shape heldOf pre k ++ (k, some a, mid) ::
          (shape heldOf left fin ++ shape heldOf post s.swapSize) := by
  have merged := h.merged
  rw [placed] at merged
  have behindMerged : Merged (Joins g) heldOf post := merged.right.right (l := [(k, page)])
  have all : Tiles (Extent g) mid (left ++ post) s.swapSize :=
    tiles_append.mpr ⟨fin, leftTiles, behind⟩
  refine ⟨?_, ?_, ?_⟩
  · exact {
      tiles := by
        rw [entries, swapSize]
        exact tiles_place.mpr ⟨mid, before, less, extent, all⟩
      merged := by
        rw [entries]
        have leftMerged : Merged (Joins g) heldOf (left ++ post) := by
          rcases begins with rfl | ⟨b, rfl, freeB⟩
          · exact behindMerged
          · refine List.isChain_cons.mpr ⟨fun e mem unheld none' => ?_, behindMerged⟩
            have step := (List.isChain_cons.mp (merged.right (l := pre))).1 e mem
            exact step (heldOf_eq_none.mpr free) none'
        refine List.isChain_append.mpr ⟨merged.left, List.isChain_cons.mpr ⟨?_, leftMerged⟩, ?_⟩
        · intro e mem unheld
          exact absurd (heldOf_eq_none.mp unheld) held
        · intro e mem f memF _ unheld
          cases memF
          exact absurd (heldOf_eq_none.mp unheld) held
      free := by
        rw [entries, keys]
        exact ((freeKeys_append _ _).trans
          (by rw [freeKeys_cons_held _ held, freeKeys_append])).symm }
  · rw [placed, shape_append, start_cons, shape, behind.start_eq, heldOf_eq_none.mpr free]
  · rw [entries, swapSize, shape_append, start_cons, shape, all.start_eq, heldOf_of_ne held,
      shape_append, behind.start_eq]

theorem modify_of_place (s : State) (placed : s.allSpace.entries = pre ++ (k, page) :: post)
    (f : PageFileLocation → PageFileLocation) :
    s.modify k f = { s with allSpace := s.allSpace.insert k (f page) } ∧
      (s.modify k f).allSpace.entries = pre ++ (k, f page) :: post := by
  have is : s.modify k f = { s with allSpace := s.allSpace.insert k (f page) } := by
    unfold State.modify
    rw [SortedMap.get?_of_place placed]
  refine ⟨is, ?_⟩
  rw [is]
  exact SortedMap.insert_of_place placed (f page)

theorem paddedSize_spec (g : Geometry) (size : Nat) :
    size ≤ State.paddedSize g size ∧ g.memoryAlignment ∣ State.paddedSize g size ∧
      ∀ n, g.memoryAlignment ∣ n → size ≤ n → State.paddedSize g size ≤ n := by
  have division := Nat.div_add_mod size g.memoryAlignment
  have less := Nat.mod_lt size g.alignment_pos
  rw [Nat.mul_comm] at division
  unfold State.paddedSize
  split
  · rename_i zero
    rw [Nat.add_zero]
    refine ⟨by omega, ⟨_, Nat.mul_comm _ _⟩, fun n _ le => by omega⟩
  · rename_i notZero
    have step : (size / g.memoryAlignment + 1) * g.memoryAlignment =
        size / g.memoryAlignment * g.memoryAlignment + g.memoryAlignment := by ring
    refine ⟨by omega, ⟨_, Nat.mul_comm _ _⟩, ?_⟩
    rintro n ⟨m, rfl⟩ le
    rw [Nat.mul_comm g.memoryAlignment m]
    refine Nat.mul_le_mul_right _ ?_
    have above : size / g.memoryAlignment * g.memoryAlignment < m * g.memoryAlignment := by
      rw [Nat.mul_comm m]
      omega
    exact Nat.lt_of_mul_lt_mul_right above

/-- What a write to a location just allocated may do. -/
structure Holds (f : PageFileLocation → PageFileLocation) : Prop where
  file : ∀ b, (f b).file = b.file
  offset : ∀ b, (f b).offset = b.offset
  size : ∀ b, (f b).size = b.size
  status : ∀ b, (f b).status ≠ .pageFree

/-- What `allocInFree` leaves of a free location that it does not take as a whole. -/
def remainderOf (page : PageFileLocation) (padded : Nat) : PageFileLocation :=
  { page with
    offset := page.offset + padded
    size := page.size - padded
    globOffNext := .null }

/-- `allocInFree`, once the caller has set the status of the location. -/
theorem allocInFree_spec (h : Laid g s) (placed : s.allSpace.entries = pre ++ (k, page) :: post)
    (free : page.status = .pageFree) {size : Nat} (pos : 0 < size) (fits : size ≤ page.size)
    {f : PageFileLocation → PageFileLocation} (holds : Holds f) :
    ∃ t mid fin left, s.allocInFree g page size = some (t, k) ∧
      OnlySpace s (t.modify k f) ∧
      (t.modify k f).swapFree = s.swapFree - ((mid - k : Nat) - size) ∧ Laid g (t.modify k f) ∧
      (t.modify k f).allSpace.entries =
        pre ++ (k, f { page with size }) :: (left ++ post) ∧
      shape heldOf s.allSpace.entries s.swapSize =
        shape heldOf pre k ++ (k, none, fin) :: shape heldOf post s.swapSize ∧
      shape heldOf (t.modify k f).allSpace.entries s.swapSize =
        shape heldOf pre k ++ (k, some (f { page with size }), mid) ::
          (shape heldOf left fin ++ shape heldOf post s.swapSize) ∧
      k < mid ∧ mid ≤ fin ∧ size ≤ mid - k ∧ kept (shape heldOf left fin) = [] ∧
      (size = page.size → left = [] ∧ mid = fin) := by
  have tiles := h.tiles
  have keys : s.freeSpace.keys = freeKeys s.allSpace.entries := h.free
  rw [placed] at tiles keys
  obtain ⟨fin₀, before, less₀, extent₀, behind⟩ := tiles_place.mp tiles
  rw [freeKeys_append, freeKeys_cons_free post free] at keys
  have erased := SortedMap.keys_erase keys
  have fills := extent₀.fills free
  obtain ⟨padLe, padAligned, padLeast⟩ := paddedSize_spec g size
  have padFits : State.paddedSize g size ≤ page.size :=
    padLeast _ (by rw [fills]; exact extent₀.aligned) fits
  obtain ⟨padded, padIs⟩ : ∃ padded, padded = State.paddedSize g size := ⟨_, rfl⟩
  rw [← padIs] at padLe padAligned padFits
  have fitsNot : ¬ (padded ≠ size ∧ page.size < padded) := fun big => absurd padFits (by omega)
  by_cases small : page.size - padded < g.sizeofPageFileLocation
  · -- the whole location is taken
    have is : s.allocInFree g page size = some ({ s with
        freeSpace := s.freeSpace.erase k
        swapFree := s.swapFree - (padded - size) - (page.size - padded)
        allSpace := s.allSpace.insert k { page with size } }, k) := by
      simp only [State.allocInFree, extent₀.globalOffset, ← padIs, if_neg fitsNot,
        if_pos (And.intro padFits small)]
    obtain ⟨modified, entries⟩ := modify_of_place { s with
      freeSpace := s.freeSpace.erase k
      swapFree := s.swapFree - (padded - size) - (page.size - padded)
      allSpace := s.allSpace.insert k { page with size } }
      (SortedMap.insert_of_place placed { page with size }) f
    have extent : Extent g k (f { page with size }) fin₀ := {
      file := (holds.file _).trans extent₀.file
      offset := (holds.offset _).trans extent₀.offset
      inside := extent₀.inside
      aligned := extent₀.aligned
      size_pos := by rw [holds.size]; exact pos
      size_le := by rw [holds.size, ← fills]; exact fits
      fills := fun is => absurd is (holds.status _) }
    obtain ⟨laid, former, later⟩ := h.allocate placed free before behind _ _ fin₀ [] entries
      (by rw [modified]; exact erased) (by rw [modified]) (holds.status _) less₀ extent (.inl rfl)
      rfl
    refine ⟨_, fin₀, fin₀, [], is, by rw [modified]; rfl, ?_, laid, entries, former, ?_, less₀,
      le_rfl, by omega, rfl, fun _ => ⟨rfl, rfl⟩⟩
    · rw [modified, ← fills]
      ring
    · rw [modified] at later ⊢
      exact later
  · -- what is left stays free
    have padLess : padded < page.size := by
      have pos := g.sizeof_pos
      omega
    have key : determineGlobalOffset g (remainderOf page padded) = k + padded := by
      have here := extent₀.globalOffset
      simp only [determineGlobalOffset, remainderOf] at here ⊢
      omega
    have is : s.allocInFree g page size = some ({ s with
        freeSpace := (s.freeSpace.erase k).insert (k + padded) ()
        swapFree := s.swapFree - (padded - size)
        allSpace := (s.allSpace.insert (k + padded) (remainderOf page padded)).insert k
          { page with size } }, k) := by
      simp only [State.allocInFree, extent₀.globalOffset, ← padIs, if_neg fitsNot]
      rw [if_neg fun both => small both.2]
      simp only [remainderOf] at key
      rw [key]
      rfl
    have belowPre : ∀ e ∈ pre, e.1 < k := fun e mem => (before.mem_bounds mem).2
    have abovePost : ∀ e ∈ post, k + padded < e.1 := by
      intro e mem
      have le := (behind.mem_bounds mem).1
      omega
    have inserted := SortedMap.insert_of_cut (k := k + padded)
      (show s.allSpace.entries = (pre ++ [(k, page)]) ++ post by simpa using placed)
      (by
        intro e mem
        rcases List.mem_append.mp mem with mem | mem
        · have less := belowPre e mem
          omega
        · rw [List.mem_singleton.mp mem]
          simp only
          omega) abovePost (remainderOf page padded)
    rw [List.append_assoc] at inserted
    obtain ⟨modified, entries⟩ := modify_of_place { s with
      freeSpace := (s.freeSpace.erase k).insert (k + padded) ()
      swapFree := s.swapFree - (padded - size)
      allSpace := (s.allSpace.insert (k + padded) (remainderOf page padded)).insert k
        { page with size } }
      (SortedMap.insert_of_place inserted { page with size }) f
    have extent : Extent g k (f { page with size }) (k + padded) := {
      file := (holds.file _).trans extent₀.file
      offset := (holds.offset _).trans extent₀.offset
      inside := fun p above below => extent₀.inside p above (by omega)
      aligned := by rw [Nat.add_sub_cancel_left]; exact padAligned
      size_pos := by rw [holds.size]; exact pos
      size_le := by rw [holds.size, Nat.add_sub_cancel_left]; exact padLe
      fills := fun is => absurd is (holds.status _) }
    obtain ⟨sameFile, sameOffset⟩ := same_file g.file_pos (Nat.le_add_right k padded)
      (fun p above le => extent₀.inside p above (by omega))
    have leftExtent : Extent g (k + padded) (remainderOf page padded) fin₀ := {
      file := extent₀.file.trans sameFile.symm
      offset := by
        rw [sameOffset, Nat.add_sub_cancel_left, ← extent₀.offset]
        rfl
      inside := fun p above below => extent₀.inside p (by omega) below
      aligned := by
        have gap : fin₀ - (k + padded) = (fin₀ - k) - padded := by omega
        rw [gap]
        exact Nat.dvd_sub extent₀.aligned padAligned
      size_pos := by simp only [remainderOf]; omega
      size_le := by simp only [remainderOf]; omega
      fills := fun _ => by simp only [remainderOf]; omega }
    have leftTiles : Tiles (Extent g) (k + padded) [(k + padded, (remainderOf page padded))] fin₀ :=
      ⟨rfl, fin₀, by omega, leftExtent, rfl⟩
    have freeLeft : (remainderOf page padded).status = .pageFree := free
    have keysNow := SortedMap.keys_insert (k := k + padded) erased (by
      intro j mem
      obtain ⟨b, memB, _⟩ := mem_of_mem_freeKeys mem
      exact (belowPre _ memB).trans_le (Nat.le_add_right _ _)) (by
      intro j mem
      obtain ⟨b, memB, _⟩ := mem_of_mem_freeKeys mem
      exact abovePost _ memB) ()
    obtain ⟨laid, former, later⟩ := h.allocate placed free before behind _ _ (k + padded)
      [(k + padded, remainderOf page padded)] entries
      (by rw [modified, keysNow, freeKeys_cons_free [] freeLeft]; rfl) (by rw [modified])
      (holds.status _) (by omega) extent (.inr ⟨_, rfl, freeLeft⟩) leftTiles
    refine ⟨_, k + padded, fin₀, [(k + padded, remainderOf page padded)], is,
      by rw [modified]; rfl, ?_, laid, entries, former, ?_,
      by omega, by omega, by omega, ?_, fun whole => absurd padLess (by omega)⟩
    · rw [modified, Nat.add_sub_cancel_left]
    · rw [modified] at later ⊢
      exact later
    · simp [shape, kept, heldOf_eq_none.mpr freeLeft]

end

end Rambrain.FileSwap
