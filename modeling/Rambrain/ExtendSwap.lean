import Rambrain.PageFileInv

/-!
`extendSwap`.

New files are appended to the file table and, as one free location each, to both maps
(`addFiles_spec`). The file count and the table are replaced before the files are opened, and no
failure undoes this: `extendSwap_allOrNothing_iff` says exactly when nothing is left behind.
-/

namespace Rambrain.FileSwap

open Lib

variable {g : Geometry} {s : State}

/-- The free location of a whole file. -/
def fileLocation (g : Geometry) (n : Nat) : PageFileLocation :=
  ⟨n, 0, g.pageFileSize, .null, .pageFree⟩

/-- The entries of the files from `n` on. -/
def newFiles (g : Geometry) (n left : Nat) : List (Nat × PageFileLocation) :=
  (List.range' n left).map fun m => (m * g.pageFileSize, fileLocation g m)

theorem newFiles_succ (n left : Nat) :
    newFiles g n (left + 1) = (n * g.pageFileSize, fileLocation g n) :: newFiles g (n + 1) left :=
  rfl

theorem newFiles_tiles (n left : Nat) :
    Tiles (Extent g) (n * g.pageFileSize) (newFiles g n left) ((n + left) * g.pageFileSize) := by
  induction left generalizing n with
  | zero => exact rfl
  | succ left ih =>
      have step : (n + 1) * g.pageFileSize = n * g.pageFileSize + g.pageFileSize := by ring
      have pos := g.file_pos
      refine ⟨rfl, (n + 1) * g.pageFileSize, by omega, ?_, ?_⟩
      · have len : (n + 1) * g.pageFileSize - n * g.pageFileSize = g.pageFileSize := by omega
        exact {
          file := (Nat.mul_div_cancel n pos).symm
          offset := (Nat.mul_mod_left n _).symm
          inside := by
            rintro p above below ⟨m, rfl⟩
            rw [Nat.mul_comm g.pageFileSize m] at above below
            have lower := Nat.lt_of_mul_lt_mul_right above
            have upper := Nat.lt_of_mul_lt_mul_right below
            omega
          aligned := by rw [len]; exact g.aligned
          size_pos := pos
          size_le := len.ge
          fills := fun _ => len.symm }
      · have next := ih (n + 1)
        rwa [Nat.add_right_comm, Nat.add_assoc n left 1] at next

/-- No two whole files are joined. -/
theorem newFiles_apart {n left : Nat} {e : Nat × PageFileLocation} (mem : e ∈ newFiles g n left) :
    ¬ Joins g e.1 := by
  obtain ⟨m, _, rfl⟩ := List.mem_map.mp mem
  exact fun joins => joins ⟨m, Nat.mul_comm _ _⟩

theorem Merged.append_files {l : List (Nat × PageFileLocation)} (merged : Merged (Joins g) heldOf l)
    (n left : Nat) : Merged (Joins g) heldOf (l ++ newFiles g n left) := by
  have files : Merged (Joins g) heldOf (newFiles g n left) := by
    induction left generalizing n with
    | zero => exact List.isChain_nil
    | succ left ih =>
        rw [newFiles_succ]
        refine List.isChain_cons.mpr ⟨fun e mem _ _ => ?_, ih (n + 1)⟩
        exact newFiles_apart (List.mem_of_head? mem)
  exact List.isChain_append.mpr ⟨merged, files, fun _ _ e mem _ _ =>
    newFiles_apart (List.mem_of_head? mem)⟩

theorem freeKeys_newFiles (n left : Nat) :
    freeKeys (newFiles g n left) = (List.range' n left).map (· * g.pageFileSize) := by
  induction left generalizing n with
  | zero => rfl
  | succ left ih =>
      rw [newFiles_succ, freeKeys_cons_free _ rfl, ih]
      rfl

theorem kept_newFiles (n left hi : Nat) : kept (shape heldOf (newFiles g n left) hi) = [] := by
  induction left generalizing n with
  | zero => rfl
  | succ left ih =>
      rw [newFiles_succ, shape]
      exact ih (n + 1)

/-- All locations lie before the files that come next. -/
structure Below (g : Geometry) (s : State) : Prop where
  all : ∀ e ∈ s.allSpace.entries, e.1 < s.pageFileNumber * g.pageFileSize
  free : ∀ k ∈ s.freeSpace.keys, k < s.pageFileNumber * g.pageFileSize

theorem Laid.below (h : Laid g s) (files : s.swapSize = s.pageFileNumber * g.pageFileSize) :
    Below g s where
  all := fun e mem => files ▸ (h.tiles.mem_bounds mem).2
  free := by
    intro k mem
    rw [h.free] at mem
    obtain ⟨b, memB, _⟩ := mem_of_mem_freeKeys mem
    exact files ▸ (h.tiles.mem_bounds memB).2

theorem addFiles_spec (left : Nat) : ∀ (n : Nat) (s : State),
    (∀ e ∈ s.allSpace.entries, e.1 < n * g.pageFileSize) →
    (∀ k ∈ s.freeSpace.keys, k < n * g.pageFileSize) →
    State.addFiles g n left s = { s with
      allSpace := (State.addFiles g n left s).allSpace
      freeSpace := (State.addFiles g n left s).freeSpace } ∧
    (State.addFiles g n left s).allSpace.entries = s.allSpace.entries ++ newFiles g n left ∧
    (State.addFiles g n left s).freeSpace.keys =
      s.freeSpace.keys ++ freeKeys (newFiles g n left) := by
  induction left with
  | zero =>
      intro n s _ _
      exact ⟨rfl, (List.append_nil _).symm, (List.append_nil _).symm⟩
  | succ left ih =>
      intro n s all free
      have entries := SortedMap.insert_of_cut (List.append_nil s.allSpace.entries).symm all
        (by simp) (fileLocation g n)
      have keys := SortedMap.keys_insert (List.append_nil s.freeSpace.keys).symm free (by simp) ()
      have step : n * g.pageFileSize < (n + 1) * g.pageFileSize :=
        Nat.mul_lt_mul_of_pos_right (Nat.lt_succ_self n) g.file_pos
      obtain ⟨only, entries', keys'⟩ := ih (n + 1) { s with
        freeSpace := s.freeSpace.insert (n * g.pageFileSize) ()
        allSpace := s.allSpace.insert (n * g.pageFileSize) (fileLocation g n) } (by
          intro e mem
          rw [entries] at mem
          rcases List.mem_append.mp mem with mem | mem
          · exact (all e mem).trans step
          · rw [List.mem_singleton.mp mem]
            exact step) (by
          intro k mem
          rw [keys] at mem
          rcases List.mem_append.mp mem with mem | mem
          · exact (free k mem).trans step
          · rw [List.mem_singleton.mp mem]
            exact step)
      refine ⟨only, ?_, ?_⟩
      · refine entries'.trans ?_
        rw [entries, newFiles_succ, List.append_assoc]
        rfl
      · refine keys'.trans ?_
        rw [keys, newFiles_succ, freeKeys_cons_free _ rfl, List.append_assoc]
        rfl

/-- The swap as the constructor of `managedFileSwap` sets it up. -/
def State.construct (g : Geometry) (pageFileNumber : Nat) (enableDMA : Bool) (fileno : Nat → Nat) :
    State :=
  addFiles g 0 pageFileNumber {
    allSpace := .empty
    freeSpace := .empty
    swapSize := pageFileNumber * g.pageFileSize
    swapFree := pageFileNumber * g.pageFileSize
    swapUsed := 0
    pageFileNumber := pageFileNumber
    swapFiles := (List.range pageFileNumber).map fun n => some ⟨fileno n, 0⟩
    enableDMA := enableDMA
    memChunks := .empty }

theorem construct_spec (g : Geometry) (n : Nat) (enableDMA : Bool) (fileno : Nat → Nat) :
    let s := State.construct g n enableDMA fileno
    s.allSpace.entries = newFiles g 0 n ∧ s.swapSize = n * g.pageFileSize ∧
      s.swapFree = (n * g.pageFileSize : Nat) ∧ s.swapUsed = 0 ∧ s.pageFileNumber = n ∧
      s.memChunks = .empty ∧ Laid g s := by
  obtain ⟨only, entries, keys⟩ := addFiles_spec (g := g) n 0 {
    allSpace := .empty
    freeSpace := .empty
    swapSize := n * g.pageFileSize
    swapFree := n * g.pageFileSize
    swapUsed := 0
    pageFileNumber := n
    swapFiles := (List.range n).map fun n => some ⟨fileno n, 0⟩
    enableDMA := enableDMA
    memChunks := .empty } (fun e mem => by cases mem) (fun k mem => by cases mem)
  refine ⟨entries, ?_, ?_, ?_, ?_, ?_, ?_⟩
  · rw [State.construct, only]
  · rw [State.construct, only]
    push_cast
    rfl
  · rw [State.construct, only]
  · rw [State.construct, only]
  · rw [State.construct, only]
  · have size : (State.construct g n enableDMA fileno).swapSize = (0 + n) * g.pageFileSize := by
      rw [State.construct, only, Nat.zero_add]
    exact {
      tiles := by
        rw [size]
        have tiles := newFiles_tiles (g := g) 0 n
        rw [Nat.zero_mul] at tiles
        exact entries ▸ tiles
      merged := entries ▸ Merged.append_files List.isChain_nil 0 n
      free := by
        refine keys.trans ?_
        rw [State.construct, entries]
        rfl }

/-! ### Opening the files -/

def OpenResult.isOpened : State.OpenResult → Bool
  | .opened _ => true
  | _ => false

/-- What `openSwapFileRange` writes: the file table and `enableDMA`. -/
def OnlyFiles (s t : State) : Prop :=
  t = { s with swapFiles := t.swapFiles, enableDMA := t.enableDMA }

/-- The state `openSwapFileRange` and `extendSwap` leave. -/
def State.Extended.state : State.Extended → State
  | .returned s _ => s
  | .couldNotOpen s => s

/-- Whether they returned `true`. -/
def State.Extended.succeeded : State.Extended → Bool
  | .returned _ result => result
  | .couldNotOpen _ => false

theorem openSwapFileRange_spec (opens : Nat → State.OpenResult) (left : Nat) :
    ∀ (n : Nat) (s : State),
      OnlyFiles s (State.openSwapFileRange opens n left s).state ∧
      ((State.openSwapFileRange opens n left s).succeeded = true ↔
        ∀ m, n ≤ m → m < n + left → OpenResult.isOpened (opens m) = true) := by
  induction left with
  | zero =>
      intro n s
      exact ⟨rfl, iff_of_true rfl fun m le less => absurd less (by omega)⟩
  | succ left ih =>
      intro n s
      cases here : opens n with
      | opened fileno =>
          obtain ⟨only, header_iff⟩ := ih (n + 1) { s with
            swapFiles := s.swapFiles.set n (some ⟨fileno, 0⟩) }
          simp only [State.openSwapFileRange, here]
          refine ⟨only, header_iff.trans ⟨fun all m le less => ?_, fun all m le less => ?_⟩⟩
          · rcases Nat.eq_or_lt_of_le le with rfl | above
            · rw [here]
              rfl
            · exact all m above (by omega)
          · exact all m (by omega) (by omega)
      | einval =>
          simp only [State.openSwapFileRange, here]
          have fails : ¬ ∀ m, n ≤ m → m < n + (left + 1) → OpenResult.isOpened (opens m) = true :=
            fun all => by
              have opened := all n le_rfl (by omega)
              rw [here] at opened
              cases opened
          split
          · exact ⟨rfl, iff_of_false Bool.false_ne_true fails⟩
          · exact ⟨rfl, iff_of_false Bool.false_ne_true fails⟩
      | failed =>
          simp only [State.openSwapFileRange, here]
          refine ⟨rfl, iff_of_false Bool.false_ne_true fun all => ?_⟩
          have opened := all n le_rfl (by omega)
          rw [here] at opened
          cases opened

/-! ### The whole call -/

/-- The swap has grown by `size`, in whole files. -/
structure Grown (g : Geometry) (s : State) (size : Nat) (t : State) : Prop where
  swapSize : t.swapSize = s.swapSize + State.wholeFiles g size
  swapFree : t.swapFree = s.swapFree + State.wholeFiles g size
  pageFileNumber : t.pageFileNumber = s.pageFileNumber + State.wholeFiles g size / g.pageFileSize
  allSpace : t.allSpace.entries = s.allSpace.entries ++
    newFiles g s.pageFileNumber (State.wholeFiles g size / g.pageFileSize)
  freeSpace : t.freeSpace.keys = s.freeSpace.keys ++
    freeKeys (newFiles g s.pageFileNumber (State.wholeFiles g size / g.pageFileSize))

/-- Nothing of the swap has changed. -/
structure Unchanged (s t : State) : Prop where
  pageFileNumber : t.pageFileNumber = s.pageFileNumber
  swapFiles : t.swapFiles = s.swapFiles
  swapSize : t.swapSize = s.swapSize
  swapFree : t.swapFree = s.swapFree
  allSpace : t.allSpace = s.allSpace
  freeSpace : t.freeSpace = s.freeSpace

/-- `extendSwap` has returned `true` with the swap grown, or left it as it was. -/
def AllOrNothing (g : Geometry) (s : State) (size : Nat) (r : State.Extended) : Prop :=
  if r.succeeded then Grown g s size r.state else Unchanged s r.state

theorem extendSwap_grown (below : Below g s) {freeDiskSpace size : Nat}
    {opens : Nat → State.OpenResult} (room : State.wholeFiles g size ≤ freeDiskSpace)
    (opened : ∀ n, s.pageFileNumber ≤ n →
      n < s.pageFileNumber + State.wholeFiles g size / g.pageFileSize →
      OpenResult.isOpened (opens n) = true) :
    ∃ t, s.extendSwap g freeDiskSpace opens size = .returned t true ∧ Grown g s size t ∧
      t.swapUsed = s.swapUsed ∧ t.memChunks = s.memChunks := by
  have opening := openSwapFileRange_spec opens (State.wholeFiles g size / g.pageFileSize)
    s.pageFileNumber { s with
      pageFileNumber := s.pageFileNumber + State.wholeFiles g size / g.pageFileSize
      swapFiles := s.swapFiles ++
        List.replicate (State.wholeFiles g size / g.pageFileSize) none }
  have succeeds := opening.2.mpr opened
  have only := opening.1
  unfold State.extendSwap
  simp only [if_neg (Nat.not_lt.mpr room)]
  split
  · rename_i t is
    rw [is] at only
    have only : OnlyFiles _ t := only
    rw [OnlyFiles.eq_1] at only
    obtain ⟨added, entries, keys⟩ := addFiles_spec (g := g)
      (State.wholeFiles g size / g.pageFileSize) s.pageFileNumber t
      (by rw [only]; exact below.all) (by rw [only]; exact below.free)
    refine ⟨_, rfl, ⟨?_, ?_, ?_, ?_, ?_⟩, ?_, ?_⟩
    · simp only
      rw [added, only]
    · simp only
      rw [added, only]
    · simp only
      rw [added, only]
    · refine entries.trans ?_
      rw [only]
    · refine keys.trans ?_
      rw [only]
    · simp only
      rw [added, only]
    · simp only
      rw [added, only]
  · rename_i t is
    rw [is] at succeeds
    cases succeeds
  · rename_i t is
    rw [is] at succeeds
    cases succeeds

/-- `extendSwap` is all or nothing exactly when the disk check refuses it or every file opens. -/
theorem extendSwap_allOrNothing_iff (g : Geometry) (s : State) (below : Below g s)
    (freeDiskSpace size : Nat) (opens : Nat → State.OpenResult) :
    AllOrNothing g s size (s.extendSwap g freeDiskSpace opens size) ↔
      freeDiskSpace < State.wholeFiles g size ∨
        ∀ n, s.pageFileNumber ≤ n →
          n < s.pageFileNumber + State.wholeFiles g size / g.pageFileSize →
          OpenResult.isOpened (opens n) = true := by
  by_cases room : freeDiskSpace < State.wholeFiles g size
  · have is : s.extendSwap g freeDiskSpace opens size = .returned s false := by
      unfold State.extendSwap
      simp only [if_pos room]
    rw [is]
    exact iff_of_true ⟨rfl, rfl, rfl, rfl, rfl, rfl⟩ (.inl room)
  rw [or_iff_right room]
  constructor
  · intro allOrNothing
    by_contra notOpened
    have opening := openSwapFileRange_spec opens (State.wholeFiles g size / g.pageFileSize)
      s.pageFileNumber { s with
        pageFileNumber := s.pageFileNumber + State.wholeFiles g size / g.pageFileSize
        swapFiles := s.swapFiles ++
          List.replicate (State.wholeFiles g size / g.pageFileSize) none }
    have fails := (not_congr opening.2).mpr notOpened
    have positive : State.wholeFiles g size / g.pageFileSize ≠ 0 := by
      intro zero
      rw [zero] at notOpened
      exact notOpened fun n le less => absurd less (by omega)
    -- however it fails, the file count has grown
    have unchanged : ∀ t, OnlyFiles { s with
        pageFileNumber := s.pageFileNumber + State.wholeFiles g size / g.pageFileSize
        swapFiles := s.swapFiles ++
          List.replicate (State.wholeFiles g size / g.pageFileSize) none } t →
        ¬ Unchanged s t := by
      intro t only same
      have number := same.pageFileNumber
      rw [OnlyFiles.eq_1] at only
      rw [only] at number
      simp only at number
      omega
    unfold State.extendSwap at allOrNothing
    simp only [if_neg room] at allOrNothing
    split at allOrNothing
    · rename_i t is
      rw [is] at fails
      exact fails rfl
    · rename_i t is
      rw [is] at opening
      exact unchanged t opening.1 allOrNothing
    · rename_i t is
      rw [is] at opening
      exact unchanged t opening.1 allOrNothing
  · intro opened
    obtain ⟨t, is, grown, _⟩ := extendSwap_grown below (Nat.not_lt.mp room) opened
    rw [is]
    exact grown

/-- Two pages in a file, with direct access. -/
def kibFiles : Geometry := ⟨1024, 512, 48, by decide, by decide, by decide, by decide⟩

theorem extendSwap_allOrNothing_opened :
    AllOrNothing kibFiles (.construct kibFiles 1 true id) 2000
      (State.extendSwap kibFiles (.construct kibFiles 1 true id) 5000 (fun n => .opened n) 2000) :=
  (extendSwap_allOrNothing_iff kibFiles (.construct kibFiles 1 true id)
    ⟨by decide, by decide⟩ 5000 2000 fun n => .opened n).mpr (.inr fun _ _ _ => rfl)

/-- The second of two new files does not open. -/
theorem extendSwap_leaves_count :
    ¬ AllOrNothing kibFiles (.construct kibFiles 1 true id) 2000
      (State.extendSwap kibFiles (.construct kibFiles 1 true id) 5000
        (fun n => if n = 2 then .failed else .opened n) 2000) := by
  intro allOrNothing
  have unchanged : Unchanged (.construct kibFiles 1 true id)
      (State.extendSwap kibFiles (.construct kibFiles 1 true id) 5000
        (fun n => if n = 2 then .failed else .opened n) 2000).state := allOrNothing
  have number := unchanged.pageFileNumber
  exact absurd number (by decide)

end Rambrain.FileSwap
