import Rambrain.PageFileInv

/-!
The chains of `managedFileSwap` and `pffree`.

`Represents g s live` is the representation invariant with the live allocations: what is held is
exactly the parts of their chains. `pffree_spec` frees a chain; its result is described by what is
still held, so by `Laid.layout_eq` the order in which chains are freed does not show.
-/

namespace Rambrain.FileSwap

open Lib

variable {g : Geometry} {s t : State}

/-! ### What is held -/

theorem mem_shape {l : List (Nat × PageFileLocation)} (hi : Nat) {k : Nat} {b : PageFileLocation}
    (mem : (k, b) ∈ l) : ∃ fin, (k, heldOf b, fin) ∈ shape heldOf l hi := by
  induction l with
  | nil => cases mem
  | cons e l ih =>
      rcases List.mem_cons.mp mem with rfl | mem
      · exact ⟨_, List.mem_cons_self⟩
      · obtain ⟨fin, memS⟩ := ih mem
        exact ⟨fin, List.mem_cons_of_mem _ memS⟩

theorem get?_of_held {k fin : Nat} {b : PageFileLocation} (mem : (k, b, fin) ∈ s.held) :
    s.allSpace.get? k = some b ∧ b.status ≠ .pageFree := by
  obtain ⟨a, memA, is⟩ := mem_of_mem_shape (mem_kept.mp mem)
  unfold heldOf at is
  split at is
  · cases is
  · cases is
    exact ⟨SortedMap.get?_eq_some_iff.mpr memA, ‹_›⟩

theorem held_of_get? {k : Nat} {b : PageFileLocation} (found : s.allSpace.get? k = some b)
    (not : b.status ≠ .pageFree) : ∃ fin, (k, b, fin) ∈ s.held := by
  obtain ⟨fin, mem⟩ := mem_shape s.swapSize (SortedMap.get?_eq_some_iff.mp found)
  rw [heldOf_of_ne not] at mem
  exact ⟨fin, mem_kept.mpr mem⟩

theorem keys_shape (l : List (Nat × PageFileLocation)) (hi : Nat) :
    (shape heldOf l hi).map Prod.fst = l.map Prod.fst := by
  induction l with
  | nil => rfl
  | cons e l ih => rw [shape, List.map_cons, List.map_cons, ih]

theorem keys_kept_sublist (r : List (Nat × Option PageFileLocation × Nat)) :
    ((kept r).map Prod.fst).Sublist (r.map Prod.fst) := by
  induction r with
  | nil => exact List.Sublist.slnil
  | cons e r ih =>
      obtain ⟨k, h, m⟩ := e
      cases h with
      | none => exact ih.cons _
      | some b => exact ih.cons_cons _

/-- What is held is in the order of the keys. -/
theorem held_sorted (s : State) : s.held.Pairwise fun e f => e.1 < f.1 := by
  have sorted := s.allSpace.sorted_keys
  rw [SortedMap.keys, ← keys_shape _ s.swapSize] at sorted
  exact List.pairwise_map.mp (sorted.sublist (keys_kept_sublist _))

/-- Two sorted lists with the same members are equal. -/
theorem held_ext (same : ∀ e, e ∈ s.held ↔ e ∈ t.held) : s.held = t.held := by
  have nodup : ∀ s : State, s.held.Nodup := fun s =>
    (held_sorted s).imp fun less eq => by
      rw [eq] at less
      exact Nat.lt_irrefl _ less
  refine List.Perm.eq_of_pairwise (fun a b _ _ less less' => absurd less (Nat.lt_asymm less'))
    (held_sorted s) (held_sorted t) ((List.perm_ext_iff_of_nodup (nodup s) (nodup t)).mpr same)

/-- The bytes behind the held locations that cannot be used. -/
def tails (held : List (Nat × PageFileLocation × Nat)) : Nat :=
  (held.map fun e => e.2.2 - e.1 - e.2.1.size).sum

theorem tails_append (held held' : List (Nat × PageFileLocation × Nat)) :
    tails (held ++ held') = tails held + tails held' := by
  rw [tails, List.map_append, List.sum_append]
  rfl

theorem tails_cons (e : Nat × PageFileLocation × Nat) (held : List (Nat × PageFileLocation × Nat)) :
    tails (e :: held) = (e.2.2 - e.1 - e.2.1.size) + tails held := rfl

/-! ### Chains -/

/-- The parts, by `glob_off_next`, up to the one that is `PAGE_END` and points to the chunk. -/
def Chained (m : SortedMap Nat PageFileLocation) (chunk : Nat) : List Nat → Prop
  | [] => False
  | [k] => ∃ b, m.get? k = some b ∧ b.status = .pageEnd ∧ b.globOffNext = .chunk chunk
  | k :: k' :: ks =>
      (∃ b, m.get? k = some b ∧ b.status = .pagePart ∧ b.globOffNext = .globOffNext k') ∧
        Chained m chunk (k' :: ks)

/-- An allocation that `pfmalloc` has handed out. -/
structure Allocation where
  parts : List Nat
  chunk : Nat
  deriving DecidableEq

/-- What `pfmalloc` returned for it. -/
def Allocation.head (a : Allocation) : Nat := a.parts.headD 0

structure Represents (g : Geometry) (s : State) (live : List Allocation) : Prop where
  laid : Laid g s
  files : s.swapSize = s.pageFileNumber * g.pageFileSize
  chained : ∀ a ∈ live, Chained s.allSpace a.chunk a.parts
  owned : (live.flatMap Allocation.parts).Perm (s.held.map Prod.fst)
  balanced : s.swapFree + s.swapUsed + tails s.held = s.swapSize

theorem Represents.perm {live live' : List Allocation} (h : Represents g s live)
    (perm : live.Perm live') : Represents g s live' where
  laid := h.laid
  files := h.files
  chained := fun a mem => h.chained a (perm.mem_iff.mpr mem)
  owned := (perm.flatMap_right _).symm.trans h.owned
  balanced := h.balanced

theorem Chained.frame {m m' : SortedMap Nat PageFileLocation} {chunk : Nat} {parts : List Nat}
    (chained : Chained m chunk parts)
    (same : ∀ k ∈ parts, ∀ b, m.get? k = some b → b.status ≠ .pageFree → m'.get? k = some b) :
    Chained m' chunk parts := by
  induction parts with
  | nil => exact chained
  | cons k ks ih =>
      cases ks with
      | nil =>
          obtain ⟨b, found, isEnd, next⟩ := chained
          exact ⟨b, same k (List.mem_singleton_self k) b found (by rw [isEnd]; decide), isEnd, next⟩
      | cons k' ks =>
          obtain ⟨⟨b, found, part, next⟩, rest⟩ := chained
          exact ⟨⟨b, same k List.mem_cons_self b found (by rw [part]; decide), part, next⟩,
            ih rest fun j mem => same j (List.mem_cons_of_mem _ mem)⟩

theorem Chained.held {m : SortedMap Nat PageFileLocation} {chunk : Nat} {parts : List Nat}
    (chained : Chained m chunk parts) {k : Nat} (mem : k ∈ parts) :
    ∃ b, m.get? k = some b ∧ b.status ≠ .pageFree := by
  induction parts with
  | nil => cases mem
  | cons j ks ih =>
      cases ks with
      | nil =>
          obtain ⟨b, found, isEnd, _⟩ := chained
          rw [List.mem_singleton.mp mem]
          exact ⟨b, found, by rw [isEnd]; decide⟩
      | cons k' ks =>
          obtain ⟨⟨b, found, part, _⟩, rest⟩ := chained
          rcases List.mem_cons.mp mem with rfl | mem
          · exact ⟨b, found, by rw [part]; decide⟩
          · exact ih rest mem

/-- What is left when the location at `k` is freed. -/
theorem freePage_held {k : Nat} {page : PageFileLocation} (h : Laid g s)
    (found : s.allSpace.get? k = some page) (not : page.status ≠ .pageFree) :
    OnlySpace s (s.freePage g page) ∧ Laid g (s.freePage g page) ∧
      (s.freePage g page).swapFree + tails (s.freePage g page).held =
        s.swapFree + tails s.held ∧
      (k :: (s.freePage g page).held.map Prod.fst).Perm (s.held.map Prod.fst) ∧
      ∀ e, e ∈ (s.freePage g page).held ↔ e ∈ s.held ∧ e.1 ≠ k := by
  obtain ⟨pre, post, placed⟩ := SortedMap.split found
  obtain ⟨fin, held, held', only, swapFree, laid, less, le, before, later⟩ :=
    freePage_spec h placed not
  have sorted := held_sorted s
  rw [before, List.pairwise_append, List.pairwise_cons] at sorted
  refine ⟨only, laid, ?_, ?_, ?_⟩
  · rw [swapFree, before, later, tails_append, tails_append, tails_cons]
    push_cast
    omega
  · rw [before, later, List.map_append, List.map_append, List.map_cons]
    exact List.perm_middle.symm
  · intro e
    rw [before, later, List.mem_append, List.mem_append, List.mem_cons]
    constructor
    · rintro (mem | mem)
      · exact ⟨.inl mem, (sorted.2.2 e mem _ List.mem_cons_self).ne⟩
      · exact ⟨.inr (.inr mem), (sorted.2.1.1 e mem).ne'⟩
    · rintro ⟨mem | rfl | mem, ne⟩
      · exact .inl mem
      · exact absurd rfl ne
      · exact .inr mem

/-- One turn of `pffree`: the first part of the chain is freed. -/
theorem Represents.freePage {k chunk : Nat} {ks : List Nat} {page : PageFileLocation}
    {live live' : List Allocation} (h : Represents g s (⟨k :: ks, chunk⟩ :: live))
    (found : s.allSpace.get? k = some page) (not : page.status ≠ .pageFree)
    (rest : (live' = live ∧ ks = []) ∨
      (live' = ⟨ks, chunk⟩ :: live ∧ Chained s.allSpace chunk ks)) :
    Represents g (s.freePage g page) live' ∧ OnlySpace s (s.freePage g page) ∧
      ∀ e, e ∈ (s.freePage g page).held ↔ e ∈ s.held ∧ e.1 ≠ k := by
  obtain ⟨only, laid, balance, keys, mem⟩ := freePage_held h.laid found not
  have parts : live'.flatMap Allocation.parts = ks ++ live.flatMap Allocation.parts := by
    rcases rest with ⟨rfl, rfl⟩ | ⟨rfl, _⟩
    · rfl
    · rfl
  have owned : (live'.flatMap Allocation.parts).Perm
      ((s.freePage g page).held.map Prod.fst) := by
    rw [parts]
    exact List.Perm.cons_inv (h.owned.trans keys.symm)
  have chained : ∀ a ∈ live', Chained s.allSpace a.chunk a.parts := by
    intro a memA
    rcases rest with ⟨rfl, _⟩ | ⟨rfl, chain⟩
    · exact h.chained a (List.mem_cons_of_mem _ memA)
    · rcases List.mem_cons.mp memA with rfl | memA
      · exact chain
      · exact h.chained a (List.mem_cons_of_mem _ memA)
  refine ⟨?_, only, mem⟩
  exact {
    laid := laid
    files := by
      have files := h.files
      rw [only.swapSize, files]
      have same : (s.freePage g page).pageFileNumber = s.pageFileNumber := by
        rw [OnlySpace.eq_1] at only
        rw [only]
      rw [same]
    chained := by
      intro a memA
      refine (chained a memA).frame fun j memJ b foundJ notJ => ?_
      have memKeys : j ∈ (s.freePage g page).held.map Prod.fst :=
        owned.mem_iff.mp (List.mem_flatMap.mpr ⟨a, memA, memJ⟩)
      obtain ⟨⟨j', b', fin⟩, memHeld, rfl⟩ := List.mem_map.mp memKeys
      have before := get?_of_held ((mem _).mp memHeld).1
      rw [foundJ] at before
      cases before.1
      exact (get?_of_held memHeld).1
    owned := owned
    balanced := by
      have before := h.balanced
      rw [only.swapUsed, only.swapSize]
      omega }

/-- `pffree` frees the chain and nothing else. -/
theorem pffreeLoop_spec {chunk : Nat} {live : List Allocation} :
    ∀ (parts : List Nat) (fuel : Nat) {s : State}, parts.length ≤ fuel →
      Represents g s (⟨parts, chunk⟩ :: live) →
      ∃ t, State.pffreeLoop g fuel s (parts.headD 0) = some t ∧ Represents g t live ∧
        OnlySpace s t ∧ ∀ e, e ∈ t.held ↔ e ∈ s.held ∧ e.1 ∉ parts := by
  intro parts
  induction parts with
  | nil =>
      intro fuel s _ h
      exact absurd (h.chained _ List.mem_cons_self) id
  | cons k ks ih =>
      intro fuel s enough h
      obtain ⟨fuel, rfl⟩ : ∃ n, fuel = n + 1 := ⟨fuel - 1, by simp at enough; omega⟩
      have chained := h.chained _ List.mem_cons_self
      cases ks with
      | nil =>
          obtain ⟨b, found, isEnd, _⟩ := chained
          obtain ⟨rep, only, mem⟩ :=
            h.freePage found (by rw [isEnd]; decide) (.inl ⟨rfl, rfl⟩)
          refine ⟨_, ?_, rep, only, fun e => ?_⟩
          · simp only [List.headD_cons, State.pffreeLoop, found, isEnd, if_true]
          · rw [mem e, List.mem_singleton]
      | cons k' ks =>
          obtain ⟨⟨b, found, part, next⟩, rest⟩ := chained
          obtain ⟨rep, only, mem⟩ :=
            h.freePage found (by rw [part]; decide) (.inr ⟨rfl, rest⟩)
          obtain ⟨t, freed, rep', only', mem'⟩ := ih fuel (Nat.le_of_succ_le_succ enough) rep
          refine ⟨t, ?_, rep', only.trans only', fun e => ?_⟩
          · have notEnd : ¬ b.status = .pageEnd := by rw [part]; decide
            simp only [List.headD_cons, State.pffreeLoop, found, if_neg notEnd, next]
            exact freed
          · rw [mem' e, mem e, and_assoc]
            simp only [List.mem_cons, not_or]

theorem pffree_spec {a : Allocation} {live : List Allocation}
    (h : Represents g s (a :: live)) :
    ∃ t, s.pffree g a.head = some t ∧ Represents g t live ∧ OnlySpace s t ∧
      ∀ e, e ∈ t.held ↔ e ∈ s.held ∧ e.1 ∉ a.parts := by
  refine pffreeLoop_spec a.parts _ ?_ h
  have len := h.owned.length_eq
  have sub := (keys_kept_sublist (shape heldOf s.allSpace.entries s.swapSize)).length_le
  rw [keys_shape] at sub
  simp only [List.flatMap_cons, List.length_append, List.length_map] at len sub
  change _ = s.held.length at len
  change s.held.length ≤ _ at sub
  omega

end Rambrain.FileSwap
