import Rambrain.Eviction

/-!
The ring of `cyclicManagedMemory` as a list, read from `active` along `next`.

`filterChain` with the list of statuses its callers pass is a stable partition of an arc, and
`insertBefore` puts a chain back anywhere (`filterChain_partition`). `schedulerRegister`, `touch`
and `schedulerDelete` are `cons`, move to the front and `erase` (`operations_on_list`).

`Scheduler` is the whole state of the scheduler with preemptive loading. What the three operations
do to the ring does not depend on `preemptiveStart`, which they move off a chunk that leaves the
preemptive section.
-/

namespace Rambrain.Cyclic

open Lib

/-! ### `filterChain` by statuses -/

/-- Whether `filterChain` separates a chunk. `MEM_ROOT` ends the list of statuses. -/
def separates (separateStatus : List MemoryStatus) (preemptiveLoaded : Option Bool)
    (status : MemoryStatus) (chunkLoaded : Bool) : Bool :=
  if status ∈ separateStatus.takeWhile (· ≠ .root) then true
  else
    match preemptiveLoaded with
    | some preemptiveLoaded => !(chunkLoaded ^^ preemptiveLoaded)
    | none => false

section
variable {N : Type} [DecidableEq N] {k : Links N}

/-- The chain goes in right before the node, wherever that is on the ring. -/
theorem insertBefore_at {xs ys sep : List N} {pos : N} (ring : Ring k (xs ++ pos :: ys))
    (path : Path k sep) (nodup : (sep ++ (xs ++ pos :: ys)).Nodup) :
    Ring (insertBefore k pos (ends sep)) (xs ++ sep ++ pos :: ys) := by
  have turned : Ring k (pos :: (ys ++ xs)) := ring.rotate
  have nodup' : (sep ++ pos :: (ys ++ xs)).Nodup := by
    have perm : (sep ++ pos :: (ys ++ xs)).Perm (sep ++ (xs ++ pos :: ys)) :=
      (show (pos :: ys ++ xs).Perm (xs ++ pos :: ys) from List.perm_append_comm).append_left sep
    exact perm.nodup_iff.mpr nodup
  have inserted := insertBefore_spec turned path nodup'
  have split : sep ++ pos :: (ys ++ xs) = (sep ++ pos :: ys) ++ xs := by simp
  rw [split] at inserted
  rw [List.append_assoc]
  exact inserted.rotate

/-- `filterChain` on a non-empty arc of a ring returns the chunks whose status is on the list and
keeps the others, both linked in their old order. The others stay a ring with the rest, and
`insertBefore` puts the separated chain before any chunk of it. -/
theorem filterChain_partition (separateStatus : List MemoryStatus) (status : N → MemoryStatus)
    (chunkLoaded : N → Bool) {arc rest : List N} {stop first last : N}
    (ring : Ring k (arc ++ rest)) (is : ends arc = some (first, last))
    (out : stop ∉ arc ++ rest) {fuel : Nat} (enough : arc.length ≤ fuel) :
    let listed := fun x => decide (status x ∈ separateStatus.takeWhile (· ≠ .root))
    let separated := arc.filter listed
    let remaining := arc.filter fun x => !listed x
    ∃ k', filterChain (fun x => separates separateStatus none (status x) (chunkLoaded x)) stop
        fuel k first last = some (k', ends remaining, ends separated) ∧
      Path k' separated ∧ Path k' remaining ∧ Ring k' (remaining ++ rest) ∧
      ∀ xs pos ys, remaining ++ rest = xs ++ pos :: ys →
        Ring (insertBefore k' pos (ends separated)) (xs ++ separated ++ pos :: ys) := by
  intro listed separated remaining
  have byStatus : (fun x => separates separateStatus none (status x) (chunkLoaded x)) = listed := by
    funext x
    simp only [separates, listed]
    split <;> simp_all
  rw [byStatus]
  obtain ⟨k', filtered, ring', path⟩ := filterChain_spec listed ring is out enough
  refine ⟨k', filtered, path, ring'.path.left.left, ring', fun xs pos ys placed => ?_⟩
  have apart : (separated ++ (remaining ++ rest)).Nodup := by
    rw [← List.append_assoc]
    have perm : (separated ++ remaining ++ rest).Perm (arc ++ rest) :=
      (List.filter_append_perm listed arc).append_right rest
    exact perm.nodup_iff.mpr ring.nodup
  rw [placed] at ring' apart
  exact insertBefore_at ring' path apart

/-- The ring `1, 2, 3`. -/
def threeLinks : Links Nat := ⟨fun x => x % 3 + 1, fun x => if x = 1 then 3 else x - 1⟩

theorem ring_threeLinks : Ring threeLinks [1, 2, 3] :=
  ⟨by decide, .cons_cons ⟨rfl, rfl⟩ (.cons_cons ⟨rfl, rfl⟩ (.cons_cons ⟨rfl, rfl⟩ (.singleton _)))⟩

/-- The arc `1, 2` of the ring `1, 2, 3`, where `2` is swapped. -/
theorem filterChain_partition_swapped :
    ∃ k', filterChain (fun x => separates [.swapout, .swapped, .root] none
          (if x = 2 then .swapped else .allocated) false) 0 2 threeLinks 1 2 =
        some (k', some (1, 1), some (2, 2)) ∧ Ring k' [1, 3] := by
  obtain ⟨k', filtered, _, _, ring, _⟩ := filterChain_partition
    [.swapout, .swapped, .root] (fun x => if x = 2 then .swapped else .allocated)
    (fun _ => false) (show Ring threeLinks ([1, 2] ++ [3]) from ring_threeLinks) rfl
    (show 0 ∉ [1, 2] ++ [3] by decide) (show [1, 2].length ≤ 2 from le_rfl)
  exact ⟨k', filtered, ring⟩

end

end Rambrain.Cyclic

namespace Rambrain.Eviction

open Lib Cyclic

/-! ### The three operations with preemptive loading -/

/-- The scheduler with its count of touches of preemptively loaded chunks in a row. -/
structure Scheduler extends toPreemptive : State where
  consecutivePreemptiveTransactions : Nat

namespace State

variable (s : State) (id : Nat)

/-- `preemptiveStart` moves on from the chunk, or is `NULL` when the chunk is the last before
`active`. -/
def startAfter : Option Nat :=
  if s.preemptiveStart = some id then
    if some (s.links.next id) = s.active then none else some (s.links.next id)
  else s.preemptiveStart

/-- The chunk is no longer counted as preemptively loaded. -/
def unflag : State :=
  { s with
    preemptiveBytes := s.preemptiveBytes - (s.chunk id).size
    preemptiveLoaded := Function.update s.preemptiveLoaded id false }

def schedulerRegister : State := { s with toState := s.toState.schedulerRegister id }

def schedulerDelete : State :=
  let t :=
    if s.status id = .swapped ∨ s.status id = .swapout then s
    else if s.preemptiveLoaded id then s.unflag id
    else s
  { t with preemptiveStart := s.startAfter id, toState := s.toState.schedulerDelete id }

end State

namespace Scheduler

variable (s : Scheduler) (id : Nat)

def schedulerRegister : Scheduler := { s with toPreemptive := s.toPreemptive.schedulerRegister id }

def schedulerDelete : Scheduler := { s with toPreemptive := s.toPreemptive.schedulerDelete id }

def touch : Scheduler :=
  let t := if s.preemptiveLoaded id then s.toPreemptive.unflag id else s.toPreemptive
  { toPreemptive :=
      { t with preemptiveStart := s.startAfter id, toState := s.toState.touch id }
    consecutivePreemptiveTransactions :=
      if s.preemptiveLoaded id then s.consecutivePreemptiveTransactions + 1 else 0 }

end Scheduler

/-- The ring read from `active` along `next`, with `counterActive` on it. -/
structure Reads (s : Scheduler) (l : List Nat) : Prop where
  ring : Ring s.links l
  active : s.active = l.head?
  counter : (l = [] ∧ s.counterActive = none) ∨ ∃ c ∈ l, s.counterActive = some c

variable {s : Scheduler} {l : List Nat} {id : Nat}

theorem Reads.register (reads : Reads s l) (out : id ∉ l) :
    Reads (s.schedulerRegister id) (id :: l) := by
  obtain ⟨ring, active, alone, others⟩ := register_ring reads.ring reads.active out
  refine ⟨ring, active, .inr ?_⟩
  rcases reads.counter with ⟨empty, _⟩ | ⟨c, memC, isCounter⟩
  · exact ⟨id, List.mem_cons_self, alone empty⟩
  · obtain ⟨a, l, rfl⟩ := List.exists_cons_of_ne_nil (List.ne_nil_of_mem memC)
    have counterIs : (s.schedulerRegister id).counterActive = _ := others a rfl
    rw [counterIs]
    split_ifs
    · exact ⟨id, List.mem_cons_self, rfl⟩
    · exact ⟨c, List.mem_cons_of_mem id memC, isCounter⟩

theorem Reads.touch (reads : Reads s l) (mem : id ∈ l) :
    Reads (s.touch id) (id :: l.erase id) ∧
      (s.touch id).counterActive =
        if s.counterActive = some id ∧ s.active ≠ some id then some (s.links.prev id)
        else s.counterActive := by
  obtain ⟨ring, active, counter⟩ := touch_front reads.ring reads.active mem
  have kept : ∀ c ∈ l, c ∈ id :: l.erase id := fun c memC => by
    by_cases same : c = id
    · exact same ▸ List.mem_cons_self
    · exact List.mem_cons_of_mem id ((List.mem_erase_of_ne same).mpr memC)
  refine ⟨⟨ring, active, .inr ?_⟩, counter⟩
  obtain ⟨c, memC, isCounter⟩ : ∃ c ∈ l, s.counterActive = some c :=
    reads.counter.resolve_left fun empty => List.ne_nil_of_mem mem empty.1
  by_cases away : s.counterActive = some id ∧ s.active ≠ some id
  · exact ⟨s.links.prev id, kept _ (reads.ring.prev_mem mem), counter.trans (if_pos away)⟩
  · exact ⟨c, kept c memC, (counter.trans (if_neg away)).trans isCounter⟩

theorem Reads.delete (reads : Reads s l) (mem : id ∈ l) :
    Reads (s.schedulerDelete id) (l.erase id) ∧
      (l ≠ [id] → (s.schedulerDelete id).counterActive =
        if s.counterActive = some id then some (s.links.prev id) else s.counterActive) := by
  obtain ⟨ring, active, single, many⟩ := delete_ring reads.ring reads.active mem
  refine ⟨⟨ring, active, ?_⟩, fun more => (many more).2⟩
  by_cases alone : l = [id]
  · refine .inl ⟨?_, single alone⟩
    rw [alone, List.erase_cons_head]
  · obtain ⟨other, counterIs⟩ := many alone
    obtain ⟨c, memC, isCounter⟩ : ∃ c ∈ l, s.counterActive = some c :=
      reads.counter.resolve_left fun empty => List.ne_nil_of_mem mem empty.1
    have counter : (s.schedulerDelete id).counterActive = _ := counterIs
    rw [counter]
    split_ifs with onIt
    · exact .inr ⟨_, (List.mem_erase_of_ne other).mpr (reads.ring.prev_mem mem), rfl⟩
    · refine .inr ⟨c, (List.mem_erase_of_ne fun same => ?_).mpr memC, isCounter⟩
      exact onIt (same ▸ isCounter)

/-- Read as a list from `active` on, `schedulerRegister` puts a new chunk at the front, `touch`
moves a chunk to the front and `schedulerDelete` removes it; nothing else moves. `counterActive`
stays on the ring, as long as there is one: it moves to the predecessor of the chunk it was on
when that one is deleted, or touched and not at the front already. -/
theorem operations_on_list (reads : Reads s l) :
    (∀ id ∉ l, Reads (s.schedulerRegister id) (id :: l)) ∧
      (∀ id ∈ l, Reads (s.touch id) (id :: l.erase id) ∧
        (s.counterActive = some id → s.active ≠ some id →
          (s.touch id).counterActive = some (s.links.prev id)) ∧
        (s.counterActive ≠ some id → (s.touch id).counterActive = s.counterActive)) ∧
      ∀ id ∈ l, Reads (s.schedulerDelete id) (l.erase id) ∧
        (l ≠ [id] →
          (s.counterActive = some id →
            (s.schedulerDelete id).counterActive = some (s.links.prev id)) ∧
          (s.counterActive ≠ some id →
            (s.schedulerDelete id).counterActive = s.counterActive)) := by
  refine ⟨fun id out => reads.register out, fun id mem => ?_, fun id mem => ?_⟩
  · obtain ⟨moved, counter⟩ := reads.touch mem
    refine ⟨moved, fun isCounter away => ?_, fun notAt => ?_⟩
    · rw [counter, if_pos ⟨isCounter, away⟩]
    · rw [counter, if_neg fun both => notAt both.1]
  · obtain ⟨removed, counter⟩ := reads.delete mem
    refine ⟨removed, fun more => ⟨fun isCounter => ?_, fun notAt => ?_⟩⟩
    · rw [counter more, if_pos isCounter]
    · rw [counter more, if_neg notAt]

/-- `1`, `2` and `3` on a ring, with `counterActive` on `2` and `preemptiveStart` on `3`. -/
def threeChunks : Scheduler where
  links := threeLinks
  active := some 1
  counterActive := some 2
  chunk := fun _ => ⟨⟨.allocated, 0⟩, 1⟩
  memChunks := {1, 2, 3}
  memIDPace := 4
  memoryUsed := 3
  memoryMax := 10
  clock := 0
  lastTouch := fun _ => 0
  preemptiveStart := some 3
  preemptiveLoaded := fun x => x = 3
  preemptiveBytes := 1
  consecutivePreemptiveTransactions := 0

theorem reads_threeChunks : Reads threeChunks [1, 2, 3] where
  ring := ring_threeLinks
  active := rfl
  counter := .inr ⟨2, by decide, rfl⟩

theorem operations_on_list_threeChunks :
    Reads (threeChunks.touch 2) [2, 1, 3] ∧ (threeChunks.touch 2).counterActive = some 1 := by
  obtain ⟨_, touched, _⟩ := operations_on_list reads_threeChunks
  obtain ⟨moved, away, _⟩ := touched 2 (by decide)
  exact ⟨moved, away rfl (by decide)⟩

end Rambrain.Eviction
