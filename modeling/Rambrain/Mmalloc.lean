import Rambrain.EnoughSpace

/-!
`managedMemory::mmalloc` and the exceptions it leaves by (`managedMemory.cpp`).

The bytes are counted, and the chunk is put on the ring and into `memChunks`, before the buffer is
allocated. An exception of `ensureEnoughSpace` comes before all of this, also one that the swap or
the wait for it has thrown: it leaves the call with some chunks evicted. When `_mm_malloc` fails,
the code throws and takes nothing back, so the chunk stays without a buffer (`mmalloc_clean_iff`).

The links of the chunk tree are in `Rambrain.ChunkTree`.
-/

namespace Rambrain.EnoughSpace

open Lib Cyclic
open Eviction (WellFormed)

/-- How `mmalloc` ends. -/
inductive Ended where
  | returned (id : Nat)
  | threw (what : String)
  | waits
  deriving DecidableEq

/-- `sizereq` rounded up to the alignment. -/
def aligned (memoryAlignment sizereq : UInt64) : UInt64 :=
  sizereq + if sizereq % memoryAlignment = 0 then 0 else memoryAlignment - sizereq % memoryAlignment

/-- What a call that is alone meets up to a wait and in it: transfers complete, of these chunks, and
an exception may leave the wait. -/
structure Wait where
  swaps : List Answers
  arrived : List Nat := []
  throws : Option String := none

def alone (waits : List Wait) : List Interval :=
  waits.map fun w => ⟨w.swaps, fun m => m.arrive w.arrived, w.throws⟩

namespace Manager

variable (m : Manager)

/-- The new chunk on the ring and in `memChunks`. -/
def enlist (sizereq : UInt64) : Manager :=
  let id := m.memIDPace
  let counted : Eviction.Scheduler :=
    { m.toScheduler with
      memoryUsed := globalBytesize (m.memoryUsed + sizereq.toNat)
      memIDPace := id + 1
      chunk := Function.update m.chunk id ⟨.fresh, sizereq.toNat⟩
      preemptiveLoaded := Function.update m.preemptiveLoaded id false }
  let touched := (counted.schedulerRegister id).touch id
  { toScheduler := { touched with memChunks := insert id touched.memChunks }
    memoryTobefreed := m.memoryTobefreed
    locPtr := Function.update m.locPtr id false }

/-- `mmalloc` behind `ensureEnoughSpace`; `allocates` is whether `_mm_malloc` succeeds. -/
def allocate (sizereq : UInt64) (allocates : Bool) : Ended × Manager :=
  let t := m.enlist sizereq
  if sizereq = 0 then (.returned m.memIDPace, t)
  else if allocates then
    (.returned m.memIDPace, { t with locPtr := Function.update t.locPtr m.memIDPace true })
  else (.threw "Malloc failed", t)

/-- `mmalloc`, with what `ensureEnoughSpace` meets. -/
def mmalloc (allocMax : Nat → Nat) (outOfSwapIsFatal : Bool) (memoryAlignment sizereq : UInt64)
    (waits : List Wait) (allocates : Bool) : Option (Ended × Manager) :=
  (ensureEnoughSpace allocMax outOfSwapIsFatal (aligned memoryAlignment sizereq) none
      (alone waits) m).map fun r =>
    match r.2 with
    | (.returned _, t) => t.allocate (aligned memoryAlignment sizereq) allocates
    | (.threw what, t) => (.threw what, t)
    | (.waits, t) => (.waits, t)

end Manager

/-- The same chunks are registered and on the ring as in `m`, which had the ring `L`; the bytes in
RAM are counted, and every chunk in RAM has its buffer. -/
structure Clean (m t : Manager) (L : List Nat) : Prop where
  memChunks : t.memChunks = m.memChunks
  ring : ∃ L', Ring t.links L' ∧ L'.Perm L
  used : t.memoryUsed = t.residentBytes
  buffers : HasBuffers t

variable {m t : Manager} {L : List Nat} {allocMax : Nat → Nat} {outOfSwapIsFatal : Bool}
  {sizereq : UInt64} {orisSwappedin : Option Nat}

theorem ensureFrom_still (waits : List Wait) :
    ∀ {m : Manager} {L : List Nat} {cacheCleaned : Bool} {log : List Stretch} {stop : Stop}
      {t : Manager}, Accounted m L →
      ensureFrom allocMax outOfSwapIsFatal sizereq orisSwappedin (alone waits) cacheCleaned m =
        some (log, stop, t) → ∃ L', Still m t L L' := by
  induction waits with
  | nil =>
      intro m L cacheCleaned log stop t acc ended
      cases ended
      exact ⟨L, (Kept.refl acc).still⟩
  | cons w waits ih =>
      intro m L cacheCleaned log stop t acc ended
      obtain ⟨r, stretch, ended⟩ := Option.bind_eq_some_iff.mp ended
      obtain ⟨L', kept⟩ := (untilWait_spec acc stretch).kept
      cases is : r.stop with
      | waits =>
          rw [is] at ended
          have arrived := arrive_still kept.accounted w.arrived
          cases thrown : w.throws with
          | some what =>
              simp only [thrown] at ended
              cases ended
              exact ⟨L', kept.still.trans arrived⟩
          | none =>
              simp only [thrown] at ended
              obtain ⟨⟨rest, last⟩, later, eq⟩ := Option.map_eq_some_iff.mp ended
              obtain ⟨-, rfl⟩ := Prod.mk.inj eq
              obtain ⟨L'', still⟩ := ih arrived.accounted later
              exact ⟨L'', (kept.still.trans arrived).trans still⟩
      | _ =>
          rw [is] at ended
          cases ended
          exact ⟨L', kept.still⟩

theorem Still.clean {L' : List Nat} (still : Still m t L L') (buffers : HasBuffers m) :
    Clean m t L where
  memChunks := still.memChunks
  ring := by
    refine ⟨L', ?_, still.same⟩
    rcases still.accounted.ring with ⟨rfl, _⟩ | wf
    · exact ⟨List.nodup_nil, path_nil⟩
    · exact wf.ring
  used := still.accounted.used
  buffers := still.buffers buffers

/-- The new chunk is registered. -/
theorem mem_enlist (m : Manager) (sizereq : UInt64) :
    m.memIDPace ∈ (m.enlist sizereq).memChunks :=
  Finset.mem_insert_self _ _

/-- Whatever a call of `mmalloc` meets, also exceptions of the swap, it holds of it that an
exception leaves no chunk behind exactly if `_mm_malloc` is not the call that fails. -/
theorem mmalloc_clean_iff (acc : Accounted m L) (buffers : HasBuffers m)
    (fresh : ∀ x ∈ m.memChunks, x < m.memIDPace) (memoryAlignment sizereq : UInt64)
    (waits : List Wait) (allocates : Bool) {e : Ended}
    (ended : m.mmalloc allocMax outOfSwapIsFatal memoryAlignment sizereq waits allocates =
      some (e, t)) :
    ((∃ what, e = .threw what) → Clean m t L) ↔
      (allocates = true ∨ aligned memoryAlignment sizereq = 0 ∨
        ∀ log there u, ensureEnoughSpace allocMax outOfSwapIsFatal
          (aligned memoryAlignment sizereq) none (alone waits) m ≠
            some (log, .returned there, u)) := by
  obtain ⟨⟨log, stop, u⟩, ensured, is⟩ := Option.map_eq_some_iff.mp ended
  obtain ⟨L', still⟩ := ensureFrom_still waits acc ensured
  cases stop with
  | threw what =>
      cases is
      refine ⟨fun _ => .inr (.inr fun log' there u' eq => ?_), fun _ _ => still.clean buffers⟩
      rw [ensured] at eq
      cases eq
  | waits =>
      cases is
      refine ⟨fun _ => .inr (.inr fun log' there u' eq => ?_), fun _ threw => ?_⟩
      · rw [ensured] at eq
        cases eq
      · obtain ⟨what, eq⟩ := threw
        cases eq
  | returned there =>
      replace is : u.allocate (aligned memoryAlignment sizereq) allocates = (e, t) := is
      unfold Manager.allocate at is
      split_ifs at is with empty allocated
      · cases is
        refine ⟨fun _ => .inr (.inl empty), fun _ threw => ?_⟩
        obtain ⟨what, eq⟩ := threw
        cases eq
      · cases is
        refine ⟨fun _ => .inl allocated, fun _ threw => ?_⟩
        obtain ⟨what, eq⟩ := threw
        cases eq
      · cases is
        constructor
        · intro clean
          have mem := mem_enlist u (aligned memoryAlignment sizereq)
          rw [(clean ⟨_, rfl⟩).memChunks, still.memIDPace] at mem
          exact absurd (fresh _ mem) (Nat.lt_irrefl _)
        · rintro (allocates' | empty' | never)
          · exact absurd allocates' allocated
          · exact absurd empty' empty
          · exact absurd ensured (never log there u)

/-- Two resident chunks of 8 bytes that take up the limit. -/
def filled : Manager :=
  { writing with
    links := ⟨fun x => 3 - x, fun x => 3 - x⟩
    chunk := fun _ => ⟨⟨.allocated, 0⟩, 8⟩
    memChunks := {1, 2}
    memIDPace := 3
    memoryUsed := 16
    memoryMax := 16
    memoryTobefreed := 0 }

theorem accounted_filled : Accounted filled [1, 2] where
  ring := .inr {
    ring := ⟨by decide, .cons_cons ⟨rfl, rfl⟩ (.cons_cons ⟨rfl, rfl⟩ (.singleton _))⟩
    mem := fun x => by simp [filled]
    active := ⟨1, by decide, rfl⟩
    counter := ⟨1, by decide, rfl⟩
    real := by decide }
  used := rfl
  tobefreed := rfl
  within := by decide
  maxFits := by decide
  usedFits := by decide

/-- The write of the first chunk of the list is scheduled; at the second one there is no place left
in the swap. -/
def outOfSpace : Answers where
  getFreeSwap := 20
  cleaned := 20
  extendSwapByPolicy := false
  extended := 20
  takes id := if id = 1 then some .swapout else none
  throws := some (1, "Out of swap space")

/-- The exception leaves both chunks registered, one of them on its way to the swap. -/
theorem mmalloc_clean_iff_outOfSpace : ∃ t, filled.mmalloc (fun n => n) true 8 16
      [{ swaps := [outOfSpace] }] true = some (.threw "Out of swap space", t) ∧
      t.status 1 = .swapout ∧ Clean filled t [1, 2] := by
  have ended : ∃ t, filled.mmalloc (fun n => n) true 8 16 [{ swaps := [outOfSpace] }] true =
      some (.threw "Out of swap space", t) ∧ t.status 1 = .swapout := ⟨_, rfl, rfl⟩
  obtain ⟨t, threw, leaving⟩ := ended
  refine ⟨t, threw, leaving, (mmalloc_clean_iff accounted_filled (fun x _ _ _ => rfl) ?_ 8 16 _ true
    threw).mpr (.inl rfl) ⟨_, rfl⟩⟩
  intro x mem
  have either : x = 1 ∨ x = 2 := by simpa [filled] using mem
  rcases either with rfl | rfl <;> decide

/-- A manager without chunks. -/
def noChunks : Manager :=
  { writing with
    active := none
    counterActive := none
    memChunks := ∅
    memIDPace := 1
    memoryUsed := 0
    memoryTobefreed := 0 }

theorem accounted_noChunks : Accounted noChunks [] where
  ring := .inl ⟨rfl, rfl, rfl, rfl⟩
  used := rfl
  tobefreed := rfl
  within := by decide
  maxFits := by decide
  usedFits := by decide

/-- The first chunk finds room but no buffer. -/
theorem mmalloc_leaves_chunk : ¬ ∀ (m t : Manager) (L : List Nat) (allocMax : Nat → Nat)
    (memoryAlignment sizereq : UInt64) (waits : List Wait)
    (allocates : Bool) (what : String), Accounted m L → HasBuffers m →
      (∀ x ∈ m.memChunks, x < m.memIDPace) →
      m.mmalloc allocMax true memoryAlignment sizereq waits allocates = some (.threw what, t) →
      Clean m t L := by
  intro claim
  have clean := claim noChunks (noChunks.enlist 8) [] (fun n => n) 8 8
    [{ swaps := [refusing] }] false
    "Malloc failed" accounted_noChunks (fun x mem => absurd mem (Finset.notMem_empty x))
    (fun x mem => absurd mem (Finset.notMem_empty x)) rfl
  have mem := mem_enlist noChunks 8
  rw [clean.memChunks] at mem
  exact absurd mem (Finset.notMem_empty _)

end Rambrain.EnoughSpace
