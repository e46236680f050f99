import Rambrain.RingOps

/-!
`managedMemory::ensureEnoughSpace`, over the scheduler.

The loop calls `swapOut` and waits for transfers in between. What the swap answers in each call is
given, with the exceptions by which it leaves, and what happens during a wait, so a run is any run
the program can make, with one thread or several. A wait is `waitForAIO`, which returns when
something has happened; the loop waits only while `memory_tobefreed` promises that it will
(`waits_for_transfers`).
-/

namespace Rambrain.EnoughSpace

open Lib Cyclic
open Eviction (Swap Taken WellFormed Result Rounds)

/-! ### What `swapOut` does to the counters -/

section
variable {s t : Eviction.State} {L : List Nat} {takes : Nat → Option Taken}

/-- The ring is another one, the chunks and the counters are the same. -/
structure SameBytes (s t : Eviction.State) : Prop where
  chunk : t.chunk = s.chunk
  memoryUsed : t.memoryUsed = s.memoryUsed
  memoryMax : t.memoryMax = s.memoryMax
  memIDPace : t.memIDPace = s.memIDPace

theorem reorder_sameBytes {fromPos counterActive active : Nat}
    (is : s.reorder fromPos counterActive active = some t) : SameBytes s t := by
  obtain ⟨u, reordered, rfl⟩ := Option.map_eq_some_iff.mp is
  have same : u.chunk = s.chunk ∧ u.memoryUsed = s.memoryUsed ∧ u.memoryMax = s.memoryMax ∧
      u.memIDPace = s.memIDPace := by
    simp only [Cyclic.State.reorder] at reordered
    split at reordered
    · split at reordered <;> cases reordered <;> exact ⟨rfl, rfl, rfl, rfl⟩
    · cases reordered
  constructor <;> dsimp only <;> split_ifs <;> simp [same]

theorem resetStart_sameBytes (is : s.resetStart = some t) : SameBytes s t := by
  simp only [Eviction.State.resetStart] at is
  split at is
  · obtain ⟨cur, -, rfl⟩ := Option.map_eq_some_iff.mp is
    exact ⟨rfl, rfl, rfl, rfl⟩
  · cases is

/-- After the rounds the chunks are as the swap has left them. -/
theorem afterRounds_sameBytes {minSize memSwap counterActive : Nat} {r : Eviction.Round}
    {err : SwapErrorCode}
    (is : s.afterRounds takes minSize memSwap counterActive r = some (err, t)) :
    SameBytes (s.unload takes r) t := by
  simp only [Eviction.State.afterRounds] at is
  split at is
  · cases is
    exact ⟨rfl, rfl, rfl, rfl⟩
  · obtain ⟨u, reordered, is⟩ := Option.bind_eq_some_iff.mp is
    obtain ⟨v, restarted, eq⟩ := Option.map_eq_some_iff.mp is
    obtain ⟨-, rfl⟩ := Prod.mk.inj eq
    have first := reorder_sameBytes reordered
    split_ifs at restarted
    · have second := resetStart_sameBytes restarted
      exact ⟨second.chunk.trans first.chunk, second.memoryUsed.trans first.memoryUsed,
        second.memoryMax.trans first.memoryMax, second.memIDPace.trans first.memIDPace⟩
    · cases restarted
      exact first

/-- What a call of `swapOut` does: it evicts the chunks `E`, gives back the bytes of those that
are stored at once, and keeps to the kind of transfer the swap makes. -/
structure Evicts (s t : Eviction.State) (L E L' : List Nat) (takes : Nat → Option Taken) :
    Prop where
  result : Result s t L E L'
  memoryUsed : t.memoryUsed = s.memoryUsed - s.sizes (E.filter fun x => t.status x = .swapped)
  memoryMax : t.memoryMax = s.memoryMax
  memIDPace : t.memIDPace = s.memIDPace
  taken : ∀ x ∈ E, ∃ taken, takes x = some taken ∧ t.status x = taken.status
  size : ∀ x, (t.chunk x).size = (s.chunk x).size

theorem unload_status {r : Eviction.Round} {x : Nat} {taken : Taken} (mem : x ∈ r.unloadlist)
    (is : takes x = some taken) : (s.unload takes r).status x = taken.status := by
  simp [Eviction.State.unload, Cyclic.State.status, mem, is]

theorem unload_size (s : Eviction.State) (takes : Nat → Option Taken) (r : Eviction.Round)
    (x : Nat) : ((s.unload takes r).chunk x).size = (s.chunk x).size := by
  simp only [Eviction.State.unload]
  split <;> rfl

/-- Once the swap has taken what it takes of the list, the counters say so. -/
theorem evicts_of_result {r : Eviction.Round} {L' : List Nat}
    (bytes : SameBytes (s.unload takes r) t) (result : Result s t L (r.taken takes) L') :
    Evicts s t L (r.taken takes) L' takes := by
  have statuses : ∀ x ∈ r.taken takes, ∃ taken, takes x = some taken ∧
      t.status x = taken.status := by
    intro x mem
    obtain ⟨listed, answers⟩ := List.mem_filter.mp mem
    obtain ⟨taken, answer⟩ := Option.isSome_iff_exists.mp answers
    refine ⟨taken, answer, ?_⟩
    rw [Cyclic.State.status, bytes.chunk]
    exact unload_status listed answer
  have stored : r.unloadlist.filter (fun x => takes x = some .swapped) =
      (r.taken takes).filter fun x => t.status x = .swapped := by
    rw [Eviction.Round.taken, List.filter_filter]
    apply List.filter_congr
    intro x mem
    cases answer : takes x with
    | none => simp
    | some taken =>
        obtain ⟨taken', answer', status⟩ := statuses x
          (List.mem_filter.mpr ⟨mem, by simp [answer]⟩)
        rw [answer] at answer'
        cases answer'
        cases taken <;> simp [status, Taken.status]
  refine ⟨result, ?_, bytes.memoryMax, bytes.memIDPace, statuses, fun x => ?_⟩
  · rw [bytes.memoryUsed, ← stored]
    rfl
  · rw [bytes.chunk, unload_size]

theorem swapOut_evicts (wf : WellFormed s L) {swap : Swap} {allocMax : Nat → Nat} {minSize : Nat}
    {err : SwapErrorCode} (is : s.swapOut swap allocMax minSize = some (err, t)) :
    ∃ E L', Evicts s t L E L' swap.takes ∧ (err = .success → minSize ≤ s.sizes E) := by
  rcases Eviction.swapOut_cases wf swap allocMax minSize with ⟨e, failed, -, same, -⟩ |
    ⟨unset, -⟩ |
    ⟨memSwap, active, counterActive, rest, arc, r, atLeast, positive, rounds, same, -⟩
  · rw [same] at is
    cases is
    exact ⟨[], L, ⟨.refl wf, rfl, rfl, rfl, fun x mem => (by cases mem), fun _ => rfl⟩,
      fun success => absurd success failed⟩
  · rw [unset] at is
    cases is
  · rw [same] at is
    have bytes := afterRounds_sameBytes is
    rcases rounds.afterRounds wf atLeast positive swap.takes with ⟨zero, after⟩ |
      ⟨e, u, L', after, -, result, -, enough⟩
    · rw [after] at is
      cases is
      exact ⟨_, L, evicts_of_result bytes (rounds.fruitless wf), fun success => by cases success⟩
    · rw [after] at is
      cases is
      exact ⟨_, L', evicts_of_result bytes result, enough⟩

/-- An exception of the swap leaves the chunks of its list evicted up to there. -/
theorem thrownAt_evicts (wf : WellFormed s L) {swap : Swap} {allocMax : Nat → Nat}
    {minSize n : Nat} (threw : s.thrownAt n swap allocMax minSize = some t) :
    ∃ E takes, Evicts s t L E L takes ∧ ∀ x taken, takes x = some taken →
      swap.takes x = some taken := by
  obtain ⟨active, counterActive, rest, arc, r, rounds, rfl⟩ := Eviction.thrownAt_rounds wf threw
  refine ⟨_, r.takesUpTo swap.takes n,
    evicts_of_result ⟨rfl, rfl, rfl, rfl⟩ (rounds.fruitless wf), fun x taken is => ?_⟩
  unfold Eviction.Round.takesUpTo at is
  split_ifs at is
  exact is

end

/-! ### The loop -/

/-- The value that a `global_bytesize` holds. -/
def globalBytesize (x : Int) : Nat := (x % 18446744073709551616).toNat

structure Manager extends toScheduler : Eviction.Scheduler where
  memoryTobefreed : Nat
  /-- Whether the chunk has its buffer. -/
  locPtr : Nat → Bool

/-- What the swap answers in one call of `swapOut`, and the exceptions by which it leaves it. -/
structure Answers extends Swap where
  extendThrows : Option String := none
  /-- The exception of `swapOut` of the list, and the chunk of the list at which it is thrown. -/
  throws : Option (Nat × String) := none

/-- The exception of `extendSwapByPolicy`, when the call comes to it. -/
def Answers.unextended (swap : Answers) (memoryMax minSize : Nat) : Option String :=
  if minSize ≤ memoryMax ∧ swap.getFreeSwap < minSize ∧ swap.cleaned < minSize then
    swap.extendThrows
  else none

/-- What ends a stretch of the loop. -/
inductive Stop where
  | returned (alreadyThere : Bool)
  | threw (what : String)
  | waits
  deriving DecidableEq

/-- One turn of the loop; it goes on with the next one when nothing stops it. -/
structure Turn where
  stop : Option Stop
  cacheCleaned : Bool
  swapOuts : Nat
  manager : Manager

namespace Manager

variable (m : Manager)

/-- `sizereq + memory_used > memory_max`. -/
def full (sizereq : UInt64) : Bool :=
  m.memoryMax < globalBytesize (sizereq.toNat + m.memoryUsed)

/-- `sizereq + memory_used - memory_tobefreed > memory_max`. -/
def short (sizereq : UInt64) : Bool :=
  m.memoryMax < globalBytesize (sizereq.toNat + m.memoryUsed - m.memoryTobefreed)

def minSize (sizereq : UInt64) : Nat :=
  globalBytesize (sizereq.toNat - (m.memoryMax - m.memoryUsed : Int) - m.memoryTobefreed)

/-- `orisSwappedin` is resident or will be. -/
def isThere (orisSwappedin : Option Nat) : Bool :=
  match orisSwappedin with
  | some id => (m.status id).hasFlag .allocated || m.status id = .swapin
  | none => false

/-- The bytes of the chunks whose write a call has scheduled. -/
def scheduledBytes (t : Eviction.State) : Nat :=
  ∑ x ∈ m.memChunks, if m.status x ≠ .swapout ∧ t.status x = .swapout then (m.chunk x).size else 0

/-- The manager behind the scheduler: a scheduled write is to be freed, and a chunk that is stored
at once loses its buffer. -/
def evicted (t : Eviction.State) : Manager where
  toScheduler := { m.toScheduler with toPreemptive := t }
  memoryTobefreed := m.memoryTobefreed + m.scheduledBytes t
  locPtr := fun x => m.locPtr x && t.status x ≠ .swapped

/-- Where the exception of `swapOut` of the list leaves the manager. -/
def thrown (swap : Answers) (allocMax : Nat → Nat) (minSize : Nat) : Option (String × Manager) :=
  swap.throws.bind fun e =>
    (m.toPreemptive.thrownAt e.1 swap.toSwap allocMax minSize).map fun t => (e.2, m.evicted t)

/-- `swapOut`; it throws when the ring is empty, and an exception of the swap leaves it. -/
def swapOut (swap : Answers) (allocMax : Nat → Nat) (minSize : Nat) :
    Option (Except String SwapErrorCode × Manager) :=
  if m.counterActive = none then
    some (.error "I can't swap out anything if there's nothing to swap out.", m)
  else
    match swap.unextended m.memoryMax minSize, m.thrown swap allocMax minSize with
    | some what, _ => some (.error what, m)
    | none, some (what, t) => some (.error what, t)
    | none, none =>
        (m.toPreemptive.swapOut swap.toSwap allocMax minSize).map fun r => (.ok r.1, m.evicted r.2)

/-- The turn from the return of `swapOut` on. -/
def afterSwapOut (outOfSwapIsFatal : Bool) (sizereq : UInt64) (cacheCleaned : Bool)
    (answer : Except String SwapErrorCode) : Turn :=
  let waits : Option Stop := if m.full sizereq then some .waits else none
  match answer with
  | .error what => ⟨some (.threw what), cacheCleaned, 1, m⟩
  | .ok err =>
      if err ≠ .success ∧ m.memoryTobefreed = 0 then
        if cacheCleaned then
          if outOfSwapIsFatal then ⟨some (.threw err.couldNotSwap), true, 1, m⟩
          else ⟨waits, true, 1, m⟩
        else ⟨none, true, 1, m⟩
      else ⟨waits, cacheCleaned, 1, m⟩

/-- One turn of `while ( sizereq + memory_used > memory_max )`, or its end. -/
def turn (allocMax : Nat → Nat) (outOfSwapIsFatal : Bool) (sizereq : UInt64)
    (orisSwappedin : Option Nat) (swap : Answers) (cacheCleaned : Bool) : Option Turn :=
  if m.full sizereq then
    if m.isThere orisSwappedin then some ⟨some (.returned true), cacheCleaned, 0, m⟩
    else if m.short sizereq then
      (m.swapOut swap allocMax (m.minSize sizereq)).map fun r =>
        r.2.afterSwapOut outOfSwapIsFatal sizereq cacheCleaned r.1
    else some ⟨some .waits, cacheCleaned, 0, m⟩
  else some ⟨some (.returned (m.isThere orisSwappedin)), cacheCleaned, 0, m⟩

def setStatus (id : Nat) (status : MemoryStatus) : Manager where
  toScheduler := { m.toScheduler with
    chunk := Function.update m.chunk id { m.chunk id with status } }
  memoryTobefreed := m.memoryTobefreed
  locPtr := m.locPtr

/-- `completeTransactionOn` the chunk, if a transfer of it is under way. -/
def complete (id : Nat) : Manager :=
  if id ∈ m.memChunks then
    match m.status id with
    | .swapin =>
        m.setStatus id (if (m.chunk id).useCnt = 0 then .allocated else .allocatedInuseRead)
    | .swapout =>
        let t := m.setStatus id .swapped
        { t with
          memoryUsed := t.memoryUsed - (m.chunk id).size
          memoryTobefreed := t.memoryTobefreed - (m.chunk id).size
          locPtr := Function.update t.locPtr id false }
    | _ => m
  else m

/-- The transfers of these chunks complete. -/
def arrive (ids : List Nat) : Manager := ids.foldl complete m

end Manager

/-- The loop up to the next wait, or to its end. -/
structure Stretch where
  stop : Stop
  cacheCleaned : Bool
  /-- How often `swapOut` was called. -/
  swapOuts : Nat
  manager : Manager

/-- What the loop meets up to a wait, and what happens while it waits; `waitForAIO` may be left by
an exception. -/
structure Interval where
  swaps : List Answers
  after : Manager → Manager
  throws : Option String := none

section
variable (allocMax : Nat → Nat) (outOfSwapIsFatal : Bool) (sizereq : UInt64)
  (orisSwappedin : Option Nat)

def untilWait : List Answers → Bool → Manager → Option Stretch
  | [], _, _ => none
  | swap :: swaps, cacheCleaned, m =>
      (m.turn allocMax outOfSwapIsFatal sizereq orisSwappedin swap cacheCleaned).bind fun r =>
        match r.stop with
        | some stop => some ⟨stop, r.cacheCleaned, r.swapOuts, r.manager⟩
        | none => (untilWait swaps r.cacheCleaned r.manager).map fun rest =>
            { rest with swapOuts := r.swapOuts + rest.swapOuts }

/-- `ensureEnoughSpace` from a wait or from its start on, with its stretches. It still waits when
the intervals run out. -/
def ensureFrom : List Interval → Bool → Manager → Option (List Stretch × Stop × Manager)
  | [], _, m => some ([], .waits, m)
  | i :: is, cacheCleaned, m =>
      (untilWait allocMax outOfSwapIsFatal sizereq orisSwappedin i.swaps cacheCleaned m).bind
        fun r =>
          match r.stop with
          | .waits =>
              match i.throws with
              | some what => some ([r], .threw what, i.after r.manager)
              | none => (ensureFrom is r.cacheCleaned (i.after r.manager)).map fun rest =>
                  (r :: rest.1, rest.2)
          | stop => some ([r], stop, r.manager)

def ensureEnoughSpace (is : List Interval) (m : Manager) : Option (List Stretch × Stop × Manager) :=
  ensureFrom allocMax outOfSwapIsFatal sizereq orisSwappedin is false m

end

/-! ### What the counters hold -/

/-- In RAM, or on the way from or to it. -/
def residentSize (c : Cyclic.Chunk) : Nat := if c.status = .swapped then 0 else c.size

def swapoutSize (c : Cyclic.Chunk) : Nat := if c.status = .swapout then c.size else 0

namespace Manager

variable (m : Manager)

def residentBytes : Nat := ∑ x ∈ m.memChunks, residentSize (m.chunk x)

def swapoutBytes : Nat := ∑ x ∈ m.memChunks, swapoutSize (m.chunk x)

end Manager

/-- The ring is `L`, which is empty without chunks. -/
def HoldsRing (s : Eviction.State) (L : List Nat) : Prop :=
  (L = [] ∧ s.counterActive = none ∧ s.active = none ∧ s.memChunks = ∅) ∨ WellFormed s L

/-- The ring is `L`, which is well formed, the counters hold what they stand for, and
`memory_used - memory_tobefreed` is within `memory_max`. -/
structure Accounted (m : Manager) (L : List Nat) : Prop where
  ring : HoldsRing m.toPreemptive L
  used : m.memoryUsed = m.residentBytes
  tobefreed : m.memoryTobefreed = m.swapoutBytes
  within : m.memoryUsed ≤ m.memoryMax + m.memoryTobefreed
  maxFits : m.memoryMax < 18446744073709551616
  usedFits : m.memoryUsed < 18446744073709551616

/-- Every chunk in RAM has its buffer. -/
def HasBuffers (m : Manager) : Prop :=
  ∀ x ∈ m.memChunks, m.status x ≠ .swapped → (m.chunk x).size ≠ 0 → m.locPtr x = true

variable {m : Manager} {L : List Nat} {swap : Answers} {allocMax : Nat → Nat}
  {takes : Nat → Option Taken}

theorem sizes_eq_sum {s : Eviction.State} {E : List Nat} (nodup : E.Nodup)
    (sub : ∀ x ∈ E, x ∈ s.memChunks) :
    s.sizes E = ∑ x ∈ s.memChunks, if x ∈ E then (s.chunk x).size else 0 := by
  have inter : s.memChunks ∩ E.toFinset = E.toFinset :=
    Finset.inter_eq_right.mpr fun x mem => sub x (List.mem_toFinset.mp mem)
  have sum := Finset.sum_ite_mem s.memChunks E.toFinset fun x => (s.chunk x).size
  simp only [List.mem_toFinset, inter] at sum
  rw [sum, List.sum_toFinset _ nodup]
  rfl

theorem Result.memChunks_eq {s t : Eviction.State} {E L' : List Nat} (wf : WellFormed s L)
    (result : Result s t L E L') : t.memChunks = s.memChunks := by
  ext x
  rw [← wf.mem, ← result.wellFormed.mem, result.same.mem_iff]

/-- What an eviction moves from `memory_used` to `memory_tobefreed`. -/
theorem evicted_bytes {t : Eviction.State} {E L' : List Nat} (wf : WellFormed m.toPreemptive L)
    (evicts : Evicts m.toPreemptive t L E L' takes) :
    (m.evicted t).residentBytes + m.sizes (E.filter fun x => t.status x = .swapped) =
        m.residentBytes ∧
      (m.evicted t).swapoutBytes = m.swapoutBytes + m.scheduledBytes t ∧
      m.sizes E = m.sizes (E.filter fun x => t.status x = .swapped) + m.scheduledBytes t := by
  have memChunks : t.memChunks = m.memChunks := Result.memChunks_eq wf evicts.result
  have known : ∀ x ∈ E, x ∈ m.memChunks := fun x mem =>
    (wf.mem x).mp (evicts.result.evicted x mem).1
  have stored := sizes_eq_sum (s := m.toPreemptive)
    (evicts.result.nodup.filter fun x => t.status x = .swapped)
    fun x mem => known x (List.mem_filter.mp mem).1
  have all := sizes_eq_sum (s := m.toPreemptive) evicts.result.nodup known
  have either : ∀ x, (x ∉ E ∧ t.chunk x = m.chunk x) ∨
      (x ∈ E ∧ (m.chunk x).status = .allocated ∧
        ((t.chunk x).status = .swapped ∨ (t.chunk x).status = .swapout)) := by
    intro x
    by_cases mem : x ∈ E
    · obtain ⟨_, resident, _, status⟩ := evicts.result.evicted x mem
      exact .inr ⟨mem, resident, status⟩
    · exact .inl ⟨mem, evicts.result.others x mem⟩
  refine ⟨?_, ?_, ?_⟩
  · rw [stored, Manager.residentBytes, Manager.residentBytes]
    show (∑ x ∈ t.memChunks, residentSize (t.chunk x)) + _ = _
    rw [memChunks, ← Finset.sum_add_distrib]
    apply Finset.sum_congr rfl
    intro x _
    have size := evicts.size x
    rcases either x with ⟨out, same⟩ | ⟨mem, resident, status | status⟩
    · simp [out, same]
    · simp [residentSize, Cyclic.State.status, mem, resident, status]
    · simp [residentSize, Cyclic.State.status, mem, resident, status, size]
  · rw [Manager.swapoutBytes, Manager.swapoutBytes, Manager.scheduledBytes]
    show (∑ x ∈ t.memChunks, swapoutSize (t.chunk x)) = _
    rw [memChunks, ← Finset.sum_add_distrib]
    apply Finset.sum_congr rfl
    intro x _
    have size := evicts.size x
    rcases either x with ⟨out, same⟩ | ⟨mem, resident, status | status⟩
    · simp [Cyclic.State.status, same]
    · simp [swapoutSize, Cyclic.State.status, resident, status]
    · simp [swapoutSize, Cyclic.State.status, resident, status, size]
  · rw [stored, all, Manager.scheduledBytes, ← Finset.sum_add_distrib]
    apply Finset.sum_congr rfl
    intro x _
    rcases either x with ⟨out, same⟩ | ⟨mem, resident, status | status⟩
    · simp [Cyclic.State.status, out, same]
    · simp [Cyclic.State.status, mem, resident, status]
    · simp [Cyclic.State.status, mem, resident, status]

/-- What is kept from `m` to `t`, where only chunks have been evicted; `freed` bytes of them are
stored or will be. -/
structure Kept (m t : Manager) (L L' : List Nat) (freed : Nat) : Prop where
  accounted : Accounted t L'
  same : L'.Perm L
  memChunks : t.memChunks = m.memChunks
  memoryMax : t.memoryMax = m.memoryMax
  memIDPace : t.memIDPace = m.memIDPace
  used : t.memoryUsed ≤ m.memoryUsed
  tobefreed : m.memoryTobefreed ≤ t.memoryTobefreed
  freed : t.memoryUsed + m.memoryTobefreed + freed ≤ m.memoryUsed + t.memoryTobefreed
  size : ∀ x, (t.chunk x).size = (m.chunk x).size
  buffers : HasBuffers m → HasBuffers t

variable {t : Manager} {minSize : Nat} {answer : Except String SwapErrorCode}

theorem Kept.refl (acc : Accounted m L) : Kept m m L L 0 :=
  ⟨acc, .refl L, rfl, rfl, rfl, Nat.le_refl _, Nat.le_refl _, Nat.le_refl _, fun _ => rfl, id⟩

theorem evicted_kept (acc : Accounted m L) (wf : WellFormed m.toPreemptive L)
    {t : Eviction.State} {E L' : List Nat} (evicts : Evicts m.toPreemptive t L E L' takes) :
    Kept m (m.evicted t) L L' (m.sizes E) := by
  obtain ⟨resident, swapout, all⟩ := evicted_bytes wf evicts
  have memChunks : t.memChunks = m.memChunks := Result.memChunks_eq wf evicts.result
  have used : (m.evicted t).memoryUsed =
      m.memoryUsed - m.sizes (E.filter fun x => t.status x = .swapped) := evicts.memoryUsed
  have tobefreed : (m.evicted t).memoryTobefreed = m.memoryTobefreed + m.scheduledBytes t := rfl
  have max : (m.evicted t).memoryMax = m.memoryMax := evicts.memoryMax
  have accUsed := acc.used
  have accTobefreed := acc.tobefreed
  have within := acc.within
  refine ⟨⟨.inr evicts.result.wellFormed, by omega, by omega, by omega, ?_, ?_⟩,
    evicts.result.same, memChunks, max, evicts.memIDPace, by omega, by omega, by omega,
    evicts.size, ?_⟩
  · rw [max]
    exact acc.maxFits
  · have := acc.usedFits
    omega
  · intro buffers x mem inRam sized
    replace inRam : t.status x ≠ .swapped := inRam
    replace sized : (t.chunk x).size ≠ 0 := sized
    have there : m.status x ≠ .swapped := by
      by_cases out : x ∈ E
      · rw [(evicts.result.evicted x out).2.1]
        decide
      · rw [← show t.status x = m.status x from
          congrArg (fun c : Cyclic.Chunk => c.status) (evicts.result.others x out)]
        exact inRam
    have has := buffers x (memChunks ▸ mem) there (by rw [← evicts.size]; exact sized)
    simp [Manager.evicted, has, inRam]

/-- A swap that stores at once schedules nothing. -/
theorem scheduledBytes_synchronous {t : Eviction.State} {E L' : List Nat}
    (evicts : Evicts m.toPreemptive t L E L' takes) (synchronous : ∀ x, takes x ≠ some .swapout) :
    m.scheduledBytes t = 0 := by
  apply Finset.sum_eq_zero
  intro x _
  rw [if_neg]
  rintro ⟨before, after⟩
  by_cases mem : x ∈ E
  · obtain ⟨taken, answer, status⟩ := evicts.taken x mem
    cases taken with
    | swapped => rw [after] at status; cases status
    | swapout => exact synchronous x answer
  · have same := congrArg (fun c : Cyclic.Chunk => c.status) (evicts.result.others x mem)
    exact before (same.symm.trans after)

/-- Where an exception of the swap leaves a call of `swapOut`, chunks have been evicted as well. -/
theorem thrown_kept (acc : Accounted m L) (wf : WellFormed m.toPreemptive L) {what : String}
    (threw : m.thrown swap allocMax minSize = some (what, t)) :
    ∃ freed, Kept m t L L freed ∧
      ((∀ x, swap.takes x ≠ some .swapout) → t.memoryTobefreed = m.memoryTobefreed) := by
  obtain ⟨⟨n, text⟩, -, threw⟩ := Option.bind_eq_some_iff.mp threw
  obtain ⟨u, left, eq⟩ := Option.map_eq_some_iff.mp threw
  cases eq
  obtain ⟨E, takes, evicts, fewer⟩ := thrownAt_evicts wf left
  refine ⟨_, evicted_kept acc wf evicts, fun synchronous => ?_⟩
  show m.memoryTobefreed + m.scheduledBytes u = _
  rw [scheduledBytes_synchronous evicts fun x is => synchronous x (fewer x _ is), Nat.add_zero]

/-- A call of `swapOut` evicts chunks, as many bytes as it was asked for when it reports
success. -/
theorem swapOut_kept (acc : Accounted m L)
    (is : m.swapOut swap allocMax minSize = some (answer, t)) :
    ∃ L' freed, Kept m t L L' freed ∧ (answer = .ok .success → minSize ≤ freed) ∧
      ((∀ x, swap.takes x ≠ some .swapout) → t.memoryTobefreed = m.memoryTobefreed) := by
  unfold Manager.swapOut at is
  split_ifs at is with empty
  · cases is
    exact ⟨L, 0, .refl acc, fun eq => (by cases eq), fun _ => rfl⟩
  · have wf : WellFormed m.toPreemptive L := acc.ring.resolve_left fun blank => empty blank.2.1
    split at is
    · cases is
      exact ⟨L, 0, .refl acc, fun eq => (by cases eq), fun _ => rfl⟩
    · rename_i what u _ threw
      cases is
      obtain ⟨freed, kept, synchronous⟩ := thrown_kept acc wf threw
      exact ⟨L, freed, kept, fun eq => (by cases eq), synchronous⟩
    · obtain ⟨⟨err, u⟩, swapped, eq⟩ := Option.map_eq_some_iff.mp is
      cases eq
      obtain ⟨E, L', evicts, enough⟩ := swapOut_evicts wf swapped
      refine ⟨L', _, evicted_kept acc wf evicts, fun success => ?_, fun synchronous => ?_⟩
      · apply enough
        injection success
      · show m.memoryTobefreed + m.scheduledBytes u = _
        rw [scheduledBytes_synchronous evicts synchronous, Nat.add_zero]

theorem Kept.weaken {L' : List Nat} {freed : Nat} (kept : Kept m t L L' freed) :
    Kept m t L L' 0 :=
  { kept with freed := Nat.le_trans (Nat.le_add_right _ freed) kept.freed }

theorem Kept.trans {u : Manager} {L' L'' : List Nat} (first : Kept m t L L' 0)
    (second : Kept t u L' L'' 0) : Kept m u L L'' 0 where
  accounted := second.accounted
  same := second.same.trans first.same
  memChunks := second.memChunks.trans first.memChunks
  memoryMax := second.memoryMax.trans first.memoryMax
  memIDPace := second.memIDPace.trans first.memIDPace
  used := Nat.le_trans second.used first.used
  tobefreed := Nat.le_trans first.tobefreed second.tobefreed
  freed := by
    have := first.freed
    have := second.freed
    omega
  size x := (second.size x).trans (first.size x)
  buffers has := second.buffers (first.buffers has)

/-! ### Between two waits -/

section
variable {outOfSwapIsFatal cacheCleaned : Bool} {sizereq : UInt64} {orisSwappedin : Option Nat}

/-- Once `swapOut` has evicted what it was asked for, only scheduled writes can keep the loop
over the limit. -/
theorem tobefreed_pos (acc : Accounted m L) {L' : List Nat} {freed : Nat}
    (kept : Kept m t L L' freed) (enough : m.minSize sizereq ≤ freed)
    (full : t.full sizereq = true) : 0 < t.memoryTobefreed := by
  have := kept.tobefreed
  have := kept.freed
  have := acc.within
  have := acc.maxFits
  have := acc.usedFits
  have := sizereq.toNat_lt
  have full := of_decide_eq_true full
  rw [kept.memoryMax] at full
  simp only [Manager.minSize, globalBytesize] at enough full
  omega

/-- What one turn does: it calls `swapOut` at most once, it waits only for a scheduled write, and
it goes on only when there is room now, or when it has cleaned the cache for the first time. -/
structure TurnSpec (m : Manager) (L : List Nat) (outOfSwapIsFatal : Bool) (sizereq : UInt64)
    (swap : Answers) (cacheCleaned : Bool) (r : Turn) : Prop where
  kept : ∃ L', Kept m r.manager L L' 0
  swapOuts : r.swapOuts ≤ 1
  waits : outOfSwapIsFatal = true → r.stop = some .waits → 0 < r.manager.memoryTobefreed
  goesOn : outOfSwapIsFatal = true → r.stop = none →
    r.manager.full sizereq = false ∨ (cacheCleaned = false ∧ r.cacheCleaned = true)
  synchronous : (∀ x, swap.takes x ≠ some .swapout) →
    r.manager.memoryTobefreed = m.memoryTobefreed

/-- A turn that leaves the loop as it is. -/
theorem TurnSpec.ends (acc : Accounted m L) {stop : Stop}
    (waits : stop = .waits → 0 < m.memoryTobefreed) :
    TurnSpec m L outOfSwapIsFatal sizereq swap cacheCleaned ⟨some stop, cacheCleaned, 0, m⟩ where
  kept := ⟨L, .refl acc⟩
  swapOuts := Nat.zero_le 1
  waits _ is := waits (Option.some.inj is)
  goesOn _ is := by cases is
  synchronous _ := rfl

theorem afterSwapOut_spec (acc : Accounted m L) {L' : List Nat} {freed : Nat}
    (kept : Kept m t L L' freed)
    (enough : answer = .ok .success → m.minSize sizereq ≤ freed)
    (synchronous : (∀ x, swap.takes x ≠ some .swapout) → t.memoryTobefreed = m.memoryTobefreed) :
    TurnSpec m L outOfSwapIsFatal sizereq swap cacheCleaned
      (t.afterSwapOut outOfSwapIsFatal sizereq cacheCleaned answer) := by
  have whole := kept.weaken
  cases answer with
  | error what =>
      exact ⟨⟨L', whole⟩, Nat.le_refl 1, fun _ is => (by cases is), fun _ is => (by cases is),
        synchronous⟩
  | ok err =>
      simp only [Manager.afterSwapOut]
      by_cases failed : err ≠ .success ∧ t.memoryTobefreed = 0
      · rw [if_pos failed]
        cases cacheCleaned with
        | false =>
            exact ⟨⟨L', whole⟩, Nat.le_refl 1, fun _ is => (by cases is),
              fun _ _ => .inr ⟨rfl, rfl⟩, synchronous⟩
        | true =>
            cases outOfSwapIsFatal with
            | false =>
                exact ⟨⟨L', whole⟩, Nat.le_refl 1, fun is => (by cases is),
                  fun is => (by cases is), synchronous⟩
            | true =>
                exact ⟨⟨L', whole⟩, Nat.le_refl 1, fun _ is => (by cases is),
                  fun _ is => (by cases is), synchronous⟩
      · rw [if_neg failed]
        refine ⟨⟨L', whole⟩, Nat.le_refl 1, fun _ is => ?_, fun _ is => ?_, synchronous⟩
        · by_cases success : err = .success
          · apply tobefreed_pos acc kept (enough (congrArg _ success))
            by_contra room
            rw [if_neg room] at is
            cases is
          · exact Nat.pos_of_ne_zero fun zero => failed ⟨success, zero⟩
        · refine .inl (Bool.eq_false_iff.mpr fun full => ?_)
          rw [if_pos full] at is
          cases is

theorem turn_spec (acc : Accounted m L) {r : Turn}
    (is : m.turn allocMax outOfSwapIsFatal sizereq orisSwappedin swap cacheCleaned = some r) :
    TurnSpec m L outOfSwapIsFatal sizereq swap cacheCleaned r := by
  unfold Manager.turn at is
  split_ifs at is with full there short
  · cases is
    exact .ends acc fun is => by cases is
  · obtain ⟨⟨answer, t⟩, swapped, rfl⟩ := Option.map_eq_some_iff.mp is
    obtain ⟨L', freed, kept, enough, synchronous⟩ := swapOut_kept acc swapped
    exact afterSwapOut_spec acc kept enough synchronous
  · cases is
    refine .ends acc fun _ => Nat.pos_of_ne_zero fun zero => short ?_
    simpa [Manager.short, Manager.full, zero] using full
  · cases is
    exact .ends acc fun is => by cases is

/-- Up to the next wait, or to its end, the loop calls `swapOut` at most twice. -/
structure StretchSpec (m : Manager) (L : List Nat) (outOfSwapIsFatal : Bool) (most : Nat)
    (r : Stretch) : Prop where
  kept : ∃ L', Kept m r.manager L L' 0
  swapOuts : outOfSwapIsFatal = true → r.swapOuts ≤ most
  waits : outOfSwapIsFatal = true → r.stop = .waits → 0 < r.manager.memoryTobefreed

theorem untilWait_of_room {swaps : List Answers} {r : Stretch}
    (is : untilWait allocMax outOfSwapIsFatal sizereq orisSwappedin swaps cacheCleaned m = some r)
    (room : m.full sizereq = false) :
    r = ⟨.returned (m.isThere orisSwappedin), cacheCleaned, 0, m⟩ := by
  cases swaps with
  | nil => cases is
  | cons swap swaps =>
      simp only [untilWait, Manager.turn, room] at is
      cases is
      rfl

theorem untilWait_spec {swaps : List Answers} : ∀ {m : Manager} {L : List Nat} {cacheCleaned : Bool}
    {r : Stretch}, Accounted m L →
      untilWait allocMax outOfSwapIsFatal sizereq orisSwappedin swaps cacheCleaned m = some r →
      StretchSpec m L outOfSwapIsFatal (if cacheCleaned then 1 else 2) r := by
  induction swaps with
  | nil =>
      intro m L cacheCleaned r acc is
      cases is
  | cons swap swaps ih =>
      intro m L cacheCleaned r acc is
      obtain ⟨q, turned, is⟩ := Option.bind_eq_some_iff.mp is
      have spec := turn_spec acc turned
      obtain ⟨L', kept⟩ := spec.kept
      cases stop : q.stop with
      | some stop' =>
          rw [stop] at is
          cases is
          refine ⟨spec.kept, fun _ => ?_, fun fatal waits => ?_⟩
          · have := spec.swapOuts
            dsimp only
            split_ifs <;> omega
          · exact spec.waits fatal (stop.trans (congrArg some waits))
      | none =>
          rw [stop] at is
          obtain ⟨rest, later, rfl⟩ := Option.map_eq_some_iff.mp is
          have specRest := ih kept.accounted later
          obtain ⟨L'', keptRest⟩ := specRest.kept
          refine ⟨⟨L'', kept.trans keptRest⟩, fun fatal => ?_, specRest.waits⟩
          have one := spec.swapOuts
          dsimp only
          rcases spec.goesOn fatal stop with room | ⟨first, cleaned⟩
          · have stops := untilWait_of_room later room
            rw [stops]
            dsimp only
            split_ifs <;> omega
          · have more := specRest.swapOuts fatal
            rw [cleaned, if_pos rfl] at more
            rw [first, if_neg (by decide)]
            omega

theorem swapOut_isSome (acc : Accounted m L) (sized : ∀ x ∈ m.memChunks, 0 < (m.chunk x).size)
    (swap : Answers) (allocMax : Nat → Nat) (minSize : Nat) :
    (m.swapOut swap allocMax minSize).isSome = true := by
  unfold Manager.swapOut
  split_ifs with empty
  · rfl
  · have wf : WellFormed m.toPreemptive L := acc.ring.resolve_left fun blank => empty blank.2.1
    split
    · rfl
    · rfl
    · rw [Option.isSome_map]
      exact Eviction.swapOut_returns wf swap.toSwap allocMax minSize fun x mem =>
        sized x ((wf.mem x).mp mem)

theorem turn_isSome (allocMax : Nat → Nat) (outOfSwapIsFatal : Bool) (sizereq : UInt64)
    (orisSwappedin : Option Nat) (acc : Accounted m L)
    (sized : ∀ x ∈ m.memChunks, 0 < (m.chunk x).size) (swap : Answers) (cacheCleaned : Bool) :
    ∃ r, m.turn allocMax outOfSwapIsFatal sizereq orisSwappedin swap cacheCleaned = some r := by
  rw [← Option.isSome_iff_exists]
  unfold Manager.turn
  split_ifs
  · rfl
  · rw [Option.isSome_map]
    exact swapOut_isSome acc sized swap allocMax _
  · rfl
  · rfl

/-- How many turns there can be before the loop waits or ends. -/
def turnsLeft (room cacheCleaned : Bool) : Nat :=
  if room then 1 else if cacheCleaned then 2 else 3

/-- The loop does not run on without a wait. -/
theorem untilWait_isSome (swaps : List Answers) :
    ∀ {m : Manager} {L : List Nat} {cacheCleaned : Bool}, Accounted m L →
      (∀ x ∈ m.memChunks, 0 < (m.chunk x).size) →
      turnsLeft (!m.full sizereq) cacheCleaned ≤ swaps.length →
      (untilWait allocMax true sizereq orisSwappedin swaps cacheCleaned m).isSome = true := by
  induction swaps with
  | nil =>
      intro m L cacheCleaned acc sized enough
      have : 0 < turnsLeft (!m.full sizereq) cacheCleaned := by
        unfold turnsLeft
        split_ifs <;> omega
      exact absurd enough (Nat.not_le.mpr this)
  | cons swap swaps ih =>
      intro m L cacheCleaned acc sized enough
      obtain ⟨r, turned⟩ :=
        turn_isSome allocMax true sizereq orisSwappedin acc sized swap cacheCleaned
      have spec := turn_spec acc turned
      obtain ⟨L', kept⟩ := spec.kept
      rw [untilWait, turned, Option.bind_some]
      cases stop : r.stop with
      | some stop => rfl
      | none =>
          rw [Option.isSome_map]
          apply ih kept.accounted
          · intro x mem
            rw [kept.size]
            exact sized x (kept.memChunks ▸ mem)
          · -- a turn that goes on has found the loop over the limit
            have full : m.full sizereq = true := by
              by_contra room
              rw [Manager.turn, if_neg room] at turned
              cases turned
              cases stop
            rw [List.length_cons] at enough
            rcases spec.goesOn rfl stop with room | ⟨first, cleaned⟩
            · cases cacheCleaned <;> simp [turnsLeft, full, room] at enough ⊢ <;> omega
            · rw [first] at enough
              rw [cleaned]
              cases r.manager.full sizereq <;> simp [turnsLeft, full] at enough ⊢ <;> omega

/-! ### Transfers that complete -/

/-- What is kept from `m` to `t`, where transfers have completed as well. -/
structure Still (m t : Manager) (L L' : List Nat) : Prop where
  accounted : Accounted t L'
  same : L'.Perm L
  memChunks : t.memChunks = m.memChunks
  memIDPace : t.memIDPace = m.memIDPace
  buffers : HasBuffers m → HasBuffers t

theorem Still.trans {u : Manager} {L' L'' : List Nat} (first : Still m t L L')
    (second : Still t u L' L'') : Still m u L L'' where
  accounted := second.accounted
  same := second.same.trans first.same
  memChunks := second.memChunks.trans first.memChunks
  memIDPace := second.memIDPace.trans first.memIDPace
  buffers has := second.buffers (first.buffers has)

theorem Kept.still {L' : List Nat} {freed : Nat} (kept : Kept m t L L' freed) : Still m t L L' :=
  ⟨kept.accounted, kept.same, kept.memChunks, kept.memIDPace, kept.buffers⟩

theorem sum_change {s : Finset Nat} {f g : Nat → Nat} {i : Nat} (mem : i ∈ s)
    (same : ∀ x, x ≠ i → g x = f x) : (∑ x ∈ s, g x) + f i = (∑ x ∈ s, f x) + g i := by
  have rest : ∑ x ∈ s.erase i, g x = ∑ x ∈ s.erase i, f x :=
    Finset.sum_congr rfl fun x memX => same x (Finset.ne_of_mem_erase memX)
  have before := Finset.add_sum_erase s f mem
  have after := Finset.add_sum_erase s g mem
  omega

theorem setStatus_other {id x : Nat} (other : x ≠ id) (status : MemoryStatus) :
    (m.setStatus id status).chunk x = m.chunk x :=
  Function.update_of_ne other _ _

theorem setStatus_bytes {id : Nat} (mem : id ∈ m.memChunks) (status : MemoryStatus) :
    (m.setStatus id status).residentBytes + residentSize (m.chunk id) =
        m.residentBytes + residentSize { m.chunk id with status } ∧
      (m.setStatus id status).swapoutBytes + swapoutSize (m.chunk id) =
        m.swapoutBytes + swapoutSize { m.chunk id with status } := by
  have here : (m.setStatus id status).chunk id = { m.chunk id with status } :=
    Function.update_self _ _ _
  constructor
  · rw [← here]
    exact sum_change (f := fun x => residentSize (m.chunk x)) mem fun x other => by
      rw [setStatus_other other]
  · rw [← here]
    exact sum_change (f := fun x => swapoutSize (m.chunk x)) mem fun x other => by
      rw [setStatus_other other]

theorem HoldsRing.of_same {s t : Eviction.State} (holds : HoldsRing s L)
    (links : t.links = s.links) (memChunks : t.memChunks = s.memChunks)
    (active : t.active = s.active) (counterActive : t.counterActive = s.counterActive) :
    HoldsRing t L := by
  unfold HoldsRing
  rcases holds with empty | wf
  · rw [counterActive, active, memChunks]
    exact .inl empty
  · exact .inr ⟨links ▸ wf.ring, memChunks ▸ wf.mem, active ▸ wf.active, counterActive ▸ wf.counter,
      wf.real⟩

theorem setStatus_buffers {id : Nat} {status : MemoryStatus} (there : m.status id ≠ .swapped)
    (buffers : HasBuffers m) : HasBuffers (m.setStatus id status) := by
  intro x mem inRam sized
  by_cases same : x = id
  · subst same
    have size : ((m.setStatus x status).chunk x).size = (m.chunk x).size := by
      simp [Manager.setStatus]
    exact buffers x mem there (size ▸ sized)
  · rw [setStatus_other same] at sized
    rw [Cyclic.State.status, setStatus_other same] at inRam
    exact buffers x mem inRam sized

/-- The chunk that `complete` leaves is the one of `SwapEvent.complete`. -/
theorem complete_chunk {id : Nat} (mem : id ∈ m.memChunks) :
    ((m.complete id).chunk id).toManagedMemoryChunk =
      (SwapEvent.complete.apply (m.chunk id).toManagedMemoryChunk).getD
        (m.chunk id).toManagedMemoryChunk := by
  unfold Manager.complete SwapEvent.apply
  cases status : (m.chunk id).status <;> simp [mem, status, Cyclic.State.status, Manager.setStatus]

theorem complete_still (acc : Accounted m L) (id : Nat) : Still m (m.complete id) L L := by
  have unchanged : Still m m L L := ⟨acc, .refl L, rfl, rfl, fun has => has⟩
  have used := acc.used
  have tobefreed := acc.tobefreed
  have within := acc.within
  by_cases mem : id ∈ m.memChunks
  · rw [Manager.complete, if_pos mem]
    have bytes := setStatus_bytes mem
    split
    · rename_i arriving
      have arriving : (m.chunk id).status = .swapin := arriving
      generalize is : (if (m.chunk id).useCnt = 0 then MemoryStatus.allocated
        else .allocatedInuseRead) = status
      have there : status ≠ .swapped ∧ status ≠ .swapout := by
        rw [← is]
        split_ifs <;> decide
      obtain ⟨resident, swapout⟩ := bytes status
      simp [residentSize, swapoutSize, arriving, there] at resident swapout
      refine ⟨⟨acc.ring.of_same rfl rfl rfl rfl, ?_, ?_, within, acc.maxFits, acc.usedFits⟩,
        .refl L, rfl, rfl,
        setStatus_buffers (by rw [Cyclic.State.status, arriving]; decide)⟩
      · exact used.trans resident.symm
      · exact tobefreed.trans swapout.symm
    · rename_i leaving
      have leaving : (m.chunk id).status = .swapout := leaving
      obtain ⟨resident, swapout⟩ := bytes .swapped
      simp [residentSize, swapoutSize, leaving] at resident swapout
      have usedIs : (m.setStatus id .swapped).memoryUsed = m.memoryUsed := rfl
      have tobefreedIs : (m.setStatus id .swapped).memoryTobefreed = m.memoryTobefreed := rfl
      have fits := acc.usedFits
      refine ⟨⟨acc.ring.of_same rfl rfl rfl rfl, ?_, ?_, ?_, acc.maxFits, ?_⟩, .refl L, rfl, rfl,
        fun buffers x memX inRam sized => ?_⟩
      · show (m.setStatus id .swapped).memoryUsed - (m.chunk id).size =
          (m.setStatus id .swapped).residentBytes
        omega
      · show (m.setStatus id .swapped).memoryTobefreed - (m.chunk id).size =
          (m.setStatus id .swapped).swapoutBytes
        omega
      · show (m.setStatus id .swapped).memoryUsed - (m.chunk id).size ≤
          m.memoryMax + ((m.setStatus id .swapped).memoryTobefreed - (m.chunk id).size)
        omega
      · show (m.setStatus id .swapped).memoryUsed - (m.chunk id).size < _
        omega
      · by_cases same : x = id
        · subst same
          exact absurd (by simp [Manager.setStatus, Cyclic.State.status]) inRam
        · have after : HasBuffers (m.setStatus id .swapped) :=
            setStatus_buffers (by rw [Cyclic.State.status, leaving]; decide) buffers
          have has := after x memX inRam sized
          exact (Function.update_of_ne same _ _).trans has
    · exact unchanged
  · rw [Manager.complete, if_neg mem]
    exact unchanged

theorem arrive_still (acc : Accounted m L) (ids : List Nat) : Still m (m.arrive ids) L L := by
  induction ids generalizing m with
  | nil => exact ⟨acc, .refl L, rfl, rfl, fun has => has⟩
  | cons id ids ih =>
      have first := complete_still acc id
      exact first.trans (ih first.accounted)

/-! ### The whole call -/

theorem ensureFrom_spec (is : List Interval) :
    ∀ {m : Manager} {L : List Nat} {cacheCleaned : Bool}
      {log : List Stretch} {stop : Stop} {t : Manager}, Accounted m L →
      (∀ i ∈ is, ∀ m L, Accounted m L → ∃ L', Accounted (i.after m) L') →
      ensureFrom allocMax outOfSwapIsFatal sizereq orisSwappedin is cacheCleaned m =
        some (log, stop, t) →
      ∀ r ∈ log, ∃ m L, Accounted m L ∧ StretchSpec m L outOfSwapIsFatal 2 r := by
  induction is with
  | nil =>
      intro m L cacheCleaned log stop t acc keeps ended
      cases ended
      intro r mem
      cases mem
  | cons i is ih =>
      intro m L cacheCleaned log stop t acc keeps ended
      obtain ⟨r, stretch, ended⟩ := Option.bind_eq_some_iff.mp ended
      have spec := untilWait_spec acc stretch
      have here : StretchSpec m L outOfSwapIsFatal 2 r := by
        refine ⟨spec.kept, fun fatal => Nat.le_trans (spec.swapOuts fatal) ?_, spec.waits⟩
        split_ifs <;> omega
      obtain ⟨L', kept⟩ := spec.kept
      cases isStop : r.stop with
      | waits =>
          rw [isStop] at ended
          intro q mem
          cases thrown : i.throws with
          | some what =>
              simp only [thrown] at ended
              cases ended
              obtain rfl := List.mem_singleton.mp mem
              exact ⟨m, L, acc, here⟩
          | none =>
              simp only [thrown] at ended
              obtain ⟨⟨rest, last⟩, later, eq⟩ := Option.map_eq_some_iff.mp ended
              obtain ⟨rfl, rfl⟩ := Prod.mk.inj eq
              obtain ⟨L'', after⟩ := keeps i List.mem_cons_self _ _ kept.accounted
              rcases List.mem_cons.mp mem with rfl | mem
              · exact ⟨m, L, acc, here⟩
              · exact ih after (fun j mem => keeps j (List.mem_cons_of_mem _ mem)) later q mem
      | _ =>
          rw [isStop] at ended
          cases ended
          intro q mem
          obtain rfl := List.mem_singleton.mp mem
          exact ⟨m, L, acc, here⟩

/-- The chunk whose write `memory_tobefreed` counts. -/
theorem exists_swapout (acc : Accounted m L) (positive : 0 < m.memoryTobefreed) :
    ∃ x ∈ m.memChunks, m.status x = .swapout ∧ 0 < (m.chunk x).size := by
  rw [acc.tobefreed, Manager.swapoutBytes] at positive
  obtain ⟨x, mem, nonzero⟩ := Finset.exists_ne_zero_of_sum_ne_zero (Nat.pos_iff_ne_zero.mp positive)
  unfold swapoutSize at nonzero
  split_ifs at nonzero with away
  · exact ⟨x, mem, away, Nat.pos_of_ne_zero nonzero⟩
  · exact absurd rfl nonzero

theorem untilWait_synchronous {swaps : List Answers}
    (synchronous : ∀ swap ∈ swaps, ∀ x, swap.takes x ≠ some .swapout) :
    ∀ {m : Manager} {L : List Nat} {cacheCleaned : Bool} {r : Stretch}, Accounted m L →
      untilWait allocMax outOfSwapIsFatal sizereq orisSwappedin swaps cacheCleaned m = some r →
      r.manager.memoryTobefreed = m.memoryTobefreed := by
  induction swaps with
  | nil =>
      intro m L cacheCleaned r acc is
      cases is
  | cons swap swaps ih =>
      intro m L cacheCleaned r acc is
      obtain ⟨q, turned, is⟩ := Option.bind_eq_some_iff.mp is
      have spec := turn_spec acc turned
      have first := spec.synchronous (synchronous swap List.mem_cons_self)
      obtain ⟨L', kept⟩ := spec.kept
      cases stop : q.stop with
      | some stop' =>
          rw [stop] at is
          cases is
          exact first
      | none =>
          rw [stop] at is
          obtain ⟨rest, later, rfl⟩ := Option.map_eq_some_iff.mp is
          have more := ih (fun swap mem => synchronous swap (List.mem_cons_of_mem _ mem))
            kept.accounted later
          exact more.trans first

/-- The loop in `ensureEnoughSpace` waits only while a write is scheduled that will free RAM, and
never over a swap that stores at once. From its start and from every wait on, it calls `swapOut`
at most twice before it returns, throws or waits, and it does one of these. -/
theorem waits_for_transfers (allocMax : Nat → Nat) (sizereq : UInt64)
    (orisSwappedin : Option Nat) (acc : Accounted m L) (is : List Interval)
    (keeps : ∀ i ∈ is, ∀ m L, Accounted m L → ∃ L', Accounted (i.after m) L')
    {log : List Stretch} {stop : Stop} {t : Manager}
    (ended : ensureEnoughSpace allocMax true sizereq orisSwappedin is m = some (log, stop, t)) :
    (∀ r ∈ log, r.swapOuts ≤ 2 ∧ (r.stop = .waits → 0 < r.manager.memoryTobefreed ∧
      ∃ x ∈ r.manager.memChunks, r.manager.status x = .swapout ∧ 0 < (r.manager.chunk x).size)) ∧
    (m.memoryTobefreed = 0 → (∀ i ∈ is, ∀ swap ∈ i.swaps, ∀ x, swap.takes x ≠ some .swapout) →
      ∀ r ∈ log, r.stop ≠ .waits) ∧
    ((∀ x ∈ m.memChunks, 0 < (m.chunk x).size) → ∀ swaps cacheCleaned, 3 ≤ swaps.length →
      (untilWait allocMax true sizereq orisSwappedin swaps cacheCleaned m).isSome = true) := by
  refine ⟨fun r mem => ?_, fun zero synchronous => ?_, fun sized swaps cacheCleaned three => ?_⟩
  · obtain ⟨u, L', _, spec⟩ := ensureFrom_spec is acc keeps ended r mem
    obtain ⟨L'', kept⟩ := spec.kept
    refine ⟨spec.swapOuts rfl, fun waits => ?_⟩
    have positive := spec.waits rfl waits
    exact ⟨positive, exists_swapout kept.accounted positive⟩
  · cases is with
    | nil =>
        cases ended
        intro r mem
        cases mem
    | cons i is =>
        obtain ⟨r, stretch, ended⟩ := Option.bind_eq_some_iff.mp ended
        have spec := untilWait_spec acc stretch
        have still := untilWait_synchronous (synchronous i List.mem_cons_self) acc stretch
        have notWaits : r.stop ≠ .waits := by
          intro waits
          have := spec.waits rfl waits
          omega
        cases isStop : r.stop with
        | waits => exact absurd isStop notWaits
        | _ =>
            rw [isStop] at ended
            cases ended
            intro q mem
            obtain rfl := List.mem_singleton.mp mem
            exact notWaits
  · apply untilWait_isSome swaps acc sized
    refine Nat.le_trans ?_ three
    unfold turnsLeft
    split_ifs <;> omega

end

/-- A chunk of 8 bytes, whose write is under way. -/
def writing : Manager where
  links := ⟨fun x => x, fun x => x⟩
  active := some 1
  counterActive := some 1
  chunk := fun _ => ⟨⟨.swapout, 0⟩, 8⟩
  memChunks := {1}
  memIDPace := 2
  memoryUsed := 8
  memoryMax := 10
  clock := 0
  lastTouch := fun _ => 0
  preemptiveStart := none
  preemptiveLoaded := fun _ => false
  preemptiveBytes := 0
  consecutivePreemptiveTransactions := 0
  memoryTobefreed := 8
  locPtr := fun _ => true

theorem accounted_writing : Accounted writing [1] where
  ring := .inr {
    ring := ⟨List.nodup_singleton 1, .cons_cons ⟨rfl, rfl⟩ (.singleton 1)⟩
    mem := fun x => by simp [writing]
    active := ⟨1, by decide, rfl⟩
    counter := ⟨1, by decide, rfl⟩
    real := by decide }
  used := rfl
  tobefreed := rfl
  within := by decide
  maxFits := by decide
  usedFits := by decide

/-- A swap with room that refuses every chunk. -/
def refusing : Answers where
  getFreeSwap := 10
  cleaned := 10
  extendSwapByPolicy := false
  extended := 10
  takes _ := none

/-- The write completes while the loop waits. -/
def writeArrives : List Interval :=
  [{ swaps := [refusing], after := fun m => m.arrive [1] },
    { swaps := [refusing], after := fun m => m }]

/-- A request of 5 bytes waits for the write. -/
theorem waits_for_transfers_writing :
    ∃ log t, ensureEnoughSpace (fun n => n) true 5 none writeArrives writing =
        some (log, .returned false, t) ∧ log.map Stretch.stop = [.waits, .returned false] ∧
      ∀ r ∈ log, r.swapOuts ≤ 2 := by
  have keeps : ∀ i ∈ writeArrives, ∀ m L, Accounted m L → ∃ L', Accounted (i.after m) L' := by
    intro i mem m L acc
    rcases List.mem_cons.mp mem with rfl | mem
    · exact ⟨L, (arrive_still acc [1]).accounted⟩
    · obtain rfl := List.mem_singleton.mp mem
      exact ⟨L, acc⟩
  have ended : ∃ log t, ensureEnoughSpace (fun n => n) true 5 none writeArrives writing =
      some (log, .returned false, t) ∧ log.map Stretch.stop = [.waits, .returned false] :=
    ⟨_, _, rfl, rfl⟩
  obtain ⟨log, t, ended, stops⟩ := ended
  refine ⟨log, t, ended, stops, fun r mem => ?_⟩
  exact ((waits_for_transfers (fun n => n) 5 none accounted_writing writeArrives keeps
    ended).1 r mem).1

end Rambrain.EnoughSpace
