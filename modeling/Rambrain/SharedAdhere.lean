import Rambrain.Use

/-!
Threads that pull pointers from one shared `adhereTo` object.

The first pull of a kind (readable or writable) sets a flag by compare-and-swap; the
thread that wins takes the use with `managedMemory::setUse`, all others wait in
`managedPtr::waitForSwapin`. That function takes `stateChangeMutex` and calls
`managedMemory::waitForSwapin` until it returns `true`. While the chunk is
`MEM_SWAPIN` the call gives the mutex away; while it is `MEM_SWAPPED` or
`MEM_SWAPOUT` it returns `false` at once and the loop tests again with the mutex held.

`Stuck` is the state in which that loop cannot end, because the winner still needs
the mutex to bring the chunk in. `never_stuck_iff_orderly` says for every run
when it is avoided: a thread that found the flag set must not get the mutex on a
swapped chunk before the winner's `setUse` has returned.
-/

namespace Rambrain.SharedAdhere

universe u

/-- From where `managedPtr::waitForSwapin` was called: from `managedPtr::setUse` after
a lost compare-and-swap, or from `getLocPtr` and `getConstLocPtr`. -/
inductive Caller where
  | setUse
  | getLocPtr
  deriving DecidableEq, Repr

/-- Where a thread stands in a pull. `writable` is the kind of pointer it pulls. -/
inductive Pc where
  | idle
  /-- Saw the flag unset and is about to compare and swap. -/
  | compareAndSwap (writable : Bool)
  /-- Won the flag and still has to take the mutex in `managedMemory::setUse`. -/
  | enterSetUse (writable : Bool)
  /-- Inside `managedMemory::setUse` with the mutex given away. -/
  | inSetUse (writable : Bool) (pause : Pause)
  /-- About to test the status in `getLocPtr` or `getConstLocPtr`. -/
  | getLocPtr (writable : Bool)
  /-- At the unlocked test of `managedPtr::waitForSwapin`. -/
  | waitTest (writable : Bool) (caller : Caller)
  /-- About to take the mutex in `managedPtr::waitForSwapin`. -/
  | waitLock (writable : Bool) (caller : Caller)
  /-- In `waitForAIO`, with the mutex given away. -/
  | waitAio (writable : Bool) (caller : Caller)
  /-- Re-testing in the loop of `managedPtr::waitForSwapin` with the mutex held. -/
  | spinning (writable : Bool) (caller : Caller)
  deriving DecidableEq, Repr

structure State (θ : Type u) where
  chunk : ManagedMemoryChunk
  /-- `loadedWritable` and `loadedReadable`. -/
  loaded : Bool → Bool
  pc : θ → Pc
  /-- The thread that holds `stateChangeMutex` between two steps. -/
  mutex : Option θ

/-- All threads are about to pull; the object may be a copy that is loaded already. -/
def State.start {θ : Type u} (chunk : ManagedMemoryChunk) (loaded : Bool → Bool) : State θ :=
  ⟨chunk, loaded, fun _ => .idle, none⟩

inductive Event (θ : Type u) where
  /-- The thread's next step outside the mutex: a read of the flag or of the status,
  or the compare-and-swap. -/
  | free (t : θ) (writable : Bool)
  /-- The thread's next section under the mutex. -/
  | critical (t : θ) (swapInResult : Bool)
  /-- A section under the mutex by the scheduler or the swap. -/
  | swap (e : SwapEvent)

variable {θ : Type u} [DecidableEq θ]

def State.goto (s : State θ) (t : θ) (pc : Pc) : State θ :=
  { s with pc := Function.update s.pc t pc }

/-- Where a thread goes on when `managedPtr::waitForSwapin` returns. -/
def Caller.next (writable : Bool) : Caller → Pc
  | .setUse => .getLocPtr writable
  | .getLocPtr => .idle

/-- The test of `getLocPtr`, or for a readable pointer of `getConstLocPtr`. -/
def locReady (c : ManagedMemoryChunk) (writable : Bool) : Bool :=
  if writable then c.status == .allocatedInuseWrite else c.status.hasFlag .allocatedInuseRead

/-- The steps outside the mutex. -/
def freeStep (s : State θ) (t : θ) (writable : Bool) : Option (State θ) :=
  match s.pc t with
  | .idle =>
      if s.loaded writable then some (s.goto t (.getLocPtr writable))
      else some (s.goto t (.compareAndSwap writable))
  | .compareAndSwap w =>
      if s.loaded w then some (s.goto t (.waitTest w .setUse))
      else some { s.goto t (.enterSetUse w) with loaded := Function.update s.loaded w true }
  | .getLocPtr w =>
      if locReady s.chunk w then some (s.goto t .idle) else some (s.goto t (.waitTest w .getLocPtr))
  | .waitTest w caller =>
      if s.chunk.status.hasFlag .allocated then some (s.goto t (caller.next w))
      else some (s.goto t (.waitLock w caller))
  | _ => none

/-- One round of `while ( ! waitForSwapin ( *chunk, true ) ) {}` with the mutex held. -/
def waitRound (s : State θ) (t : θ) (writable : Bool) (caller : Caller) : State θ :=
  match waitForSwapin s.chunk.status with
  | none => { s.goto t (.waitAio writable caller) with mutex := none }
  | some true => { s.goto t (caller.next writable) with mutex := none }
  | some false => { s.goto t (.spinning writable caller) with mutex := some t }

/-- The thread's section of `managedMemory::setUse`, which ends with the mutex free. -/
def useSection (s : State θ) (t : θ) (writable : Bool) :
    ManagedMemoryChunk × Progress → State θ
  | (c, .paused p) => { s.goto t (.inSetUse writable p) with chunk := c }
  | (c, .returned _) => { s.goto t (.getLocPtr writable) with chunk := c }

/-- The sections under the mutex. A spinning thread has it already. -/
def sectionStep (s : State θ) (t : θ) (swapInResult : Bool) : Option (State θ) :=
  match s.pc t with
  | .enterSetUse w =>
      if s.mutex = none then some (useSection s t w (setUse s.chunk w)) else none
  | .inSetUse w p =>
      if s.mutex = none then some (useSection s t w (resumeUse s.chunk w p swapInResult)) else none
  | .waitLock w caller | .waitAio w caller =>
      if s.mutex = none then some (waitRound s t w caller) else none
  | .spinning w caller => some (waitRound s t w caller)
  | _ => none

def step (s : State θ) : Event θ → Option (State θ)
  | .free t w => freeStep s t w
  | .critical t r => sectionStep s t r
  | .swap e =>
      if s.mutex = none then (e.apply s.chunk).map fun c => { s with chunk := c } else none

/-! ### What is to be avoided -/

/-- The chunk is in RAM neither now nor soon. -/
def Away (c : ManagedMemoryChunk) : Prop := c.status = .swapped ∨ c.status = .swapout

/-- Some thread has won the flag, and its `setUse` has not returned: it has to take the
mutex, for the first time or again after a wait. -/
def WinnerPending (s : State θ) (writable : Bool) : Prop :=
  ∃ t, s.pc t = .enterSetUse writable ∨ ∃ p, s.pc t = .inSetUse writable p

/-- A thread holds the mutex in `managedPtr::waitForSwapin`, re-testing a chunk that is
away, while the winner of the flag needs the mutex. -/
def Stuck (s : State θ) : Prop :=
  ∃ t w caller, s.pc t = .spinning w caller ∧ s.mutex = some t ∧ Away s.chunk ∧ WinnerPending s w

/-- A thread that waits for the winner of a flag gets the mutex only when the chunk is
not away or the winner's `setUse` has returned. -/
def Orderly (s : State θ) : Event θ → Prop
  | .critical t _ =>
      ∀ w caller, s.pc t = .waitLock w caller ∨ s.pc t = .waitAio w caller → s.mutex = none →
        Away s.chunk → ¬ WinnerPending s w
  | _ => True

/-- No state reached by the events is stuck, the first one included. -/
def NeverStuck (s : State θ) (es : List (Event θ)) : Prop :=
  ¬ Stuck s ∧ Lib.Along step (fun s e => ∀ t, step s e = some t → ¬ Stuck t) s es

/-! ### One step -/

/-- The flag a thread has passed, by setting it or by seeing it set. -/
def Pc.passed : Pc → Option Bool
  | .idle | .compareAndSwap _ => none
  | .enterSetUse w | .inSetUse w _ | .getLocPtr w | .waitTest w _ | .waitLock w _ | .waitAio w _
  | .spinning w _ => some w

def Pc.isSpinning : Pc → Bool
  | .spinning _ _ => true
  | _ => false

/-- Who spins holds the mutex, and the flags that were passed are set. -/
structure Inv (s : State θ) : Prop where
  holds : ∀ t, (s.pc t).isSpinning = true → s.mutex = some t
  loaded : ∀ t w, (s.pc t).passed = some w → s.loaded w = true

omit [DecidableEq θ] in
theorem inv_start (c : ManagedMemoryChunk) (loaded : Bool → Bool) :
    Inv (State.start c loaded : State θ) :=
  ⟨fun _ h => (by cases h), fun _ _ h => (by cases h)⟩

omit [DecidableEq θ] in
theorem not_stuck_of_mutex_free {s : State θ} (released : s.mutex = none) : ¬ Stuck s := by
  rintro ⟨t, w, caller, _, held, _⟩
  rw [released] at held
  cases held

omit [DecidableEq θ] in
/-- With the mutex free nobody spins. -/
theorem Inv.not_spinning {s : State θ} (h : Inv s) (released : s.mutex = none) (t : θ) :
    (s.pc t).isSpinning = false := by
  cases spins : (s.pc t).isSpinning with
  | false => rfl
  | true =>
      have held := h.holds t spins
      rw [released] at held
      cases held

omit [DecidableEq θ] in
/-- Only the holder of the mutex can spin. -/
theorem Inv.not_spinning_of_holds {s : State θ} (h : Inv s) {i : θ} (mine : s.mutex = some i)
    (t : θ) (other : t ≠ i) : (s.pc t).isSpinning = false := by
  cases spins : (s.pc t).isSpinning with
  | false => rfl
  | true =>
      rw [h.holds t spins] at mine
      exact absurd (Option.some.inj mine) other

theorem goto_pc (s : State θ) (i j : θ) (q : Pc) :
    (s.goto i q).pc j = if j = i then q else s.pc j :=
  Function.update_apply _ _ _ _

/-- A thread that moves on without the mutex keeps the invariant. -/
theorem Inv.goto {s : State θ} (h : Inv s) (i : θ) {q : Pc} (quiet : q.isSpinning = false)
    (passed : ∀ w, q.passed = some w → s.loaded w = true) : Inv (s.goto i q) := by
  constructor
  · intro t spins
    rw [goto_pc] at spins
    split at spins
    · rw [quiet] at spins
      cases spins
    · exact h.holds t spins
  · intro t w
    rw [goto_pc]
    split
    · exact passed w
    · exact h.loaded t w

omit [DecidableEq θ] in
/-- The mutex can be given away, and the chunk changed, when nobody spins. -/
theorem Inv.release {s : State θ} (h : Inv s) (quiet : ∀ t, (s.pc t).isSpinning = false)
    (c : ManagedMemoryChunk) (m : Option θ) : Inv { s with chunk := c, mutex := m } := by
  refine ⟨fun t spins => ?_, h.loaded⟩
  have stays := quiet t
  rw [show (s.pc t).isSpinning = true from spins] at stays
  cases stays

theorem Caller.next_passed {w v : Bool} {caller : Caller}
    (passed : (caller.next w).passed = some v) :
    v = w := by
  cases caller with
  | setUse => exact (Option.some.inj passed).symm
  | getLocPtr => cases passed

theorem Caller.next_quiet (w : Bool) (caller : Caller) : (caller.next w).isSpinning = false := by
  cases caller <;> rfl

/-- A round of the loop keeps the invariant: of the other threads none spins. -/
theorem inv_waitRound {s : State θ} (h : Inv s) (i : θ) (w : Bool) (caller : Caller)
    (others : ∀ t, t ≠ i → (s.pc t).isSpinning = false) (set : s.loaded w = true) :
    Inv (waitRound s i w caller) := by
  have passed : ∀ q : Pc, (∀ v, q.passed = some v → v = w) →
      ∀ t v, ((s.goto i q).pc t).passed = some v → s.loaded v = true := by
    intro q kind t v
    rw [goto_pc]
    split
    · intro same
      exact kind v same ▸ set
    · exact h.loaded t v
  have nobody : ∀ q : Pc, q.isSpinning = false →
      ∀ t, ((s.goto i q).pc t).isSpinning = true → False := by
    intro q quiet t
    rw [goto_pc]
    split
    · rw [quiet]
      exact fun no => (by cases no)
    · rename_i other
      rw [others t other]
      exact fun no => (by cases no)
  unfold waitRound
  split
  · exact ⟨fun t spins => absurd spins (nobody _ rfl t),
      passed (.waitAio w caller) fun v same => (Option.some.inj same).symm⟩
  · exact ⟨fun t spins => absurd spins (nobody _ (caller.next_quiet w) t),
      passed (caller.next w) fun v same => Caller.next_passed same⟩
  · refine ⟨fun t spins => ?_, passed (.spinning w caller)
      fun v same => (Option.some.inj same).symm⟩
    have moved : ((s.goto i (.spinning w caller)).pc t).isSpinning = true := spins
    rw [goto_pc] at moved
    split at moved
    · rename_i self
      rw [self]
    · rename_i other
      rw [others t other] at moved
      cases moved

theorem inv_useSection {s : State θ} (h : Inv s) (i : θ) (w : Bool)
    (released : s.mutex = none) (set : s.loaded w = true) (r : ManagedMemoryChunk × Progress) :
    Inv (useSection s i w r) ∧ (useSection s i w r).mutex = none := by
  have set' : ∀ v, some w = some v → s.loaded v = true := fun v same => Option.some.inj same ▸ set
  obtain ⟨c, p⟩ := r
  cases p with
  | paused p =>
      have moved := h.goto i (q := .inSetUse w p) rfl set'
      exact ⟨moved.release (fun t => moved.not_spinning released t) c s.mutex, released⟩
  | returned _ =>
      have moved := h.goto i (q := .getLocPtr w) rfl set'
      exact ⟨moved.release (fun t => moved.not_spinning released t) c s.mutex, released⟩

/-- The thread has won the flag and is not through `setUse`. -/
def Pc.isPending : Pc → Bool
  | .enterSetUse _ | .inSetUse _ _ => true
  | _ => false

/-- Outside the mutex a thread moves on quietly or wins a flag that was unset. -/
theorem freeStep_cases {s t : State θ} {i : θ} {w : Bool} (h : Inv s)
    (taken : freeStep s i w = some t) :
    (∃ q : Pc, t = s.goto i q ∧ q.isSpinning = false ∧ q.isPending = false ∧
        ∀ v, q.passed = some v → s.loaded v = true) ∨
      ∃ v, s.loaded v = false ∧
        t = { s.goto i (.enterSetUse v) with loaded := Function.update s.loaded v true } := by
  have kind : ∀ {v : Bool} {q : Pc}, q.passed = some v → s.loaded v = true →
      ∀ u, q.passed = some u → s.loaded u = true := by
    intro v q same set u other
    rw [same] at other
    exact Option.some.inj other ▸ set
  simp only [freeStep] at taken
  split at taken
  · split at taken
    · rename_i set
      cases taken
      exact .inl ⟨_, rfl, rfl, rfl, kind rfl set⟩
    · cases taken
      exact .inl ⟨_, rfl, rfl, rfl, fun _ no => (by cases no)⟩
  · rename_i v _
    split at taken
    · rename_i set
      cases taken
      exact .inl ⟨_, rfl, rfl, rfl, kind rfl set⟩
    · rename_i unset
      cases taken
      exact .inr ⟨v, by simpa using unset, rfl⟩
  · rename_i v stands
    have set := h.loaded i v (by rw [stands]; rfl)
    split at taken
    · cases taken
      exact .inl ⟨_, rfl, rfl, rfl, fun _ no => (by cases no)⟩
    · cases taken
      exact .inl ⟨_, rfl, rfl, rfl, kind rfl set⟩
  · rename_i v caller stands
    have set := h.loaded i v (by rw [stands]; rfl)
    split at taken
    · cases taken
      refine .inl ⟨_, rfl, caller.next_quiet v, by cases caller <;> rfl, fun u passed => ?_⟩
      exact Caller.next_passed passed ▸ set
    · cases taken
      exact .inl ⟨_, rfl, rfl, rfl, kind rfl set⟩
  · cases taken

/-- The sections under the mutex: a winner's section of `setUse`, a first or later round
of a waiting thread, and the re-test of a spinning one. -/
theorem sectionStep_cases {s t : State θ} {i : θ} {r : Bool} (taken : sectionStep s i r = some t) :
    (∃ w x, s.mutex = none ∧ (s.pc i).passed = some w ∧ t = useSection s i w x) ∨
      (∃ w caller, s.mutex = none ∧ (s.pc i = .waitLock w caller ∨ s.pc i = .waitAio w caller) ∧
        t = waitRound s i w caller) ∨
      ∃ w caller, s.pc i = .spinning w caller ∧ t = waitRound s i w caller := by
  simp only [sectionStep] at taken
  split at taken
  · rename_i stands
    split at taken
    · rename_i released
      cases taken
      exact .inl ⟨_, _, released, by rw [stands]; rfl, rfl⟩
    · cases taken
  · rename_i stands
    split at taken
    · rename_i released
      cases taken
      exact .inl ⟨_, _, released, by rw [stands]; rfl, rfl⟩
    · cases taken
  · rename_i locking
    split at taken
    · rename_i released
      cases taken
      exact .inr (.inl ⟨_, _, released, .inl locking, rfl⟩)
    · cases taken
  · rename_i waiting
    split at taken
    · rename_i released
      cases taken
      exact .inr (.inl ⟨_, _, released, .inr waiting, rfl⟩)
    · cases taken
  · rename_i spins
    cases taken
    exact .inr (.inr ⟨_, _, spins, rfl⟩)
  · cases taken

/-- Every step keeps the invariant. -/
theorem inv_step {s t : State θ} {e : Event θ} (h : Inv s) (taken : step s e = some t) :
    Inv t := by
  cases e with
  | free i w =>
      rcases freeStep_cases h taken with ⟨q, rfl, quiet, _, passed⟩ | ⟨v, unset, rfl⟩
      · exact h.goto i quiet passed
      · constructor
        · intro j spins
          have moved : ((s.goto i (.enterSetUse v)).pc j).isSpinning = true := spins
          rw [goto_pc] at moved
          split at moved
          · cases moved
          · exact h.holds j moved
        · intro j u passed
          have moved : ((s.goto i (.enterSetUse v)).pc j).passed = some u := passed
          show Function.update s.loaded v true u = true
          by_cases same : u = v
          · simp [same]
          · rw [Function.update_of_ne same]
            rw [goto_pc] at moved
            split at moved
            · exact absurd (Option.some.inj moved).symm same
            · exact h.loaded j u moved
  | critical i r =>
      rcases sectionStep_cases taken with ⟨w, x, released, passed, rfl⟩ |
        ⟨w, caller, released, waiting, rfl⟩ | ⟨w, caller, spins, rfl⟩
      · exact (inv_useSection h i w released (h.loaded i w passed) x).1
      · refine inv_waitRound h i w caller (fun j _ => h.not_spinning released j) ?_
        refine h.loaded i w ?_
        rcases waiting with stands | stands <;> rw [stands] <;> rfl
      · exact inv_waitRound h i w caller (h.not_spinning_of_holds (h.holds i (by rw [spins]; rfl)))
          (h.loaded i w (by rw [spins]; rfl))
  | swap e =>
      simp only [step] at taken
      split at taken
      · rename_i released
        obtain ⟨c, _, rfl⟩ := Option.map_eq_some_iff.mp taken
        exact h.release (fun j => h.not_spinning released j) c s.mutex
      · cases taken

/-- A thread that neither starts to spin nor wins a flag makes nobody stuck. -/
theorem stuck_of_goto {s : State θ} {i : θ} {q : Pc} (quiet : q.isSpinning = false)
    (done : q.isPending = false) (stuck : Stuck (s.goto i q)) : Stuck s := by
  obtain ⟨j, w, caller, spins, held, away, k, pending⟩ := stuck
  refine ⟨j, w, caller, ?_, held, away, k, ?_⟩
  · rw [goto_pc] at spins
    split at spins
    · rw [spins] at quiet
      cases quiet
    · exact spins
  · simp only [goto_pc] at pending
    split at pending
    · rcases pending with pending | ⟨p, pending⟩ <;>
        · rw [pending] at done
          cases done
    · exact pending

/-- A round leads to a stuck state exactly when the chunk is away and the winner of
the flag is pending. -/
theorem stuck_waitRound_iff {s : State θ} {i : θ} {w : Bool} {caller : Caller}
    (waiting : (s.pc i).isPending = false)
    (others : ∀ t, t ≠ i → (s.pc t).isSpinning = false) :
    Stuck (waitRound s i w caller) ↔ Away s.chunk ∧ WinnerPending s w := by
  constructor
  · intro stuck
    unfold waitRound at stuck
    split at stuck
    · exact absurd stuck (not_stuck_of_mutex_free rfl)
    · exact absurd stuck (not_stuck_of_mutex_free rfl)
    · obtain ⟨j, v, c, spins, held, away, k, pending⟩ := stuck
      have self : i = j := Option.some.inj held
      subst self
      have same : Pc.spinning w caller = .spinning v c := by
        have moved : (s.goto i (.spinning w caller)).pc i = .spinning v c := spins
        rwa [goto_pc, if_pos rfl] at moved
      cases same
      refine ⟨away, k, ?_⟩
      have moved : (s.goto i (.spinning w caller)).pc k = .enterSetUse w ∨
        ∃ p, (s.goto i (.spinning w caller)).pc k = .inSetUse w p := pending
      simp only [goto_pc] at moved
      split at moved
      · rcases moved with no | ⟨_, no⟩ <;> cases no
      · exact moved
  · rintro ⟨away, k, pending⟩
    have tests : waitForSwapin s.chunk.status = some false := by
      rcases away with away | away <;> rw [away] <;> rfl
    have other : k ≠ i := by
      rintro rfl
      rcases pending with pending | ⟨p, pending⟩ <;>
        · rw [pending] at waiting
          cases waiting
    unfold waitRound
    rw [tests]
    refine ⟨i, w, caller, ?_, rfl, away, k, ?_⟩
    · show (s.goto i (.spinning w caller)).pc i = _
      rw [goto_pc, if_pos rfl]
    · show (s.goto i (.spinning w caller)).pc k = _ ∨ ∃ p, (s.goto i (.spinning w caller)).pc k = _
      simp only [goto_pc, if_neg other]
      exact pending

/-- Winning a flag makes nobody stuck: who spins has passed a flag that is set. -/
theorem not_stuck_of_won {s : State θ} {i : θ} {v : Bool} (h : Inv s) (free : ¬ Stuck s)
    (unset : s.loaded v = false) :
    ¬ Stuck { s.goto i (.enterSetUse v) with loaded := Function.update s.loaded v true } := by
  rintro ⟨j, w, caller, spins, held, away, k, pending⟩
  have spins' : (s.goto i (.enterSetUse v)).pc j = .spinning w caller := spins
  have pending' : (s.goto i (.enterSetUse v)).pc k = .enterSetUse w ∨
    ∃ p, (s.goto i (.enterSetUse v)).pc k = .inSetUse w p := pending
  rw [goto_pc] at spins'
  split at spins'
  · cases spins'
  · have set : s.loaded w = true := h.loaded j w (by rw [spins']; rfl)
    simp only [goto_pc] at pending'
    split at pending'
    · rcases pending' with same | ⟨_, no⟩
      · cases same
        rw [unset] at set
        cases set
      · cases no
    · exact free ⟨j, w, caller, spins', held, away, k, pending'⟩

/-- In a state that is not stuck the next step is orderly exactly when it does not
lead to a stuck state. -/
theorem orderly_iff {s : State θ} {e : Event θ} (h : Inv s) (free : ¬ Stuck s) :
    Orderly s e ↔ ∀ t, step s e = some t → ¬ Stuck t := by
  cases e with
  | free i w =>
      refine ⟨fun _ t taken => ?_, fun _ => trivial⟩
      rcases freeStep_cases h taken with ⟨q, rfl, quiet, done, _⟩ | ⟨v, unset, rfl⟩
      · exact fun stuck => free (stuck_of_goto quiet done stuck)
      · exact not_stuck_of_won h free unset
  | critical i r =>
      constructor
      · intro orderly t taken
        rcases sectionStep_cases taken with ⟨w, x, released, passed, rfl⟩ |
          ⟨w, caller, released, waiting, rfl⟩ | ⟨w, caller, spins, rfl⟩
        · exact not_stuck_of_mutex_free (inv_useSection h i w released (h.loaded i w passed) x).2
        · rw [stuck_waitRound_iff (by rcases waiting with stands | stands <;> rw [stands] <;> rfl)
            (fun j _ => h.not_spinning released j)]
          exact fun both => orderly w caller waiting released both.1 both.2
        · have mine := h.holds i (by rw [spins]; rfl)
          rw [stuck_waitRound_iff (by rw [spins]; rfl) (h.not_spinning_of_holds mine)]
          exact fun both => free ⟨i, w, caller, spins, mine, both⟩
      · intro never w caller waiting released away pending
        have taken : step s (.critical i r) = some (waitRound s i w caller) := by
          rcases waiting with stands | stands <;> simp [step, sectionStep, stands, released]
        refine never _ taken ((stuck_waitRound_iff ?_ ?_).mpr ⟨away, pending⟩)
        · rcases waiting with stands | stands <;> rw [stands] <;> rfl
        · exact fun j _ => h.not_spinning released j
  | swap e =>
      refine ⟨fun _ t taken => ?_, fun _ => trivial⟩
      simp only [step] at taken
      split at taken
      · rename_i released
        obtain ⟨c, _, rfl⟩ := Option.map_eq_some_iff.mp taken
        exact not_stuck_of_mutex_free released
      · cases taken

/-! ### Runs -/

/-- No thread ever spins on a chunk that the winner of the flag still has to bring in
exactly when no waiting thread gets the mutex, with the chunk away, before the
winner's `setUse` has returned. -/
theorem never_stuck_iff_orderly (c : ManagedMemoryChunk) (loaded : Bool → Bool)
    (es : List (Event θ)) :
    NeverStuck (State.start c loaded) es ↔ Lib.Along step Orderly (State.start c loaded) es := by
  have free : ¬ Stuck (State.start c loaded : State θ) := not_stuck_of_mutex_free rfl
  have same : Lib.Along step Orderly (State.start c loaded) es ↔
      Lib.Along step (fun s e => ∀ t, step s e = some t → ¬ Stuck t) (State.start c loaded) es :=
    Lib.along_congr (fun s : State θ => Inv s ∧ ¬ Stuck s)
      (fun s e inv => orderly_iff inv.1 inv.2)
      (fun s e t inv ok taken => ⟨inv_step inv.1 taken, (orderly_iff inv.1 inv.2).mp ok t taken⟩)
      es ⟨inv_start c loaded, free⟩
  exact ⟨fun never => same.mpr never.2, fun orderly => ⟨free, same.mp orderly⟩⟩

/-- Two threads pull a writable pointer; thread `0` wins the flag, thread `1` takes the
mutex first, and the chunk is swapped out. -/
theorem overtaking_is_stuck :
    ∃ s, Lib.run step (State.start ⟨.swapped, 0⟩ fun _ => false : State Nat)
        [.free 0 true, .free 1 true, .free 0 true, .free 1 true, .free 1 true,
          .critical 1 true] = some s ∧ Stuck s := by
  refine ⟨_, rfl, 1, true, .setUse, ?_, ?_, ?_, 0, ?_⟩
  · rfl
  · rfl
  · exact .inl rfl
  · exact .inl rfl

end Rambrain.SharedAdhere
