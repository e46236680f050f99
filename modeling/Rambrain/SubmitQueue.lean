import Rambrain.Lib.Run
import Rambrain.Lib.Threads

/-!
The queue between the managed memory and the kernel.

`my_io_submit` puts a request into `io_submit_requests`, and the threads of `io_submit_worker` take
the requests out and hand them to the kernel. `close` pushes a null pointer for each thread. A
thread that finds the queue empty sleeps in `pthread_cond_wait`, and a push wakes one that sleeps.

The threads are interleaved between the calls that may block: taking the lock, the test of the queue
with what it leads to, and a call of the kernel. A sleeping thread may also wake on its own.
-/

namespace Rambrain.SubmitQueue

open Lib

/-- Where a thread of `io_submit_worker` stands. -/
inductive Place where
  /-- At the lock, at the head of its loop or awake in `pthread_cond_wait`. -/
  | locks
  /-- At the test of the queue, with the lock. -/
  | tests
  /-- Asleep in `pthread_cond_wait`. -/
  | waits
  /-- Calls `io_submit` with a request. -/
  | submits (aio : Nat)
  /-- Has returned. -/
  | ended
  deriving DecidableEq

/-- Who has `io_submit_lock`. -/
inductive Holder where
  | nobody
  | worker (n : Nat)
  /-- A call of `my_io_submit`. -/
  | caller (aio : Option Nat)
  deriving DecidableEq

structure State where
  io_submit_requests : List (Option Nat)
  io_submit_lock : Holder
  place : Nat → Place
  /-- What the kernel has accepted. -/
  submitted : List Nat
  /-- What has been pushed so far, and what has been popped. -/
  pushed : List (Option Nat)
  popped : List (Option Nat)

inductive Event where
  /-- A call of `my_io_submit` takes the lock. -/
  | call (aio : Option Nat)
  /-- It pushes its request and gives the lock back. The signal wakes `woken`. -/
  | push (woken : Option Nat)
  | lock (n : Nat)
  | test (n : Nat)
  | submit (n : Nat) (retcode : Int)
  /-- A thread wakes without a signal. -/
  | wake (n : Nat)

def eagain : Int := 11

namespace State

variable (s : State)

def move (n : Nat) (x : Place) : State := { s with place := Function.update s.place n x }

/-- The push of `my_io_submit`. -/
def pushRequest (aio : Option Nat) : State :=
  { s with
    io_submit_requests := s.io_submit_requests ++ [aio]
    io_submit_lock := .nobody
    pushed := s.pushed ++ [aio] }

/-- A thread that has the lock looks at the queue. -/
def testQueue (n : Nat) : State :=
  match s.io_submit_requests with
  | [] => { s.move n .waits with io_submit_lock := .nobody }
  | aio :: rest =>
      { s.move n (match aio with | none => .ended | some aio => .submits aio) with
        io_submit_requests := rest
        io_submit_lock := .nobody
        popped := s.popped ++ [aio] }

end State

/-- One event with `threads` threads; `none` when it cannot happen. -/
def step (threads : Nat) (s : State) : Event → Option State
  | .call aio =>
      if s.io_submit_lock = .nobody then some { s with io_submit_lock := .caller aio } else none
  | .push woken =>
      match s.io_submit_lock with
      | .caller aio =>
          match woken with
          | some n =>
              if n < threads ∧ s.place n = .waits then some ((s.pushRequest aio).move n .locks)
              else none
          | none =>
              if ∀ n, n < threads → s.place n ≠ .waits then some (s.pushRequest aio) else none
      | _ => none
  | .lock n =>
      if n < threads ∧ s.place n = .locks ∧ s.io_submit_lock = .nobody then
        some { s.move n .tests with io_submit_lock := .worker n }
      else none
  | .test n => if s.io_submit_lock = .worker n then some (s.testQueue n) else none
  | .submit n retcode =>
      if n < threads then
        match s.place n with
        | .submits aio =>
            if retcode = 1 then
              some { s.move n .locks with submitted := s.submitted ++ [aio] }
            else if retcode = -eagain then some s
            else none
        | _ => none
      else none
  | .wake n => if n < threads ∧ s.place n = .waits then some (s.move n .locks) else none

def start : State where
  io_submit_requests := []
  io_submit_lock := .nobody
  place := fun _ => .locks
  submitted := []
  pushed := []
  popped := []

/-! ### What holds -/

/-- The thread calls the kernel with `aio`. -/
def Place.has (aio : Nat) (x : Place) : Nat := if x = .submits aio then 1 else 0

def Place.isEnded (x : Place) : Nat := if x = .ended then 1 else 0

def Place.isAsleep (x : Place) : Nat := if x = .waits then 1 else 0

/-- The thread looks at the queue before it sleeps. -/
def Place.looks (x : Place) : Nat := if x = .locks ∨ x = .tests then 1 else 0

/-- The request that the thread calls the kernel with. -/
def Place.inHand : Place → List Nat
  | .submits aio => [aio]
  | _ => []

/-- The lock is with the thread that tests the queue. -/
structure Locked (threads : Nat) (s : State) : Prop where
  locked : ∀ n, s.io_submit_lock = .worker n → n < threads ∧ s.place n = .tests
  tests : ∀ n, n < threads → s.place n = .tests → s.io_submit_lock = .worker n

/-- The invariant. A thread sleeps only while those that are awake suffice for the queue. -/
structure Inv (threads : Nat) (s : State) : Prop extends Locked threads s where
  order : s.pushed = s.popped ++ s.io_submit_requests
  once : ∀ aio, s.popped.count (some aio) =
    s.submitted.count aio + tally threads (Place.has aio) s.place
  serial : threads = 1 → s.popped.reduceOption = s.submitted ++ (s.place 0).inHand
  nulls : s.popped.count none = tally threads Place.isEnded s.place
  awake : 0 < tally threads Place.isAsleep s.place →
    s.io_submit_requests.length ≤ tally threads Place.looks s.place

variable {threads : Nat} {s t : State}

/-- A thread that goes to the lock. -/
theorem Locked.move {n : Nat} (h : Locked threads s) (not : s.place n ≠ .tests) :
    Locked threads (s.move n .locks) where
  locked := by
    intro m held
    obtain ⟨less, looking⟩ := h.locked m held
    refine ⟨less, ?_⟩
    by_cases here : m = n
    · exact absurd (here ▸ looking) not
    · exact (Function.update_of_ne here _ _).trans looking
  tests := by
    intro m less looking
    by_cases here : m = n
    · simp [State.move, here] at looking
    · simp only [State.move, Function.update_of_ne here] at looking
      exact h.tests m less looking

/-- A step of a thread that has no request before and after it. -/
theorem inHand_move (s : State) (n : Nat) (x : Place) (before : (s.place n).inHand = [])
    (after : x.inHand = []) : ((s.move n x).place 0).inHand = (s.place 0).inHand := by
  by_cases here : n = 0
  · subst here
    simp [State.move, before, after]
  · exact congrArg Place.inHand (Function.update_of_ne (Ne.symm here) _ _)

theorem Inv.call {aio : Option Nat} (h : Inv threads s)
    (taken : step threads s (.call aio) = some t) : Inv threads t := by
  simp only [step] at taken
  split at taken
  · rename_i free
    cases taken
    exact {
      order := h.order
      once := h.once
      serial := h.serial
      nulls := h.nulls
      locked := fun n is => by cases is
      tests := fun n less is => by
        have held := h.tests n less is
        simp [free] at held
      awake := h.awake }
  · cases taken

theorem Inv.push {woken : Option Nat} (h : Inv threads s)
    (taken : step threads s (.push woken) = some t) : Inv threads t := by
  obtain ⟨⟨locked, tests⟩, order, once, serial, nulls, awake⟩ := h
  simp only [step] at taken
  split at taken
  · rename_i aio held
    have noTests : ∀ n, n < threads → s.place n ≠ .tests := by
      intro n less is
      have holds := tests n less is
      simp [held] at holds
    split at taken
    · -- a thread is woken
      rename_i n
      split at taken
      · rename_i guard
        obtain ⟨less, asleep⟩ := guard
        cases taken
        constructor
        case order => simp [State.move, State.pushRequest, order]
        case once =>
          intro x
          have same := tally_update_same (Place.has x) s.place less (x := .locks)
            (by simp [asleep, Place.has])
          exact (once x).trans (congrArg _ same.symm)
        case serial =>
          intro one
          have same := inHand_move s n .locks (by simp [asleep, Place.inHand]) rfl
          exact (serial one).trans (congrArg _ same.symm)
        case nulls =>
          have same := tally_update_same Place.isEnded s.place less (x := .locks)
            (by simp [asleep, Place.isEnded])
          exact nulls.trans same.symm
        case toLocked =>
          constructor
          case locked =>
            intro m is
            cases is
          case tests =>
            intro m lessM is
            by_cases here : m = n
            · simp [State.move, State.pushRequest, here] at is
            · simp only [State.move, State.pushRequest, Function.update_of_ne here] at is
              exact absurd is (noTests m lessM)
        case awake =>
          intro _
          have looks := tally_update Place.looks s.place less .locks
          have sleeps := le_tally Place.isAsleep s.place less
          have one : Place.isAsleep (s.place n) = 1 := by simp [asleep, Place.isAsleep]
          have zero : Place.looks (s.place n) = 0 := by simp [asleep, Place.looks]
          have now : Place.looks .locks = 1 := rfl
          have enough := awake (by omega)
          simp only [State.move, State.pushRequest, List.length_append, List.length_singleton]
          omega
      · cases taken
    · -- no thread sleeps
      split at taken
      · rename_i never
        cases taken
        exact {
          order := by simp [State.pushRequest, order]
          once := once
          serial := serial
          nulls := nulls
          locked := fun m is => by cases is
          tests := fun m less is => absurd is (noTests m less)
          awake := by
            intro pos
            obtain ⟨n, less, counts⟩ := tally_pos pos
            simp [Place.isAsleep, State.pushRequest, never n less] at counts }
      · cases taken
  · cases taken

theorem Inv.lock {n : Nat} (h : Inv threads s) (taken : step threads s (.lock n) = some t) :
    Inv threads t := by
  obtain ⟨⟨locked, tests⟩, order, once, serial, nulls, awake⟩ := h
  simp only [step] at taken
  split at taken
  · rename_i guard
    obtain ⟨less, is, free⟩ := guard
    cases taken
    have unseen : ∀ f : Place → Nat, f .locks = f .tests →
        tally threads f (Function.update s.place n .tests) = tally threads f s.place :=
      fun f same => tally_update_same f s.place less (by rw [is, same])
    constructor
    case order => exact order
    case once =>
      intro x
      exact (once x).trans (congrArg _ (unseen (Place.has x) (by simp [Place.has])).symm)
    case serial =>
      intro one
      have same := inHand_move s n .tests (by simp [is, Place.inHand]) rfl
      exact (serial one).trans (congrArg _ same.symm)
    case nulls => exact nulls.trans (unseen Place.isEnded rfl).symm
    case toLocked =>
      constructor
      case locked =>
        intro m held
        cases held
        exact ⟨less, Function.update_self _ _ _⟩
      case tests =>
        intro m lessM stands
        by_cases here : m = n
        · rw [here]
        · simp only [State.move, Function.update_of_ne here] at stands
          have held := tests m lessM stands
          simp [free] at held
    case awake =>
      intro pos
      have sleeps := unseen Place.isAsleep rfl
      have looks := unseen Place.looks rfl
      simp only [State.move, sleeps] at pos
      simp only [State.move, looks]
      exact awake pos
  · cases taken

/-- The thread `n` has given the lock back. -/
theorem Inv.unlocked (h : Inv threads s) {n m : Nat} (held : s.io_submit_lock = .worker n)
    (less : m < threads) (is : s.place m = .tests) : m = n := by
  have holds := h.tests m less is
  rw [held] at holds
  cases holds
  rfl

theorem Inv.test {n : Nat} (h : Inv threads s) (taken : step threads s (.test n) = some t) :
    Inv threads t := by
  simp only [step] at taken
  split at taken
  · rename_i held
    cases taken
    obtain ⟨less, is⟩ := h.locked n held
    have unique := fun m => h.unlocked (m := m) held
    obtain ⟨_, order, once, serial, nulls, awake⟩ := h
    have elsewhere : ∀ x : Place, x ≠ .tests → ∀ m, m < threads →
        Function.update s.place n x m = .tests → False := by
      intro x not m lessM looking
      by_cases here : m = n
      · rw [here, Function.update_self] at looking
        exact not looking
      · rw [Function.update_of_ne here] at looking
        exact here (unique m lessM looking)
    cases queue : s.io_submit_requests with
    | nil =>
        have unseen : ∀ f : Place → Nat, f .tests = f .waits →
            tally threads f (Function.update s.place n .waits) = tally threads f s.place :=
          fun f same => tally_update_same f s.place less (by rw [is, same])
        simp only [State.testQueue, queue]
        constructor
        case order => simp [State.move, order, queue]
        case once =>
          intro x
          exact (once x).trans (congrArg _ (unseen (Place.has x) (by simp [Place.has])).symm)
        case serial =>
          intro one
          have same := inHand_move s n .waits (by simp [is, Place.inHand]) rfl
          exact (serial one).trans (congrArg _ same.symm)
        case nulls => exact nulls.trans (unseen Place.isEnded rfl).symm
        case toLocked =>
          constructor
          case locked =>
            intro m stands
            cases stands
          case tests =>
            intro m lessM stands
            exact (elsewhere .waits (by simp) m lessM stands).elim
        case awake =>
          intro _
          simp [State.move, queue]
    | cons aio rest =>
        -- one request less, and one thread less that looks at the queue
        have serves : ∀ x : Place, Place.looks x = 0 → Place.isAsleep x = 0 →
            0 < tally threads Place.isAsleep (Function.update s.place n x) →
              rest.length ≤ tally threads Place.looks (Function.update s.place n x) := by
          intro x notLooks notAsleep pos
          have sleeps := tally_update Place.isAsleep s.place less x
          have looks := tally_update Place.looks s.place less x
          have zero : Place.isAsleep (s.place n) = 0 := by simp [is, Place.isAsleep]
          have one : Place.looks (s.place n) = 1 := by simp [is, Place.looks]
          have enough := awake (by omega)
          simp only [queue, List.length_cons] at enough
          omega
        simp only [State.testQueue, queue]
        cases aio with
        | none =>
            constructor
            case order => simp [State.move, order, queue]
            case once =>
              intro x
              have same := tally_update_same (Place.has x) s.place less (x := .ended)
                (by simp [is, Place.has])
              simp [State.move, same, once x, List.count_append]
            case serial =>
              intro one
              have same := inHand_move s n .ended (by simp [is, Place.inHand]) rfl
              have popped : (s.popped ++ [none]).reduceOption = s.popped.reduceOption := by
                simp [List.reduceOption_append]
              exact popped.trans ((serial one).trans (congrArg _ same.symm))
            case nulls =>
              have ends := tally_update Place.isEnded s.place less .ended
              have zero : Place.isEnded (s.place n) = 0 := by simp [is, Place.isEnded]
              have one : Place.isEnded .ended = 1 := rfl
              simp only [State.move, List.count_append, List.count_singleton_self]
              omega
            case toLocked =>
              constructor
              case locked =>
                intro m stands
                cases stands
              case tests =>
                intro m lessM stands
                exact (elsewhere .ended (by simp) m lessM stands).elim
            case awake => exact serves .ended rfl rfl
        | some aio =>
            constructor
            case order => simp [State.move, order, queue]
            case once =>
              intro x
              have gets := tally_update (Place.has x) s.place less (.submits aio)
              have zero : Place.has x (s.place n) = 0 := by simp [is, Place.has]
              have before := once x
              simp only [State.move, List.count_append]
              by_cases here : aio = x
              · subst here
                have one : Place.has aio (.submits aio) = 1 := by simp [Place.has]
                simp only [List.count_singleton_self]
                omega
              · have isZero : Place.has x (.submits aio) = 0 := by simp [Place.has, here]
                have absent : [some aio].count (some x) = 0 := by simp [here]
                omega
            case serial =>
              intro one
              have first : n = 0 := by omega
              subst first
              simp [State.move, serial one, List.reduceOption_append, is, Place.inHand]
            case nulls =>
              have same := tally_update_same Place.isEnded s.place less (x := .submits aio)
                (by simp [is, Place.isEnded])
              simp [State.move, same, nulls, List.count_append]
            case toLocked =>
              constructor
              case locked =>
                intro m stands
                cases stands
              case tests =>
                intro m lessM stands
                exact (elsewhere (.submits aio) (by simp) m lessM stands).elim
            case awake => exact serves (.submits aio) (by simp [Place.looks]) rfl
  · cases taken

theorem Inv.submit {n : Nat} {retcode : Int} (h : Inv threads s)
    (taken : step threads s (.submit n retcode) = some t) : Inv threads t := by
  obtain ⟨⟨locked, tests⟩, order, once, serial, nulls, awake⟩ := h
  simp only [step] at taken
  split at taken
  · rename_i less
    split at taken
    · rename_i aio is
      split at taken
      · -- the kernel has taken the request
        cases taken
        have moved : Locked threads (s.move n .locks) := Locked.move ⟨locked, tests⟩ (by simp [is])
        constructor
        case order => exact order
        case once =>
          intro x
          have gives := tally_update (Place.has x) s.place less .locks
          have isZero : Place.has x .locks = 0 := by simp [Place.has]
          have before := once x
          simp only [State.move, List.count_append]
          by_cases here : aio = x
          · subst here
            have one : Place.has aio (s.place n) = 1 := by simp [is, Place.has]
            simp only [List.count_singleton_self]
            omega
          · have zero : Place.has x (s.place n) = 0 := by simp [is, Place.has, here]
            have absent : [aio].count x = 0 := by simp [here]
            omega
        case serial =>
          intro one
          have first : n = 0 := by omega
          subst first
          simp [State.move, serial one, is, Place.inHand]
        case nulls =>
          have same := tally_update_same Place.isEnded s.place less (x := .locks)
            (by simp [is, Place.isEnded])
          exact nulls.trans same.symm
        case toLocked => exact ⟨moved.locked, moved.tests⟩
        case awake =>
          intro pos
          have sleeps := tally_update_same Place.isAsleep s.place less (x := .locks)
            (by simp [is, Place.isAsleep])
          have looks := tally_update Place.looks s.place less .locks
          have zero : Place.looks (s.place n) = 0 := by simp [is, Place.looks]
          simp only [State.move, sleeps] at pos ⊢
          have enough := awake pos
          omega
      · split at taken
        · cases taken
          exact ⟨⟨locked, tests⟩, order, once, serial, nulls, awake⟩
        · cases taken
    · cases taken
  · cases taken

theorem Inv.wake {n : Nat} (h : Inv threads s) (taken : step threads s (.wake n) = some t) :
    Inv threads t := by
  obtain ⟨⟨locked, tests⟩, order, once, serial, nulls, awake⟩ := h
  simp only [step] at taken
  split at taken
  · rename_i guard
    obtain ⟨less, is⟩ := guard
    cases taken
    have moved : Locked threads (s.move n .locks) := Locked.move ⟨locked, tests⟩ (by simp [is])
    constructor
    case order => exact order
    case once =>
      intro x
      have same := tally_update_same (Place.has x) s.place less (x := .locks)
        (by simp [is, Place.has])
      exact (once x).trans (congrArg _ same.symm)
    case nulls =>
      have same := tally_update_same Place.isEnded s.place less (x := .locks)
        (by simp [is, Place.isEnded])
      exact nulls.trans same.symm
    case serial =>
      intro one
      have same := inHand_move s n .locks (by simp [is, Place.inHand]) rfl
      exact (serial one).trans (congrArg _ same.symm)
    case toLocked => exact ⟨moved.locked, moved.tests⟩
    case awake =>
      intro _
      have looks := tally_update Place.looks s.place less .locks
      have sleeps := le_tally Place.isAsleep s.place less
      have one : Place.isAsleep (s.place n) = 1 := by simp [is, Place.isAsleep]
      have zero : Place.looks (s.place n) = 0 := by simp [is, Place.looks]
      simp only [State.move]
      have enough := awake (by omega)
      omega
  · cases taken

theorem step_inv {e : Event} (h : Inv threads s) (taken : step threads s e = some t) :
    Inv threads t := by
  cases e with
  | call aio => exact h.call taken
  | push woken => exact h.push taken
  | lock n => exact h.lock taken
  | test n => exact h.test taken
  | submit n retcode => exact h.submit taken
  | wake n => exact h.wake taken

theorem start_inv (threads : Nat) : Inv threads start where
  order := rfl
  once := by
    intro aio
    have zero : tally threads (Place.has aio) start.place = 0 := by
      simp [tally, start, Place.has]
    rw [zero]
    rfl
  serial := fun _ => rfl
  nulls := by
    have zero : tally threads Place.isEnded start.place = 0 := by
      simp [tally, start, Place.isEnded]
    rw [zero]
    rfl
  locked := fun n is => by cases is
  tests := fun n _ is => by cases is
  awake := fun _ => Nat.zero_le _

theorem run_inv {es : List Event} (reached : run (step threads) start es = some s) :
    Inv threads s :=
  run_invariant (Inv threads) (fun _ _ _ h taken => step_inv h taken) es (start_inv threads) reached

/-! ### Every request once -/

/-- The requests of the calls of `my_io_submit`. -/
def calls (es : List Event) : List (Option Nat) :=
  es.filterMap fun e => match e with | .call aio => some aio | _ => none

/-- The call that has the lock. -/
def Holder.inCall : Holder → List (Option Nat)
  | .caller aio => [aio]
  | _ => []

theorem step_pushed {e : Event} (taken : step threads s e = some t) :
    t.pushed ++ t.io_submit_lock.inCall = s.pushed ++ s.io_submit_lock.inCall ++ calls [e] := by
  cases e with
  | call aio =>
      simp only [step] at taken
      split at taken
      · rename_i free
        cases taken
        simp [calls, free, Holder.inCall]
      · cases taken
  | push woken =>
      simp only [step] at taken
      split at taken
      · rename_i aio held
        split at taken <;> split at taken
        all_goals cases taken
        all_goals simp [State.move, State.pushRequest, held, Holder.inCall, calls]
      · cases taken
  | lock n =>
      simp only [step] at taken
      split at taken
      · rename_i guard
        cases taken
        simp [State.move, guard.2.2, Holder.inCall, calls]
      · cases taken
  | test n =>
      simp only [step] at taken
      split at taken
      · rename_i held
        cases taken
        simp only [State.testQueue]
        split <;> simp [State.move, held, Holder.inCall, calls]
      · cases taken
  | submit n retcode =>
      simp only [step] at taken
      split at taken
      · split at taken
        · split at taken
          · cases taken
            simp [State.move, calls]
          · split at taken
            · cases taken
              simp [calls]
            · cases taken
        · cases taken
      · cases taken
  | wake n =>
      simp only [step] at taken
      split at taken
      · cases taken
        simp [State.move, calls]
      · cases taken

theorem run_pushed {es : List Event} {s t : State} (reached : run (step threads) s es = some t) :
    t.pushed ++ t.io_submit_lock.inCall = s.pushed ++ s.io_submit_lock.inCall ++ calls es := by
  induction es generalizing s with
  | nil =>
      cases reached
      simp [calls]
  | cons e es ih =>
      obtain ⟨mid, first, rest⟩ := run_cons_eq_some.mp reached
      have consed : calls (e :: es) = calls [e] ++ calls es := by
        simp only [calls, ← List.filterMap_append, List.singleton_append]
      rw [ih rest, step_pushed first, consed, List.append_assoc]

/-- Every request that `my_io_submit` was called with is at the kernel, with a thread, in the queue
or in its call. With one thread the kernel gets the requests in the order of the calls. -/
theorem requests_handed_once {es : List Event} (reached : run (step threads) start es = some s) :
    (∀ aio, (calls es).count (some aio) = s.submitted.count aio +
      tally threads (Place.has aio) s.place + s.io_submit_requests.count (some aio) +
      s.io_submit_lock.inCall.count (some aio)) ∧
    (threads = 1 → (calls es).reduceOption = s.submitted ++ (s.place 0).inHand ++
      s.io_submit_requests.reduceOption ++ s.io_submit_lock.inCall.reduceOption) := by
  have h := run_inv reached
  have all : s.pushed ++ s.io_submit_lock.inCall = calls es := by
    have pushed := run_pushed reached
    simpa [start, Holder.inCall] using pushed
  constructor
  · intro aio
    rw [← all, h.order, List.count_append, List.count_append, h.once aio]
  · intro one
    rw [← all, h.order, List.reduceOption_append, List.reduceOption_append, h.serial one]

/-- Two threads: the first one sleeps and is woken, and the second one is refused once. -/
def twoRequests : List Event :=
  [.lock 0, .test 0, .call (some 5), .push (some 0), .lock 0, .test 0, .call (some 6), .push none,
    .lock 1, .test 1, .submit 1 (-11), .submit 1 1]

theorem requests_handed_once_two : ∃ s, run (step 2) start twoRequests = some s ∧
    (∀ aio, (calls twoRequests).count (some aio) = s.submitted.count aio +
      tally 2 (Place.has aio) s.place + s.io_submit_requests.count (some aio) +
      s.io_submit_lock.inCall.count (some aio)) ∧
    (2 = 1 → (calls twoRequests).reduceOption = s.submitted ++ (s.place 0).inHand ++
      s.io_submit_requests.reduceOption ++ s.io_submit_lock.inCall.reduceOption) := by
  have taken : (run (step 2) start twoRequests).isSome := by decide
  obtain ⟨s, reached⟩ := Option.isSome_iff_exists.mp taken
  exact ⟨s, reached, requests_handed_once reached⟩

/-! ### No request is left -/

/-- The steps that bring a thread further. -/
def Event.advances : Event → Bool
  | .lock _ | .test _ => true
  | .submit _ retcode => retcode = 1
  | _ => false

/-- No call of `my_io_submit` is under way, and no thread can go on. -/
structure Stuck (threads : Nat) (s : State) : Prop where
  noCall : ∀ aio, s.io_submit_lock ≠ .caller aio
  stuck : ∀ e, Event.advances e = true → step threads s e = none

theorem Stuck.places (stuck : Stuck threads s) (h : Inv threads s) {n : Nat} (less : n < threads) :
    s.place n = .waits ∨ s.place n = .ended := by
  have free : s.io_submit_lock = .nobody := by
    cases held : s.io_submit_lock with
    | nobody => rfl
    | worker m =>
        have refused := stuck.stuck (.test m) rfl
        simp [step, held] at refused
    | caller aio => exact absurd held (stuck.noCall aio)
  cases stands : s.place n with
  | waits => exact .inl rfl
  | ended => exact .inr rfl
  | locks =>
      have refused := stuck.stuck (.lock n) rfl
      simp [step, less, stands, free] at refused
  | tests =>
      have held := h.tests n less stands
      simp [free] at held
  | submits aio =>
      have refused := stuck.stuck (.submit n 1) rfl
      simp [step, less, stands] at refused

/-- No wakeup is lost: a thread does not sleep while there is a request. -/
theorem Stuck.empty (stuck : Stuck threads s) (h : Inv threads s) :
    s.io_submit_requests = [] ∨ ∀ n, n < threads → s.place n = .ended := by
  by_cases asleep : ∃ n, n < threads ∧ s.place n = .waits
  · obtain ⟨n, less, is⟩ := asleep
    have sleeps := le_tally Place.isAsleep s.place less
    have one : Place.isAsleep (s.place n) = 1 := by simp [is, Place.isAsleep]
    have enough := h.awake (by omega)
    have nobody : tally threads Place.looks s.place = 0 := by
      by_contra positive
      obtain ⟨m, lessM, looks⟩ := tally_pos (Nat.pos_of_ne_zero positive)
      rcases stuck.places h lessM with stands | stands <;> simp [stands, Place.looks] at looks
    exact .inl (List.eq_nil_of_length_eq_zero (by omega))
  · refine .inr fun n less => ?_
    rcases stuck.places h less with sleeps | ended
    · exact absurd ⟨n, less, sleeps⟩ asleep
    · exact ended

/-- After `close` has pushed its null pointers, the threads stop only when each of them has returned
and every request is at the kernel. -/
theorem close_drains {es : List Event} {requests : List Nat}
    (reached : run (step threads) start es = some s) (positive : 0 < threads)
    (closed : calls es = requests.map some ++ List.replicate threads none)
    (stuck : Stuck threads s) :
    (∀ n, n < threads → s.place n = .ended) ∧ s.io_submit_requests = [] ∧
      ∀ aio, s.submitted.count aio = requests.count aio := by
  have h := run_inv reached
  have pushed : s.pushed = requests.map some ++ List.replicate threads none := by
    have all := run_pushed reached
    cases held : s.io_submit_lock with
    | nobody => simpa [held, Holder.inCall, start, closed] using all
    | worker n => simpa [held, Holder.inCall, start, closed] using all
    | caller aio => exact absurd held (stuck.noCall aio)
  have nulls : s.pushed.count none = threads := by
    have zero : (requests.map some).count none = 0 := by
      apply List.count_eq_zero.mpr
      simp
    rw [pushed, List.count_append, zero, List.count_replicate_self, Nat.zero_add]
  have ended : (∀ n, n < threads → s.place n = .ended) ∧ s.io_submit_requests = [] := by
    rcases stuck.empty h with empty | ended
    · refine ⟨fun n less => ?_, empty⟩
      have popped : s.popped.count none = threads := by
        rw [← nulls, h.order, empty, List.append_nil]
      have most : ∀ x, Place.isEnded x ≤ 1 := by
        intro x
        unfold Place.isEnded
        split <;> omega
      have one := tally_eq_all Place.isEnded s.place most (by rw [← h.nulls, popped]) less
      by_contra not
      simp [Place.isEnded, not] at one
    · refine ⟨ended, ?_⟩
      -- the last one pushed is a null, and all the nulls are popped
      have popped : s.popped.count none = threads := h.nulls.trans
        (tally_of_all fun n less => by simp [ended n less, Place.isEnded])
      have isZero : s.io_submit_requests.count none = 0 := by
        have all := congrArg (List.count none) h.order
        rw [List.count_append] at all
        omega
      by_contra nonempty
      have last : s.pushed.getLast? = some none := by
        rw [pushed, List.getLast?_append, List.getLast?_replicate, if_neg (by omega)]
        rfl
      rw [h.order, List.getLast?_append_of_ne_nil _ nonempty] at last
      exact List.count_eq_zero.mp isZero (List.mem_of_getLast? last)
  obtain ⟨ended, empty⟩ := ended
  refine ⟨ended, empty, fun aio => ?_⟩
  have once := h.once aio
  have hands : tally threads (Place.has aio) s.place = 0 := by
    by_contra positive
    obtain ⟨n, less, has⟩ := tally_pos (Nat.pos_of_ne_zero positive)
    simp [ended n less, Place.has] at has
  have popped : s.popped.count (some aio) = requests.count aio := by
    have all : s.popped = requests.map some ++ List.replicate threads none := by
      rw [← pushed, h.order, empty, List.append_nil]
    rw [all, List.count_append, List.count_replicate]
    simp [List.count_map_of_injective _ _ (Option.some_injective Nat)]
  omega

/-- `close` has pushed its null pointers, and both threads take one. -/
def closing : List Event :=
  twoRequests ++ [.submit 0 1, .call none, .push none, .call none, .push none, .lock 0, .test 0,
    .lock 1, .test 1]

theorem closing_reaches : ∃ s, run (step 2) start closing = some s ∧ Stuck 2 s := by
  have ends : (run (step 2) start closing).map
      (fun s => (s.io_submit_lock, s.place 0, s.place 1)) = some (.nobody, .ended, .ended) := by
    decide
  obtain ⟨s, reached, stands⟩ := Option.map_eq_some_iff.mp ends
  simp only [Prod.mk.injEq] at stands
  obtain ⟨free, first, second⟩ := stands
  have ended : ∀ n, n < 2 → s.place n = .ended := by
    intro n less
    interval_cases n
    · exact first
    · exact second
  refine ⟨s, reached, ⟨fun aio held => by simp [free] at held, fun e advances => ?_⟩⟩
  cases e with
  | call aio => cases advances
  | push woken => cases advances
  | lock n =>
      apply if_neg
      rintro ⟨less, wakes, _⟩
      simp [ended n less] at wakes
  | test n => simp [step, free]
  | submit n retcode =>
      simp only [step]
      split
      · rename_i less
        simp [ended n less]
      · rfl
  | wake n => cases advances

theorem close_drains_two : ∃ s, run (step 2) start closing = some s ∧
    (∀ n, n < 2 → s.place n = .ended) ∧ s.io_submit_requests = [] ∧
      ∀ aio, s.submitted.count aio = [5, 6].count aio := by
  obtain ⟨s, reached, stuck⟩ := closing_reaches
  exact ⟨s, reached, close_drains reached (by decide) (by decide) stuck⟩

/-! ### The threads stop -/

/-- What a thread has still to do before it sleeps, counted in steps. -/
def Place.work : Place → Nat
  | .locks => 2
  | .tests => 1
  | .submits _ => 3
  | .waits | .ended => 0

/-- A request costs three steps: the lock, the test and the call of the kernel. -/
def State.work (threads : Nat) (s : State) : Nat :=
  3 * s.io_submit_requests.length + tally threads Place.work s.place

def Event.wakes : Event → Bool
  | .wake _ => true
  | _ => false

def Event.ofCaller : Event → Bool
  | .call _ | .push _ => true
  | _ => false

theorem step_work {e : Event} (h : Inv threads s) (own : e.ofCaller = false)
    (taken : step threads s e = some t) :
    t.work threads + e.advances.toNat ≤ s.work threads + 2 * e.wakes.toNat := by
  cases e with
  | call aio => cases own
  | push woken => cases own
  | lock n =>
      simp only [step] at taken
      split at taken
      · rename_i guard
        obtain ⟨less, is, _⟩ := guard
        cases taken
        have moved := tally_update Place.work s.place less .tests
        have two : Place.work (s.place n) = 2 := by rw [is]; rfl
        have one : Place.work .tests = 1 := rfl
        simp only [State.work, State.move, Event.advances, Event.wakes, Bool.toNat_true,
          Bool.toNat_false]
        omega
      · cases taken
  | test n =>
      simp only [step] at taken
      split at taken
      · rename_i held
        cases taken
        obtain ⟨less, is⟩ := h.locked n held
        have moved := fun x => tally_update Place.work s.place less x
        have one : Place.work (s.place n) = 1 := by rw [is]; rfl
        simp only [Event.advances, Event.wakes, Bool.toNat_true, Bool.toNat_false, State.testQueue]
        split
        · rename_i queue
          have asleep := moved .waits
          have zero : Place.work .waits = 0 := rfl
          simp only [State.work, State.move]
          omega
        · rename_i aio rest queue
          have length := congrArg List.length queue
          simp only [List.length_cons] at length
          cases aio with
          | none =>
              have ended := moved .ended
              have zero : Place.work .ended = 0 := rfl
              simp only [State.work, State.move]
              omega
          | some aio =>
              have gets := moved (.submits aio)
              have three : Place.work (.submits aio) = 3 := rfl
              simp only [State.work, State.move]
              omega
      · cases taken
  | submit n retcode =>
      simp only [step] at taken
      split at taken
      · rename_i less
        split at taken
        · rename_i aio is
          split at taken
          · rename_i accepted
            cases taken
            have moved := tally_update Place.work s.place less .locks
            have three : Place.work (s.place n) = 3 := by rw [is]; rfl
            have two : Place.work .locks = 2 := rfl
            simp only [State.work, State.move, Event.advances, Event.wakes, accepted, decide_true,
              Bool.toNat_true, Bool.toNat_false]
            omega
          · rename_i refused
            split at taken
            · cases taken
              simp [Event.advances, refused]
            · cases taken
        · cases taken
      · cases taken
  | wake n =>
      simp only [step] at taken
      split at taken
      · rename_i guard
        obtain ⟨less, is⟩ := guard
        cases taken
        have moved := tally_update Place.work s.place less .locks
        have zero : Place.work (s.place n) = 0 := by rw [is]; rfl
        have two : Place.work .locks = 2 := rfl
        simp only [State.work, State.move, Event.advances, Event.wakes, Bool.toNat_true,
          Bool.toNat_false]
        omega
      · cases taken

theorem run_work {fs : List Event} (h : Inv threads s) (own : ∀ e ∈ fs, e.ofCaller = false)
    (reached : run (step threads) s fs = some t) :
    t.work threads + fs.countP Event.advances ≤
      s.work threads + 2 * fs.countP Event.wakes := by
  induction fs generalizing s with
  | nil =>
      cases reached
      simp
  | cons e fs ih =>
      obtain ⟨mid, first, rest⟩ := run_cons_eq_some.mp reached
      have now := step_work h (own e List.mem_cons_self) first
      have later := ih (step_inv h first) (fun f mem => own f (List.mem_cons_of_mem e mem)) rest
      have counts : ∀ b : Bool, (if b = true then 1 else 0) = b.toNat := by
        intro b
        cases b <;> rfl
      simp only [List.countP_cons, counts]
      omega

/-- Between two calls the threads can go only so many steps, whatever the order, and where they
stop no request is left that one of them could take. -/
theorem queue_is_emptied {es fs : List Event} (reached : run (step threads) start es = some s)
    (own : ∀ e ∈ fs, e.ofCaller = false) (goes : run (step threads) s fs = some t) :
    fs.countP Event.advances ≤ s.work threads + 2 * fs.countP Event.wakes ∧
      (Stuck threads t → t.io_submit_requests = [] ∨ ∀ n, n < threads → t.place n = .ended) := by
  have h := run_inv reached
  have bounded := run_work h own goes
  refine ⟨by omega, fun stuck => ?_⟩
  apply stuck.empty
  exact run_invariant (Inv threads) (fun _ _ _ h taken => step_inv h taken) fs h goes

theorem queue_is_emptied_two : ∃ s t, run (step 2) start twoRequests = some s ∧
    run (step 2) s [.submit 0 1, .lock 0, .test 0, .wake 0] = some t ∧
      [.submit 0 1, .lock 0, .test 0, .wake 0].countP Event.advances ≤
        s.work 2 + 2 * [.submit 0 1, .lock 0, .test 0, .wake 0].countP Event.wakes ∧
      (Stuck 2 t → t.io_submit_requests = [] ∨ ∀ n, n < 2 → t.place n = .ended) := by
  have taken : (run (step 2) start
      (twoRequests ++ [.submit 0 1, .lock 0, .test 0, .wake 0])).isSome := by decide
  obtain ⟨t, reached⟩ := Option.isSome_iff_exists.mp taken
  rw [run_append, Option.bind_eq_some_iff] at reached
  obtain ⟨s, first, goes⟩ := reached
  exact ⟨s, t, first, goes, queue_is_emptied first (by decide) goes⟩

end Rambrain.SubmitQueue
