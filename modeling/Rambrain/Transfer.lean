import Rambrain.Chunk

/-!
The transfers of `managedFileSwap`: `copyMem` schedules one asynchronous transfer for each
location of a chunk's chain, and `asyncIoArrived` takes the arrivals in any order.

One counter for each `copyMem`, the tracker, is raised by `scheduleCopy` and lowered by the
arrivals; `copyMem` holds one count more while it schedules. `totalSwapActionsQueued` counts all
of this at once. A turn of the loop of `copyMem` is one step, so arrivals may fall between its
parts.

`scheduleCopy` throws when it cannot resize a swap file, and `asyncIoArrived` when a transfer did
not succeed. Nothing takes back what was counted before, so the copy never completes
(`resize_leaves_queued`). `Safe` says which steps keep to the protocol, and along these it holds.

`Transfers` is the invariant: the tracker of a copy that is not complete holds the number of its
parts in flight, and from each of them the chain still leads to the copy's chunk, which stays in
`MEM_SWAPIN` or `MEM_SWAPOUT`.
-/

namespace Rambrain.Transfer

open Lib

/-- What a `pageFileLocation` holds in `glob_off_next`: the chunk when its status is `PAGE_END`,
else the next location. -/
inductive Location where
  | part (next : Nat)
  | last (chunk : Nat)
  deriving DecidableEq, Repr

/-- The walk to `PAGE_END`: the locations it passes and the chunk it finds. -/
def chain (loc : Nat → Location) : Nat → Nat → Option (List Nat × Nat)
  | 0, _ => none
  | fuel + 1, ref =>
      match loc ref with
      | .last chunk => some ([ref], chunk)
      | .part next => (chain loc fuel next).map fun rest => (ref :: rest.1, rest.2)

/-- A call of `copyMem`. -/
structure Copy where
  tracker : Nat
  parts : List Nat
  chunk : Nat
  deriving DecidableEq, Repr

/-- A `copyMem` under way: its tracker, `cur`, and whether `cur` is still to be scheduled. -/
structure Copying where
  tracker : Nat
  cur : Nat
  more : Bool
  deriving DecidableEq, Repr

/-- An `int`; signed overflow is taken to wrap. -/
def asInt (x : Int) : Int := x.bmod (2 ^ 32)

/-- An `unsigned int`. -/
def asUnsigned (x : Int) : Int := x % 2 ^ 32

theorem asInt_of_fits {x : Int} (lower : -2 ^ 31 ≤ x) (upper : x < 2 ^ 31) : asInt x = x :=
  Int.bmod_eq_of_le (by omega) (by omega)

theorem asUnsigned_of_fits {x : Int} (lower : 0 ≤ x) (upper : x < 2 ^ 32) : asUnsigned x = x :=
  Int.emod_eq_of_lt lower upper

structure State where
  loc : Nat → Location
  chunk : Nat → ManagedMemoryChunk
  /-- `aio_ptr->tracker` of a location, `none` for `aio_ptr == NULL`. -/
  aio : Nat → Option Nat
  pendingAios : Finset Nat
  tracker : Nat → Int
  totalSwapActionsQueued : Int
  copying : Option Copying
  nextTracker : Nat
  /-- The trackers deleted, in order. -/
  deleted : List Nat
  /-- History: the calls of `copyMem`. -/
  copies : List Copy
  /-- History: the parts arrived, each with the tracker it was scheduled with. -/
  arrived : List (Nat × Nat)
  /-- History: the calls of `completeTransactionOn`, by tracker and chunk. -/
  completed : List (Nat × Nat)

/-- `MEM_SWAPIN` or `MEM_SWAPOUT`. -/
def InTransit (status : MemoryStatus) : Prop := status = .swapin ∨ status = .swapout

instance (status : MemoryStatus) : Decidable (InTransit status) :=
  inferInstanceAs (Decidable (_ ∨ _))

namespace State

variable (s : State)

/-- `completeTransactionOn` with the tracker it is called for. -/
def completeTransactionOn (fuel ref tracker : Nat) : Option State :=
  (chain s.loc fuel ref).bind fun found =>
    (SwapEvent.complete.apply (s.chunk found.2)).map fun c =>
      { s with
        chunk := Function.update s.chunk found.2 c
        completed := s.completed ++ [(tracker, found.2)] }

/-- `lastval = ( *tracker )--; if ( lastval == 1 ) { completeTransactionOn …; delete tracker; }` -/
def lower (fuel ref tracker : Nat) : Option State :=
  let lastval := s.tracker tracker
  let s := { s with tracker := Function.update s.tracker tracker (asInt (lastval - 1)) }
  if lastval = 1 then
    (s.completeTransactionOn fuel ref tracker).map fun s =>
      { s with deleted := s.deleted ++ [tracker] }
  else some s

/-- `scheduleCopy` when the swap file is or becomes large enough. -/
def scheduleCopy (ref tracker : Nat) : State :=
  { s with
    tracker := Function.update s.tracker tracker (asInt (s.tracker tracker + 1))
    totalSwapActionsQueued := asUnsigned (s.totalSwapActionsQueued + 1)
    aio := Function.update s.aio ref (some tracker)
    pendingAios := insert ref s.pendingAios }

/-- `swapIn` or `swapOut` up to the loop of `copyMem`. -/
def beginCopy (head chunk : Nat) (parts : List Nat) (reverse : Bool) : State :=
  let tracker := s.nextTracker
  { s with
    chunk := Function.update s.chunk chunk
      { s.chunk chunk with status := if reverse then .swapin else .swapout }
    nextTracker := tracker + 1
    tracker := Function.update s.tracker tracker 1
    totalSwapActionsQueued := asUnsigned (s.totalSwapActionsQueued + 1)
    copying := some ⟨tracker, head, true⟩
    copies := s.copies ++ [⟨tracker, parts, chunk⟩] }

/-- A turn of the loop of `copyMem`. -/
def copyPart (k : Copying) : State :=
  let s := s.scheduleCopy k.cur k.tracker
  match s.loc k.cur with
  | .last _ => { s with copying := some { k with more := false } }
  | .part next => { s with copying := some { k with cur := next } }

/-- `copyMem` behind its loop. -/
def endCopy (fuel : Nat) (k : Copying) : Option State :=
  let s : State := { s with
    totalSwapActionsQueued := asUnsigned (s.totalSwapActionsQueued - 1)
    copying := none }
  s.lower fuel k.cur k.tracker

/-- `checkForAIO` and `asyncIoArrived` for a part that was transferred. -/
def asyncIoArrived (fuel ref tracker : Nat) : Option State :=
  let s : State := { s with
    pendingAios := s.pendingAios.erase ref
    aio := Function.update s.aio ref none
    arrived := s.arrived ++ [(tracker, ref)] }
  (s.lower fuel ref tracker).map fun s =>
    { s with totalSwapActionsQueued := asUnsigned (s.totalSwapActionsQueued - 1) }

/-- The location is on the way from a part in flight, or from `cur`, to the end of its chain. -/
def Held (fuel ref : Nat) : Prop :=
  (∃ p ∈ s.pendingAios, ∃ found ∈ chain s.loc fuel p, ref ∈ found.1) ∨
    ∃ k ∈ s.copying, ∃ found ∈ chain s.loc fuel k.cur, ref ∈ found.1

instance (fuel ref : Nat) : Decidable (s.Held fuel ref) :=
  have : ∀ p, Decidable (∃ found ∈ chain s.loc fuel p, ref ∈ found.1) := fun p =>
    match taken : chain s.loc fuel p with
    | none => isFalse (by rintro ⟨_, mem, _⟩; cases mem)
    | some found =>
        decidable_of_iff (ref ∈ found.1)
          ⟨fun h => ⟨found, rfl, h⟩, by rintro ⟨_, mem, h⟩; cases mem; exact h⟩
  have : Decidable (∃ k ∈ s.copying, ∃ found ∈ chain s.loc fuel k.cur, ref ∈ found.1) :=
    match s.copying with
    | none => isFalse (by rintro ⟨_, mem, _⟩; cases mem)
    | some k =>
        decidable_of_iff (∃ found ∈ chain s.loc fuel k.cur, ref ∈ found.1)
          ⟨fun h => ⟨k, rfl, h⟩, by rintro ⟨_, mem, h⟩; cases mem; exact h⟩
  inferInstanceAs (Decidable (_ ∨ _))

end State

inductive Event where
  /-- `swapIn` (`reverse`) or `swapOut` of the chunk at the end of the chain from `head`. -/
  | copyMem (head : Nat) (reverse : Bool)
  | copyPart
  /-- `ftruncate` fails: the exception of `scheduleCopy` leaves `copyMem`. -/
  | resizeFails
  | endCopy
  | arrive (ref : Nat)
  /-- A transfer comes back that did not succeed; `asyncIoArrived` throws. -/
  | arriveFailed (ref : Nat)
  /-- `pfmalloc` or `pffree` writes a location; `pffree` first waits for the locations of the
  chain in their order. -/
  | write (ref : Nat) (location : Location)
  /-- Another operation on a chunk. -/
  | other (chunk : Nat) (c : ManagedMemoryChunk)

/-- One event; `none` when it cannot happen, or when `completeTransactionOn` throws. -/
def step (fuel : Nat) (s : State) : Event → Option State
  | .copyMem head reverse =>
      match s.copying, chain s.loc fuel head with
      | none, some (parts, chunk) => some (s.beginCopy head chunk parts reverse)
      | _, _ => none
  | .copyPart =>
      match s.copying with
      | some k => if k.more then some (s.copyPart k) else none
      | none => none
  | .resizeFails =>
      match s.copying with
      | some k => if k.more then some { s with copying := none } else none
      | none => none
  | .endCopy =>
      match s.copying with
      | some k => if k.more then none else s.endCopy fuel k
      | none => none
  | .arrive ref =>
      if ref ∈ s.pendingAios then
        (s.aio ref).bind fun tracker => s.asyncIoArrived fuel ref tracker
      else none
  | .arriveFailed ref =>
      if ref ∈ s.pendingAios then some { s with pendingAios := s.pendingAios.erase ref } else none
  | .write ref location => some { s with loc := Function.update s.loc ref location }
  | .other chunk c => some { s with chunk := Function.update s.chunk chunk c }

/-- A copy that is not complete. -/
def State.Live (s : State) (c : Copy) : Prop := c ∈ s.copies ∧ c.tracker ∉ s.deleted

/-- A transfer of the chunk is in flight. -/
def State.Moves (s : State) (chunk : Nat) : Prop :=
  ∃ c ∈ s.copies, c.tracker ∉ s.deleted ∧ c.chunk = chunk

instance (s : State) (chunk : Nat) : Decidable (s.Moves chunk) :=
  inferInstanceAs (Decidable (∃ c ∈ s.copies, _))

theorem State.Live.apart {s : State} {c : Copy} {chunk : Nat} (live : s.Live c)
    (rests : ¬ s.Moves chunk) : c.chunk ≠ chunk :=
  fun same => rests ⟨c, live.1, live.2, same⟩

/-- The condition under which a step keeps to the protocol: `copyMem` and the other operations find
no transfer of the chunk in flight, a counter that is raised is not at its maximum, resizing and
transfers succeed, and no location is rewritten while a transfer leads through it. -/
def Safe (fuel : Nat) (s : State) : Event → Prop
  | .copyMem head _ => s.totalSwapActionsQueued + 1 < 2 ^ 32 ∧
      ∀ found ∈ chain s.loc fuel head, ¬ s.Moves found.2
  | .copyPart => s.totalSwapActionsQueued + 1 < 2 ^ 32 ∧
      ∀ k ∈ s.copying, s.tracker k.tracker + 1 < 2 ^ 31
  | .resizeFails | .arriveFailed _ => False
  | .endCopy | .arrive _ => True
  | .write ref location => location = s.loc ref ∨ ¬ s.Held fuel ref
  | .other chunk c => c.status = (s.chunk chunk).status ∨ ¬ s.Moves chunk

instance (fuel : Nat) (s : State) : ∀ e, Decidable (Safe fuel s e)
  | .copyMem head _ => inferInstanceAs (Decidable (_ ∧ ∀ found ∈ chain s.loc fuel head, _))
  | .copyPart => inferInstanceAs (Decidable (_ ∧ ∀ k ∈ s.copying, _))
  | .resizeFails | .arriveFailed _ => inferInstanceAs (Decidable False)
  | .endCopy | .arrive _ => inferInstanceAs (Decidable True)
  | .write _ _ | .other _ _ => inferInstanceAs (Decidable (_ ∨ ¬ _))

/-- A swap without transfers. -/
def init (loc : Nat → Location) (chunk : Nat → ManagedMemoryChunk) : State where
  loc := loc
  chunk := chunk
  aio := fun _ => none
  pendingAios := ∅
  tracker := fun _ => 0
  totalSwapActionsQueued := 0
  copying := none
  nextTracker := 0
  deleted := []
  copies := []
  arrived := []
  completed := []

/-! ### Chains -/

section
variable {loc : Nat → Location} {fuel ref : Nat} {parts : List Nat} {chunk : Nat}

theorem chain_succ {found : List Nat × Nat} (is : chain loc fuel ref = some found) :
    chain loc (fuel + 1) ref = some found := by
  induction fuel generalizing ref found with
  | zero => cases is
  | succ fuel ih =>
      rw [chain] at is ⊢
      split at is
      · exact is
      · obtain ⟨rest, walked, rfl⟩ := Option.map_eq_some_iff.mp is
        exact Option.map_eq_some_iff.mpr ⟨rest, ih walked, rfl⟩

theorem chain_last (is : chain loc fuel ref = some (parts, chunk)) {c : Nat}
    (isLast : loc ref = .last c) : parts = [ref] ∧ chunk = c := by
  cases fuel with
  | zero => cases is
  | succ fuel =>
      rw [chain, isLast] at is
      cases is
      exact ⟨rfl, rfl⟩

theorem chain_part (is : chain loc fuel ref = some (parts, chunk)) {next : Nat}
    (part : loc ref = .part next) :
    ∃ rest, parts = ref :: rest ∧ chain loc fuel next = some (rest, chunk) := by
  cases fuel with
  | zero => cases is
  | succ fuel =>
      rw [chain, part] at is
      obtain ⟨rest, walked, eq⟩ := Option.map_eq_some_iff.mp is
      cases eq
      exact ⟨rest.1, rfl, chain_succ walked⟩

theorem chain_head (is : chain loc fuel ref = some (parts, chunk)) :
    ∃ rest, parts = ref :: rest := by
  cases leads : loc ref with
  | last c => exact ⟨[], (chain_last is leads).1⟩
  | part next =>
      obtain ⟨rest, eq, _⟩ := chain_part is leads
      exact ⟨rest, eq⟩

/-- From a location of a chain the rest of the chain leads to the same chunk. -/
theorem chain_of_mem {p : Nat} (is : chain loc fuel ref = some (parts, chunk)) (mem : p ∈ parts) :
    ∃ rest, chain loc fuel p = some (rest, chunk) ∧ rest.length ≤ parts.length := by
  induction parts generalizing ref with
  | nil => cases mem
  | cons x parts ih =>
      obtain ⟨rest, eq⟩ := chain_head is
      cases eq
      rcases List.mem_cons.mp mem with rfl | mem
      · exact ⟨_, is, le_rfl⟩
      · cases leads : loc x with
        | last c =>
            rw [List.cons_eq_cons.mp (chain_last is leads).1 |>.2] at mem
            cases mem
        | part next =>
            obtain ⟨rest, eq, walked⟩ := chain_part is leads
            cases eq
            obtain ⟨rest', walked', le⟩ := ih walked mem
            exact ⟨rest', walked', le.trans (Nat.le_succ _)⟩

/-- No location is twice on a chain. -/
theorem chain_nodup (is : chain loc fuel ref = some (parts, chunk)) : parts.Nodup := by
  induction parts generalizing ref with
  | nil => exact List.nodup_nil
  | cons x parts ih =>
      obtain ⟨rest, eq⟩ := chain_head is
      cases eq
      cases leads : loc x with
      | last c => rw [(chain_last is leads).1]; exact List.nodup_singleton _
      | part next =>
          obtain ⟨rest, eq, walked⟩ := chain_part is leads
          cases eq
          refine List.nodup_cons.mpr ⟨fun mem => ?_, ih walked⟩
          obtain ⟨rest', again, le⟩ := chain_of_mem walked mem
          rw [is] at again
          cases again
          exact absurd le (by simp)

/-- A write beside a chain leaves it as it is. -/
theorem chain_update {p : Nat} {location : Location} (is : chain loc fuel ref = some (parts, chunk))
    (beside : p ∉ parts) :
    chain (Function.update loc p location) fuel ref = some (parts, chunk) := by
  induction fuel generalizing ref parts with
  | zero => cases is
  | succ fuel ih =>
      obtain ⟨rest, eq⟩ := chain_head is
      have other : ref ≠ p := fun same => beside (by rw [eq, same]; exact List.mem_cons_self)
      rw [chain, Function.update_of_ne other]
      rw [chain] at is
      split at is
      · exact is
      · obtain ⟨rest, walked, eq⟩ := Option.map_eq_some_iff.mp is
        cases eq
        refine Option.map_eq_some_iff.mpr ⟨rest, ih walked ?_, rfl⟩
        exact fun mem => beside (List.mem_cons_of_mem _ mem)

end

/-! ### The invariant -/

variable {s : State} {fuel : Nat}

namespace State

/-- The parts in flight with a tracker. -/
def inFlight (s : State) (tracker : Nat) : Finset Nat :=
  s.pendingAios.filter fun p => s.aio p = some tracker

/-- What `copyMem` itself holds of a tracker. -/
def own (s : State) (tracker : Nat) : Nat :=
  if s.copying.map Copying.tracker = some tracker then 1 else 0

/-- A part that `copyMem` has still to schedule. -/
def Todo (s : State) (fuel tracker p : Nat) : Prop :=
  ∃ k, s.copying = some k ∧ k.tracker = tracker ∧ k.more = true ∧
    ∃ rest chunk, chain s.loc fuel k.cur = some (rest, chunk) ∧ p ∈ rest

end State

structure Transfers (fuel : Nat) (s : State) : Prop where
  fresh : ∀ c ∈ s.copies, c.tracker < s.nextTracker
  freshArrived : ∀ e ∈ s.arrived, e.1 < s.nextTracker
  unique : ∀ c ∈ s.copies, ∀ d ∈ s.copies, c.tracker = d.tracker → c = d
  deleted : s.deleted = s.completed.map Prod.fst
  once : s.deleted.Nodup
  completed : ∀ e ∈ s.completed, ∃ c ∈ s.copies, c.tracker = e.1 ∧ c.chunk = e.2 ∧
    ∀ p ∈ c.parts, (c.tracker, p) ∈ s.arrived
  idle : ∀ p, p ∉ s.pendingAios → s.aio p = none
  flight : ∀ p ∈ s.pendingAios, ∃ c, s.Live c ∧ s.aio p = some c.tracker ∧ p ∈ c.parts ∧
    (c.tracker, p) ∉ s.arrived ∧ ∃ rest, chain s.loc fuel p = some (rest, c.chunk)
  count : ∀ c, s.Live c → s.tracker c.tracker = (s.inFlight c.tracker).card + s.own c.tracker
  parts : ∀ c, s.Live c → ∀ p ∈ c.parts, (c.tracker, p) ∈ s.arrived ∨
    s.aio p = some c.tracker ∨ s.Todo fuel c.tracker p
  transit : ∀ c, s.Live c → InTransit (s.chunk c.chunk).status
  apart : ∀ c d, s.Live c → s.Live d → c.chunk = d.chunk → c = d
  copying : ∀ k, s.copying = some k → ∃ c, s.Live c ∧ c.tracker = k.tracker ∧
    ∃ rest, chain s.loc fuel k.cur = some (rest, c.chunk) ∧ (k.more = true →
      ∀ p ∈ rest, p ∉ s.pendingAios ∧ p ∈ c.parts ∧ (c.tracker, p) ∉ s.arrived)

/-- The trackers that are not deleted are held, and have not overflowed. -/
def Positive (s : State) : Prop :=
  ∀ c, s.Live c → 0 < s.tracker c.tracker ∧ s.tracker c.tracker < 2 ^ 31

/-- `totalSwapActionsQueued` counts the parts in flight and a `copyMem` under way. -/
def Queued (s : State) : Prop :=
  s.totalSwapActionsQueued = s.pendingAios.card + (if s.copying.isSome then 1 else 0) ∧
    s.totalSwapActionsQueued < 2 ^ 32

theorem complete_inTransit {c : ManagedMemoryChunk} (transit : InTransit c.status) :
    ∃ d, SwapEvent.complete.apply c = some d := by
  rcases transit with status | status <;> simp [SwapEvent.apply, status]

/-- Lowering a tracker completes its copy when nothing else holds it. -/
theorem Transfers.lower (s : State) (fuel ref tracker : Nat) {c : Copy} {rest : List Nat}
    (h : Transfers fuel
      { s with tracker := Function.update s.tracker tracker (s.tracker tracker - 1) })
    (pos : ∀ d, s.Live d → d.tracker ≠ tracker →
      0 < s.tracker d.tracker ∧ s.tracker d.tracker < 2 ^ 31)
    (few : s.tracker tracker < 2 ^ 31) (live : s.Live c) (is : c.tracker = tracker)
    (leads : chain s.loc fuel ref = some (rest, c.chunk)) :
    ∃ t, s.lower fuel ref tracker = some t ∧ Transfers fuel t ∧ Positive t ∧
      t.totalSwapActionsQueued = s.totalSwapActionsQueued ∧ t.pendingAios = s.pendingAios ∧
      t.copying = s.copying := by
  subst is
  have count : s.tracker c.tracker - 1 = (s.inFlight c.tracker).card + s.own c.tracker := by
    have count := h.count c live
    simp only [Function.update_self] at count
    exact count
  have fits : asInt (s.tracker c.tracker - 1) = s.tracker c.tracker - 1 :=
    asInt_of_fits (by omega) (by omega)
  by_cases last : s.tracker c.tracker = 1
  · obtain ⟨d, complete⟩ := complete_inTransit (h.transit c live)
    have zero : (s.inFlight c.tracker).card = 0 ∧ s.own c.tracker = 0 := by omega
    have apart : ∀ p, s.aio p = some c.tracker → p ∉ s.pendingAios := by
      intro p inFlight mem
      have mem : p ∈ s.inFlight c.tracker := Finset.mem_filter.mpr ⟨mem, inFlight⟩
      rw [Finset.card_eq_zero.mp zero.1] at mem
      cases mem
    have free : ∀ k, s.copying = some k → k.tracker ≠ c.tracker := by
      intro k isCopying same
      have own := zero.2
      simp [State.own, isCopying, same] at own
    have all : ∀ p ∈ c.parts, (c.tracker, p) ∈ s.arrived := by
      intro p mem
      rcases h.parts c live p mem with arrived | tracked | ⟨k, isCopying, same, _⟩
      · exact arrived
      · have idle : s.aio p = none := h.idle p (apart p tracked)
        rw [show s.aio p = some c.tracker from tracked] at idle
        cases idle
      · exact absurd same (free k isCopying)
    refine ⟨{ s with
      tracker := Function.update s.tracker c.tracker (s.tracker c.tracker - 1)
      chunk := Function.update s.chunk c.chunk d
      completed := s.completed ++ [(c.tracker, c.chunk)]
      deleted := s.deleted ++ [c.tracker] }, ?_, ?_, ?_, rfl, rfl, rfl⟩
    · have complete : SwapEvent.complete.apply (s.chunk c.chunk) = some d := complete
      simp only [State.lower, fits]
      simp only [last, if_true, State.completeTransactionOn, leads, complete, Option.bind_some,
        Option.map_some]
    · have still : ∀ x : Copy, (x ∈ s.copies ∧ x.tracker ∉ s.deleted ++ [c.tracker]) →
          s.Live x ∧ x.tracker ≠ c.tracker := by
        rintro x ⟨mem, not⟩
        rw [List.mem_append, not_or, List.mem_singleton] at not
        exact ⟨⟨mem, not.1⟩, not.2⟩
      have more : ∀ x, s.Live x → x.tracker ≠ c.tracker →
          x ∈ s.copies ∧ x.tracker ∉ s.deleted ++ [c.tracker] := by
        intro x liveX ne
        refine ⟨liveX.1, ?_⟩
        rw [List.mem_append, not_or, List.mem_singleton]
        exact ⟨liveX.2, ne⟩
      exact {
        fresh := h.fresh
        freshArrived := h.freshArrived
        unique := h.unique
        deleted := by
          have deleted : s.deleted = s.completed.map Prod.fst := h.deleted
          simp [deleted]
        once := by
          have once : s.deleted.Nodup := h.once
          refine List.nodup_append.mpr ⟨once, List.nodup_singleton _, ?_⟩
          rintro x mem y memY rfl
          rw [List.mem_singleton] at memY
          exact live.2 (memY ▸ mem)
        completed := by
          intro e mem
          rcases List.mem_append.mp mem with mem | mem
          · exact h.completed e mem
          · rw [List.mem_singleton] at mem
            subst mem
            exact ⟨c, live.1, rfl, rfl, all⟩
        idle := h.idle
        flight := by
          intro p mem
          obtain ⟨x, liveX, tracked, further⟩ := h.flight p mem
          have ne : x.tracker ≠ c.tracker := by
            intro same
            exact apart p (by rw [← same]; exact tracked) mem
          exact ⟨x, more x liveX ne, tracked, further⟩
        count := fun x liveX => h.count x (still x liveX).1
        parts := fun x liveX => h.parts x (still x liveX).1
        transit := by
          intro x liveX
          obtain ⟨liveX, ne⟩ := still x liveX
          have other : x.chunk ≠ c.chunk := by
            intro same
            exact ne (by rw [h.apart x c liveX live same])
          have transit := h.transit x liveX
          simpa only [Function.update_of_ne other] using transit
        apart := fun x y liveX liveY => h.apart x y (still x liveX).1 (still y liveY).1
        copying := by
          intro k isCopying
          obtain ⟨x, liveX, same, further⟩ := h.copying k isCopying
          exact ⟨x, more x liveX (by rw [same]; exact free k isCopying), same, further⟩ }
    · rintro x ⟨mem, not⟩
      rw [List.mem_append, not_or, List.mem_singleton] at not
      have positive := pos x ⟨mem, not.1⟩ not.2
      simpa [Function.update_of_ne not.2] using positive
  · refine ⟨_, by simp only [State.lower, fits]; rw [if_neg last], h, ?_, rfl, rfl, rfl⟩
    intro x liveX
    by_cases same : x.tracker = c.tracker
    · simp only [same, Function.update_self]
      omega
    · simpa only [Function.update_of_ne same] using pos x liveX same

/-! ### The events -/

theorem Transfers.other (h : Transfers fuel s) {chunk : Nat} {c : ManagedMemoryChunk}
    (keeps : c.status = (s.chunk chunk).status ∨ ¬ s.Moves chunk) :
    Transfers fuel { s with chunk := Function.update s.chunk chunk c } where
  __ := h
  transit := by
    intro x live
    have transit := h.transit x live
    change InTransit (Function.update s.chunk chunk c x.chunk).status
    by_cases same : x.chunk = chunk
    · subst same
      rw [Function.update_self]
      rcases keeps with eq | rests
      · rwa [eq]
      · exact absurd rfl (State.Live.apart live rests)
    · rwa [Function.update_of_ne same]

theorem Transfers.write (h : Transfers fuel s) {ref : Nat} {location : Location}
    (free : ¬ s.Held fuel ref) :
    Transfers fuel { s with loc := Function.update s.loc ref location } := by
  have flight : ∀ p ∈ s.pendingAios, ∀ rest chunk, chain s.loc fuel p = some (rest, chunk) →
      chain (Function.update s.loc ref location) fuel p = some (rest, chunk) := by
    intro p mem rest chunk is
    exact chain_update is fun on => free (.inl ⟨p, mem, _, is, on⟩)
  have cur : ∀ k, s.copying = some k → ∀ rest chunk,
      chain s.loc fuel k.cur = some (rest, chunk) →
      chain (Function.update s.loc ref location) fuel k.cur = some (rest, chunk) := by
    intro k isCopying rest chunk is
    exact chain_update is fun on => free (.inr ⟨k, isCopying, _, is, on⟩)
  exact {
    __ := h
    flight := by
      intro p mem
      obtain ⟨c, live, inFlight, part, notYet, rest, is⟩ := h.flight p mem
      exact ⟨c, live, inFlight, part, notYet, rest, flight p mem rest _ is⟩
    parts := by
      intro c live p mem
      rcases h.parts c live p mem with
        arrived | inFlight | ⟨k, isCopying, same, more, rest, chunk, is, on⟩
      · exact .inl arrived
      · exact .inr (.inl inFlight)
      · exact .inr (.inr ⟨k, isCopying, same, more, rest, chunk, cur k isCopying rest chunk is, on⟩)
    copying := by
      intro k isCopying
      obtain ⟨c, live, same, rest, is, further⟩ := h.copying k isCopying
      exact ⟨c, live, same, rest, cur k isCopying rest _ is, further⟩ }

/-- A part in flight arrives: the code takes the arrival. -/
theorem Transfers.arrive (h : Transfers fuel s) (pos : Positive s) (queued : Queued s) {ref : Nat}
    (mem : ref ∈ s.pendingAios) :
    ∃ t, step fuel s (.arrive ref) = some t ∧ Transfers fuel t ∧ Positive t ∧ Queued t := by
  obtain ⟨c, live, inFlight, part, notYet, rest, leads⟩ := h.flight ref mem
  have others : ∀ tracker, tracker ≠ c.tracker →
      (s.pendingAios.erase ref).filter
        (fun p => Function.update s.aio ref none p = some tracker) = s.inFlight tracker := by
    intro tracker ne
    ext p
    by_cases same : p = ref
    · subst same
      simp [State.inFlight, inFlight, ne.symm]
    · simp [State.inFlight, same]
  have own : (s.pendingAios.erase ref).filter
      (fun p => Function.update s.aio ref none p = some c.tracker) =
        (s.inFlight c.tracker).erase ref := by
    ext p
    by_cases same : p = ref
    · subst same
      simp
    · simp [State.inFlight, same]
  have one : ((s.inFlight c.tracker).erase ref).card + 1 = (s.inFlight c.tracker).card :=
    Finset.card_erase_add_one (Finset.mem_filter.mpr ⟨mem, inFlight⟩)
  obtain ⟨t, lowered, transfers, positive, total, pending, copying⟩ := Transfers.lower
    { s with
      pendingAios := s.pendingAios.erase ref
      aio := Function.update s.aio ref none
      arrived := s.arrived ++ [(c.tracker, ref)] } fuel ref c.tracker
    { fresh := h.fresh
      freshArrived := by
        intro e mem
        rcases List.mem_append.mp mem with mem | mem
        · exact h.freshArrived e mem
        · rw [List.mem_singleton] at mem
          subst mem
          exact h.fresh c live.1
      unique := h.unique
      deleted := h.deleted
      once := h.once
      completed := by
        intro e mem
        obtain ⟨d, memD, same, chunk, all⟩ := h.completed e mem
        exact ⟨d, memD, same, chunk, fun p memP => List.mem_append_left _ (all p memP)⟩
      idle := by
        intro p not
        by_cases same : p = ref
        · subst same
          exact Function.update_self ..
        · apply (Function.update_of_ne same _ _).trans
          exact h.idle p fun mem => not (Finset.mem_erase.mpr ⟨same, mem⟩)
      flight := by
        intro p mem
        obtain ⟨other, mem⟩ := Finset.mem_erase.mp mem
        obtain ⟨d, liveD, atD, partD, notYetD, leadsD⟩ := h.flight p mem
        refine ⟨d, liveD, (Function.update_of_ne other _ _).trans atD, partD, ?_, leadsD⟩
        rw [List.mem_append, not_or, List.mem_singleton]
        exact ⟨notYetD, fun eq => other (Prod.ext_iff.mp eq).2⟩
      count := by
        intro d liveD
        have count := h.count d liveD
        simp only [State.inFlight, State.own] at count ⊢
        by_cases same : d.tracker = c.tracker
        · rw [same] at count ⊢
          rw [Function.update_self, own]
          simp only [State.inFlight] at one ⊢
          omega
        · rw [Function.update_of_ne same, others d.tracker same]
          exact count
      parts := by
        intro d liveD p memP
        rcases h.parts d liveD p memP with arrived | atD | todo
        · exact .inl (List.mem_append_left _ arrived)
        · by_cases same : p = ref
          · subst same
            rw [inFlight] at atD
            left
            rw [← Option.some.inj atD]
            exact List.mem_append_right _ (List.mem_singleton_self _)
          · exact .inr (.inl ((Function.update_of_ne same _ _).trans atD))
        · exact .inr (.inr todo)
      transit := h.transit
      apart := h.apart
      copying := by
        intro k atK
        obtain ⟨d, liveD, same, restD, leadsD, further⟩ := h.copying k atK
        refine ⟨d, liveD, same, restD, leadsD, fun more p memP => ?_⟩
        obtain ⟨idle, partD, notYetD⟩ := further more p memP
        refine ⟨fun mem => idle (Finset.mem_of_mem_erase mem), partD, ?_⟩
        rw [List.mem_append, not_or, List.mem_singleton]
        refine ⟨notYetD, fun eq => idle ?_⟩
        have same : p = ref := (Prod.ext_iff.mp eq).2
        rwa [same] }
    (fun d liveD _ => pos d liveD) (pos c live).2 live rfl leads
  have card := Finset.card_erase_add_one mem
  obtain ⟨counts, few⟩ := queued
  have fits : asUnsigned (t.totalSwapActionsQueued - 1) = s.totalSwapActionsQueued - 1 := by
    rw [total]
    show asUnsigned (s.totalSwapActionsQueued - 1) = _
    exact asUnsigned_of_fits (by omega) (by omega)
  refine ⟨{ t with totalSwapActionsQueued := s.totalSwapActionsQueued - 1 }, ?_, ?_, positive,
    ?_, ?_⟩
  · simp only [step, if_pos mem, inFlight, Option.bind_some, State.asyncIoArrived]
    rw [lowered, Option.map_some, fits]
  · exact { transfers with }
  · rw [pending, copying]
    show s.totalSwapActionsQueued - 1 = _
    simp only
    omega
  · show s.totalSwapActionsQueued - 1 < 2 ^ 32
    omega

/-- The end of `copyMem`. -/
theorem Transfers.endCopy (h : Transfers fuel s) (pos : Positive s) (queued : Queued s)
    {k : Copying} (isCopying : s.copying = some k) (done : k.more = false) :
    ∃ t, step fuel s .endCopy = some t ∧ Transfers fuel t ∧ Positive t ∧ Queued t := by
  obtain ⟨c, live, same, rest, leads, _⟩ := h.copying k isCopying
  have few := (pos c live).2
  rw [same] at few
  obtain ⟨t, lowered, transfers, positive, total, pending, copying⟩ := Transfers.lower
    { s with
      totalSwapActionsQueued := s.totalSwapActionsQueued - 1
      copying := none } fuel k.cur k.tracker
    { fresh := h.fresh
      freshArrived := h.freshArrived
      unique := h.unique
      deleted := h.deleted
      once := h.once
      completed := h.completed
      idle := h.idle
      flight := h.flight
      count := by
        intro d liveD
        have count := h.count d liveD
        simp only [State.inFlight, State.own, isCopying, Option.map_some, Option.map_none,
          Option.some.injEq] at count ⊢
        by_cases eq : d.tracker = k.tracker
        · rw [eq] at count ⊢
          rw [Function.update_self]
          simp only [if_true] at count
          simp only [reduceCtorEq, if_false]
          omega
        · rw [Function.update_of_ne eq]
          rw [if_neg fun eq' => eq eq'.symm] at count
          simpa using count
      parts := by
        intro d liveD p memP
        rcases h.parts d liveD p memP with arrived | atD | ⟨k', atK, _, more, _⟩
        · exact .inl arrived
        · exact .inr (.inl atD)
        · rw [isCopying] at atK
          cases atK
          rw [done] at more
          cases more
      transit := h.transit
      apart := h.apart
      copying := fun k impossible => by cases impossible }
    (fun d liveD _ => pos d liveD) few live same leads
  obtain ⟨counts, below⟩ := queued
  rw [isCopying] at counts
  simp only [Option.isSome_some, if_true] at counts
  have fits : asUnsigned (s.totalSwapActionsQueued - 1) = s.totalSwapActionsQueued - 1 :=
    asUnsigned_of_fits (by omega) (by omega)
  refine ⟨t, ?_, transfers, positive, ?_, ?_⟩
  · simp only [step, isCopying, done, State.endCopy, fits]
    exact lowered
  · rw [total, pending, copying]
    simp only [Option.isSome_none, Bool.false_eq_true, if_false]
    omega
  · rw [total]
    show s.totalSwapActionsQueued - 1 < 2 ^ 32
    omega

/-- A turn of the loop of `copyMem`. -/
theorem Transfers.copyPart (h : Transfers fuel s) (pos : Positive s) (queued : Queued s)
    {k : Copying} (isCopying : s.copying = some k) (more : k.more = true)
    (few : s.tracker k.tracker + 1 < 2 ^ 31) (room : s.totalSwapActionsQueued + 1 < 2 ^ 32) :
    Transfers fuel (s.copyPart k) ∧ Positive (s.copyPart k) ∧ Queued (s.copyPart k) := by
  obtain ⟨c, live, same, rest, leads, further⟩ := h.copying k isCopying
  have further := further more
  obtain ⟨tail, head⟩ := chain_head leads
  have curMem : k.cur ∈ rest := by rw [head]; exact List.mem_cons_self
  have curNew := (further k.cur curMem).1
  have idle := h.idle k.cur curNew
  -- where the loop stands after the turn
  obtain ⟨k', is, tracker, left, rest', walked, restIs⟩ : ∃ k' : Copying,
      s.copyPart k = { s.scheduleCopy k.cur k.tracker with copying := some k' } ∧
      k'.tracker = k.tracker ∧ (k'.more = true ∨ tail = []) ∧
      ∃ rest', chain s.loc fuel k'.cur = some (rest', c.chunk) ∧
        (k'.more = true → rest' = tail) := by
    cases way : s.loc k.cur with
    | last lastRef =>
        have alone := (chain_last leads way).1
        rw [head, List.cons_eq_cons] at alone
        refine ⟨{ k with more := false }, ?_, rfl, .inr alone.2, rest, leads, ?_⟩
        · have way : (s.scheduleCopy k.cur k.tracker).loc k.cur = .last lastRef := way
          simp only [State.copyPart, way]
        · intro stops
          cases stops
    | part next =>
        obtain ⟨rest', eq, walked⟩ := chain_part leads way
        rw [head, List.cons_eq_cons] at eq
        refine ⟨{ k with cur := next }, ?_, rfl, .inl more, rest', walked, fun _ => eq.2.symm⟩
        have way : (s.scheduleCopy k.cur k.tracker).loc k.cur = .part next := way
        simp only [State.copyPart, way]
  have nodup := chain_nodup leads
  rw [head] at nodup
  have others : ∀ tr, tr ≠ k.tracker →
      (insert k.cur s.pendingAios).filter
        (fun p => Function.update s.aio k.cur (some k.tracker) p = some tr) = s.inFlight tr := by
    intro tr ne
    ext p
    by_cases eq : p = k.cur
    · subst eq
      simp [State.inFlight, idle, ne.symm]
    · simp [State.inFlight, eq]
  have owned : (insert k.cur s.pendingAios).filter
      (fun p => Function.update s.aio k.cur (some k.tracker) p = some k.tracker) =
        insert k.cur (s.inFlight k.tracker) := by
    ext p
    by_cases eq : p = k.cur
    · subst eq
      simp
    · simp [State.inFlight, eq]
  have grown : (insert k.cur (s.inFlight k.tracker)).card = (s.inFlight k.tracker).card + 1 :=
    Finset.card_insert_of_notMem fun mem => curNew (Finset.mem_filter.mp mem).1
  have held : 0 < s.tracker k.tracker := same ▸ (pos c live).1
  have raised : asInt (s.tracker k.tracker + 1) = s.tracker k.tracker + 1 :=
    asInt_of_fits (by omega) few
  obtain ⟨counts, below⟩ := queued
  have fits : asUnsigned (s.totalSwapActionsQueued + 1) = s.totalSwapActionsQueued + 1 :=
    asUnsigned_of_fits (by omega) room
  rw [is]
  refine ⟨?_, ?_, ?_⟩
  · exact {
      fresh := h.fresh
      freshArrived := h.freshArrived
      unique := h.unique
      deleted := h.deleted
      once := h.once
      completed := h.completed
      idle := by
        intro p not
        have other : p ≠ k.cur := fun eq => not (eq ▸ Finset.mem_insert_self ..)
        refine (Function.update_of_ne other _ _).trans (h.idle p fun mem => ?_)
        exact not (Finset.mem_insert_of_mem mem)
      flight := by
        intro p mem
        by_cases eq : p = k.cur
        · subst eq
          refine ⟨c, live, ?_, (further k.cur curMem).2.1, (further k.cur curMem).2.2, rest, leads⟩
          rw [same]
          exact Function.update_self ..
        · obtain ⟨d, liveD, atD, others⟩ :=
            h.flight p ((Finset.mem_insert.mp mem).resolve_left eq)
          exact ⟨d, liveD, (Function.update_of_ne eq _ _).trans atD, others⟩
      count := by
        intro d liveD
        have count := h.count d liveD
        simp only [State.scheduleCopy, State.inFlight, State.own, isCopying, tracker,
          Option.map_some]
          at count ⊢
        by_cases eq : d.tracker = k.tracker
        · rw [eq] at count ⊢
          rw [Function.update_self, owned, grown, raised]
          simp only [State.inFlight, if_true] at count ⊢
          omega
        · rw [Function.update_of_ne eq, others d.tracker eq]
          exact count
      parts := by
        intro d liveD p memP
        rcases h.parts d liveD p memP with arrived | atD | ⟨j, atJ, sameJ, moreJ, r, ch, isJ, on⟩
        · exact .inl arrived
        · right; left
          have other : p ≠ k.cur := by
            rintro rfl
            rw [idle] at atD
            cases atD
          exact (Function.update_of_ne other _ _).trans atD
        · right
          rw [isCopying] at atJ
          cases atJ
          rw [leads] at isJ
          cases isJ
          rw [head] at on
          rcases List.mem_cons.mp on with rfl | on
          · left
            rw [← sameJ]
            exact Function.update_self ..
          · right
            have moreLeft : k'.more = true := left.resolve_right (List.ne_nil_of_mem on)
            exact ⟨k', rfl, tracker.trans sameJ, moreLeft, rest', c.chunk, walked,
              by rw [restIs moreLeft]; exact on⟩
      transit := h.transit
      apart := h.apart
      copying := by
        intro j atJ
        cases atJ
        refine ⟨c, live, same.trans tracker.symm, rest', walked, fun moreJ p memP => ?_⟩
        rw [restIs moreJ] at memP
        obtain ⟨new, part, notYet⟩ := further p (by rw [head]; exact List.mem_cons_of_mem _ memP)
        refine ⟨fun mem => ?_, part, notYet⟩
        rcases Finset.mem_insert.mp mem with rfl | mem
        · exact (List.nodup_cons.mp nodup).1 memP
        · exact new mem }
  · intro d liveD
    have positive := pos d liveD
    simp only [State.scheduleCopy, raised]
    by_cases eq : d.tracker = k.tracker
    · rw [eq, Function.update_self]
      omega
    · rwa [Function.update_of_ne eq]
  · have card := Finset.card_insert_of_notMem curNew
    rw [isCopying] at counts
    simp only [Option.isSome_some, if_true] at counts
    simp only [Queued, State.scheduleCopy, fits, Option.isSome_some, if_true]
    omega

/-- A new copy: no other one has its chunk, so no part in flight is on its chain. -/
theorem Transfers.begin (h : Transfers fuel s) (pos : Positive s) (queued : Queued s)
    {head chunk : Nat} {parts : List Nat} (reverse : Bool) (idle : s.copying = none)
    (leads : chain s.loc fuel head = some (parts, chunk))
    (rests : ¬ s.Moves chunk)
    (room : s.totalSwapActionsQueued + 1 < 2 ^ 32) :
    Transfers fuel (s.beginCopy head chunk parts reverse) ∧
      Positive (s.beginCopy head chunk parts reverse) ∧
      Queued (s.beginCopy head chunk parts reverse) := by
  have newDeleted : s.nextTracker ∉ s.deleted := by
    intro mem
    rw [h.deleted] at mem
    obtain ⟨e, memE, eq⟩ := List.mem_map.mp mem
    obtain ⟨c, memC, same, _⟩ := h.completed e memE
    have lt := h.fresh c memC
    omega
  have either : ∀ c, (s.beginCopy head chunk parts reverse).Live c →
      (s.Live c ∧ c.tracker ≠ s.nextTracker) ∨ c = ⟨s.nextTracker, parts, chunk⟩ := by
    rintro c ⟨mem, not⟩
    rcases List.mem_append.mp mem with mem | mem
    · exact .inl ⟨⟨mem, not⟩, (h.fresh c mem).ne⟩
    · exact .inr (List.mem_singleton.mp mem)
  have elsewhere : ∀ c, s.Live c → c.chunk ≠ chunk := fun c live => live.apart rests
  have old : ∀ c, s.Live c → (s.beginCopy head chunk parts reverse).Live c := by
    rintro c ⟨mem, not⟩
    exact ⟨List.mem_append_left _ mem, not⟩
  have new : (s.beginCopy head chunk parts reverse).Live ⟨s.nextTracker, parts, chunk⟩ :=
    ⟨List.mem_append_right _ (List.mem_singleton_self _), newDeleted⟩
  have notFlying : ∀ p ∈ parts, p ∉ s.pendingAios := by
    intro p mem flying
    obtain ⟨c, live, _, _, _, rest, is⟩ := h.flight p flying
    obtain ⟨rest', is', _⟩ := chain_of_mem leads mem
    rw [is] at is'
    cases is'
    exact elsewhere c live rfl
  have notArrived : ∀ p, (s.nextTracker, p) ∉ s.arrived := by
    intro p mem
    exact absurd (h.freshArrived _ mem) (Nat.lt_irrefl _)
  have noneFlying : s.inFlight s.nextTracker = ∅ := by
    refine Finset.filter_eq_empty_iff.mpr fun p mem inFlight => ?_
    obtain ⟨c, live, atC, _⟩ := h.flight p mem
    rw [atC] at inFlight
    exact absurd (Option.some.inj inFlight) (h.fresh c live.1).ne
  refine ⟨?_, ?_, ?_⟩
  · exact {
      fresh := by
        intro c mem
        rcases List.mem_append.mp mem with mem | mem
        · exact Nat.lt_succ_of_lt (h.fresh c mem)
        · rw [List.mem_singleton.mp mem]
          exact Nat.lt_succ_self _
      freshArrived := fun e mem => Nat.lt_succ_of_lt (h.freshArrived e mem)
      unique := by
        intro c memC d memD same
        rcases List.mem_append.mp memC with memC | memC <;>
          rcases List.mem_append.mp memD with memD | memD
        · exact h.unique c memC d memD same
        · rw [List.mem_singleton.mp memD] at same
          exact absurd same (h.fresh c memC).ne
        · rw [List.mem_singleton.mp memC] at same
          exact absurd same.symm (h.fresh d memD).ne
        · rw [List.mem_singleton.mp memC, List.mem_singleton.mp memD]
      deleted := h.deleted
      once := h.once
      completed := by
        intro e mem
        obtain ⟨c, memC, further⟩ := h.completed e mem
        exact ⟨c, List.mem_append_left _ memC, further⟩
      idle := h.idle
      flight := by
        intro p mem
        obtain ⟨c, live, further⟩ := h.flight p mem
        exact ⟨c, old c live, further⟩
      count := by
        intro c live
        have flying : (s.beginCopy head chunk parts reverse).inFlight c.tracker =
            s.inFlight c.tracker := rfl
        rw [flying]
        change Function.update s.tracker s.nextTracker 1 c.tracker =
          _ + ((if some s.nextTracker = some c.tracker then 1 else 0 : Nat) : Int)
        rcases either c live with ⟨live, ne⟩ | rfl
        · have own : s.own c.tracker = 0 := by simp [State.own, idle]
          rw [Function.update_of_ne ne, h.count c live, own,
            if_neg fun eq => ne (Option.some.inj eq).symm]
        · rw [Function.update_self, noneFlying]
          simp
      parts := by
        intro c live p mem
        rcases either c live with ⟨live, _⟩ | rfl
        · rcases h.parts c live p mem with arrived | inFlight | ⟨k, isCopying, _⟩
          · exact .inl arrived
          · exact .inr (.inl inFlight)
          · rw [idle] at isCopying
            cases isCopying
        · exact .inr (.inr ⟨_, rfl, rfl, rfl, parts, chunk, leads, mem⟩)
      transit := by
        intro c live
        rcases either c live with ⟨live, _⟩ | rfl
        · change InTransit (Function.update s.chunk chunk _ c.chunk).status
          rw [Function.update_of_ne (elsewhere c live)]
          exact h.transit c live
        · change InTransit (Function.update s.chunk chunk _ chunk).status
          rw [Function.update_self]
          cases reverse
          · exact .inr rfl
          · exact .inl rfl
      apart := by
        intro c d liveC liveD same
        rcases either c liveC with ⟨liveC, _⟩ | rfl <;>
          rcases either d liveD with ⟨liveD, _⟩ | rfl
        · exact h.apart c d liveC liveD same
        · exact absurd same (elsewhere c liveC)
        · exact absurd same.symm (elsewhere d liveD)
        · rfl
      copying := by
        intro k isCopying
        cases isCopying
        exact ⟨_, new, rfl, parts, leads, fun _ p mem =>
          ⟨notFlying p mem, mem, notArrived p⟩⟩ }
  · intro c live
    simp only [State.beginCopy]
    rcases either c live with ⟨live, ne⟩ | rfl
    · rw [Function.update_of_ne ne]
      exact pos c live
    · rw [Function.update_self]
      decide
  · obtain ⟨counts, below⟩ := queued
    rw [idle] at counts
    simp only [Option.isSome_none, Bool.false_eq_true, if_false] at counts
    have fits : asUnsigned (s.totalSwapActionsQueued + 1) = s.totalSwapActionsQueued + 1 :=
      asUnsigned_of_fits (by omega) room
    simp only [Queued, State.beginCopy, fits, Option.isSome_some, if_true]
    omega

/-! ### Runs -/

/-- What holds of every state reached. -/
structure Inv (fuel : Nat) (s : State) : Prop where
  transfers : Transfers fuel s
  positive : Positive s
  queued : Queued s

theorem inv_init (loc : Nat → Location) (chunk : Nat → ManagedMemoryChunk) :
    Inv fuel (init loc chunk) where
  transfers := by
    constructor <;> simp [init, State.Live]
  positive := by rintro c ⟨mem, _⟩; cases mem
  queued := by simp [Queued, init]

theorem inv_step {t : State} (h : Inv fuel s) (event : Event) (safe : Safe fuel s event)
    (taken : step fuel s event = some t) : Inv fuel t := by
  cases event with
  | copyMem head reverse =>
      simp only [step] at taken
      split at taken
      · rename_i parts chunk idle leads
        cases taken
        obtain ⟨transfers, positive, queued⟩ :=
          h.transfers.begin h.positive h.queued reverse idle leads (safe.2 _ leads) safe.1
        exact ⟨transfers, positive, queued⟩
      · cases taken
  | copyPart =>
      simp only [step] at taken
      split at taken
      · rename_i k copying
        split at taken
        · rename_i more
          cases taken
          obtain ⟨transfers, positive, queued⟩ :=
            h.transfers.copyPart h.positive h.queued copying more (safe.2 k copying) safe.1
          exact ⟨transfers, positive, queued⟩
        · cases taken
      · cases taken
  | resizeFails => exact safe.elim
  | endCopy =>
      have taken' := taken
      simp only [step] at taken
      split at taken
      · rename_i k copying
        split at taken
        · cases taken
        · rename_i done
          obtain ⟨u, takes, transfers, positive, queued⟩ :=
            h.transfers.endCopy h.positive h.queued copying (by simpa using done)
          rw [taken'] at takes
          cases takes
          exact ⟨transfers, positive, queued⟩
      · cases taken
  | arrive ref =>
      have mem : ref ∈ s.pendingAios := by
        by_contra not
        simp only [step, if_neg not] at taken
        cases taken
      obtain ⟨u, takes, transfers, positive, queued⟩ :=
        h.transfers.arrive h.positive h.queued mem
      rw [taken] at takes
      cases takes
      exact ⟨transfers, positive, queued⟩
  | arriveFailed ref => exact safe.elim
  | write ref location =>
      cases taken
      rcases safe with same | free
      · rw [same, Function.update_eq_self]
        exact h
      · exact ⟨h.transfers.write free, h.positive, h.queued⟩
  | other chunk c =>
      cases taken
      exact ⟨h.transfers.other safe, h.positive, h.queued⟩

namespace State

/-- The chunks that `completeTransactionOn` ran on for a copy. -/
def completions (s : State) (c : Copy) : List Nat :=
  (s.completed.filter fun e => e.1 = c.tracker).map Prod.snd

/-- How often a copy's tracker was deleted. -/
def releases (s : State) (c : Copy) : Nat := s.deleted.count c.tracker

/-- `copyMem` has returned and all parts have arrived. -/
def AllArrived (s : State) (c : Copy) : Prop :=
  (∀ k, s.copying = some k → k.tracker ≠ c.tracker) ∧ ∀ p ∈ c.parts, (c.tracker, p) ∈ s.arrived

end State

/-- A copy is complete exactly when all its parts have arrived. -/
theorem Inv.live_iff (h : Inv fuel s) {c : Copy} (mem : c ∈ s.copies) :
    c.tracker ∈ s.deleted ↔ s.AllArrived c := by
  constructor
  · intro deleted
    constructor
    · intro k copying same
      obtain ⟨d, live, is, _⟩ := h.transfers.copying k copying
      exact live.2 (by rw [is, same]; exact deleted)
    · rw [h.transfers.deleted] at deleted
      obtain ⟨e, memE, eq⟩ := List.mem_map.mp deleted
      obtain ⟨d, memD, same, _, all⟩ := h.transfers.completed e memE
      rw [h.transfers.unique c mem d memD (by rw [same, eq])]
      exact all
  · rintro ⟨free, all⟩
    by_contra not
    have count := h.transfers.count c ⟨mem, not⟩
    have positive := h.positive c ⟨mem, not⟩
    have own : s.own c.tracker = 0 := by
      refine if_neg fun eq => ?_
      obtain ⟨k, copying, same⟩ := Option.map_eq_some_iff.mp eq
      exact free k copying same
    have nonzero : 0 < (s.inFlight c.tracker).card := by omega
    obtain ⟨p, flying⟩ := Finset.card_pos.mp nonzero
    obtain ⟨pending, inFlight⟩ := Finset.mem_filter.mp flying
    obtain ⟨d, live, atD, part, notYet, _⟩ := h.transfers.flight p pending
    rw [inFlight] at atD
    have same := h.transfers.unique c mem d live.1 (Option.some.inj atD)
    subst same
    exact notYet (all p part)

theorem filter_of_nodup_keys {l : List (Nat × Nat)} (nodup : (l.map Prod.fst).Nodup) {e : Nat × Nat}
    (mem : e ∈ l) : l.filter (fun d => d.1 = e.1) = [e] := by
  induction l with
  | nil => cases mem
  | cons d l ih =>
      rw [List.map_cons, List.nodup_cons] at nodup
      rcases List.mem_cons.mp mem with rfl | mem
      · have empty : l.filter (fun d => d.1 = e.1) = [] := by
          refine List.filter_eq_nil_iff.mpr fun d memD same => nodup.1 ?_
          exact List.mem_map.mpr ⟨d, memD, by simpa using same⟩
        simp [empty]
      · have ne : d.1 ≠ e.1 := fun same => nodup.1 (same ▸ List.mem_map_of_mem mem)
        simp [ne, ih nodup.2 mem]

/-- Each `copyMem` completes once, when its last part has arrived and on the chunk its chain
leads to; its tracker is deleted once; `totalSwapActionsQueued` is zero exactly when nothing is in
flight; and an arrival never fails. -/
structure Completes (fuel : Nat) (t : State) : Prop where
  complete : ∀ c ∈ t.copies,
    (t.AllArrived c → t.completions c = [c.chunk] ∧ t.releases c = 1) ∧
    (¬ t.AllArrived c → t.completions c = [] ∧ t.releases c = 0)
  queued : t.copying = none → (t.totalSwapActionsQueued = 0 ↔ t.pendingAios = ∅)
  counted : t.totalSwapActionsQueued = 0 → t.pendingAios = ∅
  arrives : ∀ p ∈ t.pendingAios, ∃ u, step fuel t (.arrive p) = some u

theorem Inv.completes {t : State} (h : Inv fuel t) : Completes fuel t where
  complete c mem := by
    constructor
    · intro all
      have deleted := (h.live_iff mem).mpr all
      refine ⟨?_, List.count_eq_one_of_mem h.transfers.once deleted⟩
      have keys := h.transfers.once
      rw [h.transfers.deleted] at keys deleted
      obtain ⟨e, memE, eq⟩ := List.mem_map.mp deleted
      obtain ⟨d, memD, same, chunkIs, _⟩ := h.transfers.completed e memE
      rw [h.transfers.unique c mem d memD (by rw [same, eq]), State.completions, same,
        filter_of_nodup_keys keys memE, chunkIs]
      rfl
    · intro unended
      have not := fun deleted => unended ((h.live_iff mem).mp deleted)
      refine ⟨?_, List.count_eq_zero_of_not_mem not⟩
      rw [State.completions, List.map_eq_nil_iff, List.filter_eq_nil_iff]
      intro e memE same
      rw [h.transfers.deleted] at not
      exact not (List.mem_map.mpr ⟨e, memE, by simpa using same⟩)
  queued idle := by
    have counts := h.queued.1
    rw [idle] at counts
    rw [counts]
    simp
  counted zero := by
    have counts := h.queued.1
    rw [zero] at counts
    apply Finset.card_eq_zero.mp
    split at counts <;> omega
  arrives p mem := by
    obtain ⟨u, takes, _⟩ := h.transfers.arrive h.positive h.queued mem
    exact ⟨u, takes⟩

/-- In every run whose steps are safe, in every state reached. -/
theorem transfers_complete (fuel : Nat) (loc : Nat → Location) (chunk : Nat → ManagedMemoryChunk)
    (events : List Event) (safe : Along (step fuel) (Safe fuel) (init loc chunk) events) :
    ∀ t ∈ run (step fuel) (init loc chunk) events, Completes fuel t := by
  intro t reached
  have h : Inv fuel t := run_invariant_of_guard (Inv fuel)
    (fun s e u inv safe taken => inv_step inv e safe taken) events (inv_init loc chunk) safe reached
  exact h.completes

/-- A chunk of two parts is loaded; the second part arrives while `copyMem` still holds its
tracker. -/
def twoParts : List Event :=
  [.copyMem 1 true, .copyPart, .copyPart, .arrive 2, .endCopy, .arrive 1]

theorem transfers_complete_twoParts :
    ∃ t ∈ run (step 2) (init (fun ref => if ref = 1 then .part 2 else .last 7)
        fun _ => ⟨.swapped, 0⟩) twoParts,
      t.completed = [(0, 7)] ∧ t.deleted = [0] ∧ t.totalSwapActionsQueued = 0 ∧
        t.pendingAios = ∅ ∧ (t.chunk 7).status = .allocated ∧ Completes 2 t := by
  refine ⟨(run (step 2) (init (fun ref => if ref = 1 then .part 2 else .last 7)
      fun _ => ⟨.swapped, 0⟩) twoParts).get (by decide), Option.get_mem _, by decide, by decide,
    by decide, by decide, by decide, ?_⟩
  exact transfers_complete 2 _ _ twoParts (by decide) _ (Option.get_mem _)

/-- A chunk of one part is written, and its swap file cannot be resized. Nothing is in flight, and
`totalSwapActionsQueued` is 1. -/
theorem resize_leaves_queued : ¬ ∀ (fuel : Nat) (loc : Nat → Location)
    (chunk : Nat → ManagedMemoryChunk) (events : List Event),
    ∀ t ∈ run (step fuel) (init loc chunk) events, Completes fuel t := by
  intro claim
  have completes := claim 1 (fun _ => .last 7) (fun _ => ⟨.allocated, 0⟩)
    [.copyMem 1 false, .resizeFails] _ (Option.get_mem (by decide))
  have queued := (completes.queued (by decide)).mpr (by decide)
  revert queued
  decide

end Rambrain.Transfer
