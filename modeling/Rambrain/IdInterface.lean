import Rambrain.EnoughSpace

/-!
The interface of the manager by `memoryID` (`managedMemory.cpp`).

`setUse ( id )`, `unsetUse ( id )` and `swapIn ( id )` are documented as convenience for the
functions that take a chunk. Each declares `managedMemoryChunk chunk = resolveMemChunk ( id )`,
which is a copy of the registered chunk, and passes the copy on. A function is modelled once, over
the chunk it has been given: the registered one or a copy. The element on the ring is the same for
both.

What the scheduler and the swap do to the manager, while a call waits or inside `swapIn` and
`untouch`, comes with the call. None of it changes a use counter or the size of a chunk. So no
sequence of calls by id takes or releases a use (`byId_useCnt`), and the two interfaces agree only
where nothing is done to the chunk (`agree_iff`).

`swapIn` tests its chunk again each time it has waited for room. The chunk itself may have been put
on its way by then; a copy never is.
-/

namespace Rambrain.IdInterface

open EnoughSpace (Manager)

/-- The chunk a function has been given, besides the manager. -/
inductive Target where
  | registered
  | copy (c : Cyclic.Chunk) (preemptiveLoaded : Bool)

/-- What happens at a wait: to the manager, and to a copy that was given to the swap. -/
structure Wait where
  world : Manager → Manager
  own : List SwapEvent

/-- A call of `ensureEnoughSpace ( sizereq, &chunk )`: the turns of its loop, each of which evicts
or waits, until there is enough space or an exception leaves one. -/
inductive Room where
  | enough
  | turn (world : Manager → Manager) (rest : Room)
  | throws (world : Manager → Manager) (what : String)

/-- `swapIn` behind `decay`. With preemptive loading there are up to two calls of
`ensureEnoughSpace`, none when there is space right away; it `reads` the chunks of the elements it
has selected, `complete` when the swap has taken all of them, and reorders the ring. The chunk
`arrives` in `waitForSwapin`. Otherwise the swap loads the chunk into a new `buffer`. -/
inductive Way where
  | preemptive (rooms : List Room) (arrives reads reorders : Manager → Manager) (complete : Bool)
  | plain (room : Room) (buffer : Bool)

def Way.rooms : Way → List Room
  | preemptive rooms _ _ _ _ => rooms
  | plain room _ => [room]

/-- What `swapIn` meets: first `decay`, and `swapOut` with preemptive loading, which an exception of
the swap may leave. -/
structure Loading where
  before : Manager → Manager
  throws : Option String
  way : Way

inductive Ended where
  | returned (result : Bool)
  | threw (what : String)
  | waits (pause : Pause)
  deriving DecidableEq

/-- What one `setUse` meets: its `swapIn`, and its waits. -/
inductive Meets where
  | wait (w : Wait)
  | load (l : Loading)

inductive Call where
  | setUse (meets : List Meets)
  | unsetUse (untouch : Manager → Manager)
  | swapIn (l : Loading)

/-- Resident, or on its way to be. -/
def isThere (c : Cyclic.Chunk) : Bool := c.status.hasFlag .allocated || c.status = .swapin

/-- A call under way. -/
structure Frame where
  manager : Manager
  target : Target

namespace Frame

variable (f : Frame) (id : Nat)

def chunk : Cyclic.Chunk :=
  match f.target with
  | .registered => f.manager.chunk id
  | .copy c _ => c

/-- The chunk is written to. -/
def store (c : ManagedMemoryChunk) : Frame :=
  match f.target with
  | .registered =>
      { f with manager := { f.manager with
          chunk := Function.update f.manager.chunk id ⟨c, (f.manager.chunk id).size⟩ } }
  | .copy old loaded => { f with target := .copy ⟨c, old.size⟩ loaded }

/-- `touch`. A copy is never the chunk that `preemptiveStart` points to, and its flag is cleared
in place of the registered one. -/
def touch : Frame :=
  match f.target with
  | .registered =>
      { f with manager := { f.manager with toScheduler := f.manager.toScheduler.touch id } }
  | .copy c loaded =>
      let m := f.manager
      { manager := { m with
          toState := m.toState.touch id
          preemptiveBytes := if loaded then m.preemptiveBytes - c.size else m.preemptiveBytes
          consecutivePreemptiveTransactions :=
            if loaded then m.consecutivePreemptiveTransactions + 1 else 0 }
        target := .copy c false }

/-- The end of a section of `setUse`. -/
def critical (r : ManagedMemoryChunk × Progress) : Frame × Ended :=
  match r.2 with
  | .returned true => ((f.store id r.1).touch id, .returned true)
  | .returned false => (f.store id r.1, .returned false)
  | .paused p => (f.store id r.1, .waits p)

def after (f : Frame) (world : Manager → Manager) : Frame := { f with manager := world f.manager }

/-- `claimUsageof`. -/
def count (size : Nat) : Frame := f.after fun m => { m with memoryUsed := m.memoryUsed + size }

def ensureEnoughSpace : Room → Frame → Frame × Except String Bool
  | .enough, f => (f, .ok (isThere (f.chunk id)))
  | .turn world rest, f =>
      if isThere (f.chunk id) then (f, .ok true) else ensureEnoughSpace rest (f.after world)
  | .throws world what, f =>
      if isThere (f.chunk id) then (f, .ok true) else (f.after world, .error what)

/-- The calls of `ensureEnoughSpace`, up to one that finds the chunk there. -/
def makeRoom : List Room → Frame → Frame × Except String Bool
  | [], f => (f, .ok false)
  | room :: rooms, f =>
      match f.ensureEnoughSpace id room with
      | (f, .ok false) => makeRoom rooms f
      | r => r

/-- `if ( counterActive->chunk->status == MEM_SWAPPED ) counterActive = active;` -/
def leaveSwapped : Frame :=
  f.after fun m =>
    match m.counterActive with
    | some c => if m.status c = .swapped then { m with counterActive := m.active } else m
    | none => m

/-- Someone else has put the chunk on its way. -/
def found : Way → Frame
  | .preemptive _ arrives _ _ _ =>
      if (f.chunk id).status = .swapin then f.after arrives else f
  | .plain _ _ => f

/-- `swapIn` once there is space. -/
def read : Way → Frame × Ended
  | .preemptive _ _ reads reorders complete =>
      let f := f.after reads
      if !complete && !isThere (f.chunk id) then (f, .threw "managedSwap failed to swap in :-(")
      else (((f.after reorders).touch id).leaveSwapped, .returned true)
  | .plain _ buffer =>
      let size := (f.chunk id).size
      if buffer then
        let loaded := f.store id { f.chunk id with status := .swapin }
        (((loaded.count size).touch id).leaveSwapped, .returned true)
      else if size = 0 then ((f.touch id).leaveSwapped, .returned true)
      else (f, .threw "Could not swap in an element.")

/-- `swapIn` of a chunk that is neither resident nor on its way. -/
def load (l : Loading) : Frame × Ended :=
  let f := f.after l.before
  match l.throws with
  | some what => (f, .threw what)
  | none =>
      match f.makeRoom id l.way.rooms with
      | (f, .error what) => (f, .threw what)
      | (f, .ok true) => (f.found id l.way, .returned true)
      | (f, .ok false) => f.read id l.way

def swapIn (l : Loading) : Frame × Ended :=
  if isThere (f.chunk id) then (f, .returned true) else f.load id l

/-- While a call waits, transfers of a copy that the swap was given complete on the copy. -/
def wait (w : Wait) : Frame :=
  match f.target with
  | .registered => { f with manager := w.world f.manager }
  | .copy c loaded =>
      { manager := w.world f.manager
        target := .copy ⟨w.own.foldl (fun c e => (e.apply c).getD c) c.toManagedMemoryChunk, c.size⟩
          loaded }

/-- `setUse` from a wait on. -/
def useFrom (id : Nat) : List Meets → Frame × Ended → Frame × Ended
  | .load l :: meets, (f, .waits .swapIn) =>
      match f.swapIn id l with
      | (f, .returned result) =>
          useFrom id meets (f.critical id (resumeUse (f.chunk id).toManagedMemoryChunk false .swapIn
            result))
      | r => r
  | .wait w :: meets, (f, .waits p) =>
      useFrom id meets ((f.wait w).critical id
        (resumeUse ((f.wait w).chunk id).toManagedMemoryChunk false p true))
  | _, r => r

def setUse (meets : List Meets) : Frame × Ended :=
  useFrom id meets (f.critical id (Rambrain.setUse (f.chunk id).toManagedMemoryChunk false))

def unsetUse (untouch : Manager → Manager) : Frame × Ended :=
  match Rambrain.unsetUse (f.chunk id).toManagedMemoryChunk 1 with
  | .ok c =>
      let f := f.store id c
      ({ f with manager := untouch f.manager }, .returned true)
  | .error e => (f, .threw e.what)

def call : Call → Frame × Ended
  | .setUse meets => f.setUse id meets
  | .unsetUse untouch => f.unsetUse id untouch
  | .swapIn l => f.swapIn id l

end Frame

/-- The functions that take the chunk itself, one after the other. -/
def byReference (id : Nat) : List Call → Manager → Manager × List Ended
  | [], m => (m, [])
  | c :: calls, m =>
      let r := Frame.call ⟨m, .registered⟩ id c
      let rest := byReference id calls r.1.manager
      (rest.1, r.2 :: rest.2)

/-- The functions that take the id: each call has a copy of its own. -/
def byId (id : Nat) : List Call → Manager → Manager × List Ended
  | [], m => (m, [])
  | c :: calls, m =>
      let r := Frame.call ⟨m, .copy (m.chunk id) (m.preemptiveLoaded id)⟩ id c
      let rest := byId id calls r.1.manager
      (rest.1, r.2 :: rest.2)

/-! ### The use counter -/

/-- What happens to the manager changes neither the use counter of the chunk nor its size. -/
structure KeepsUse (id : Nat) (world : Manager → Manager) : Prop where
  useCnt : ∀ m, ((world m).chunk id).useCnt = (m.chunk id).useCnt
  size : ∀ m, ((world m).chunk id).size = (m.chunk id).size

theorem KeepsUse.id_world (id : Nat) : KeepsUse id fun m => m := ⟨fun _ => rfl, fun _ => rfl⟩

def Room.KeepsUse (id : Nat) : Room → Prop
  | .enough => True
  | .turn world rest => IdInterface.KeepsUse id world ∧ rest.KeepsUse id
  | .throws world _ => IdInterface.KeepsUse id world

def Way.KeepsUse (id : Nat) : Way → Prop
  | .preemptive rooms arrives reads reorders _ =>
      (∀ room ∈ rooms, room.KeepsUse id) ∧ IdInterface.KeepsUse id arrives ∧
        IdInterface.KeepsUse id reads ∧ IdInterface.KeepsUse id reorders
  | .plain room _ => room.KeepsUse id

def Loading.KeepsUse (id : Nat) (l : Loading) : Prop :=
  IdInterface.KeepsUse id l.before ∧ l.way.KeepsUse id

def Meets.KeepsUse (id : Nat) : Meets → Prop
  | .wait w => IdInterface.KeepsUse id w.world
  | .load l => l.KeepsUse id

def Call.KeepsUse (id : Nat) : Call → Prop
  | .setUse meets => ∀ x ∈ meets, x.KeepsUse id
  | .unsetUse untouch => IdInterface.KeepsUse id untouch
  | .swapIn l => l.KeepsUse id

variable {f g : Frame} {id : Nat}

/-- The use counter of the registered chunk. -/
def Frame.useCnt (f : Frame) (id : Nat) : UInt16 := (f.manager.chunk id).useCnt

def Frame.isCopy (f : Frame) : Bool :=
  match f.target with
  | .registered => false
  | .copy _ _ => true

theorem chunk_of_registered (registered : f.isCopy = false) : f.chunk id = f.manager.chunk id := by
  obtain ⟨m, target⟩ := f
  cases target with
  | registered => rfl
  | copy c loaded => cases registered

theorem store_useCnt (f : Frame) (c : ManagedMemoryChunk) :
    (f.store id c).isCopy = f.isCopy ∧
      (f.store id c).useCnt id = if f.isCopy then f.useCnt id else c.useCnt := by
  obtain ⟨m, target⟩ := f
  cases target with
  | registered => exact ⟨rfl, by simp [Frame.store, Frame.useCnt, Frame.isCopy]⟩
  | copy c' loaded => exact ⟨rfl, rfl⟩

theorem touch_useCnt (f : Frame) :
    (f.touch id).isCopy = f.isCopy ∧ (f.touch id).useCnt id = f.useCnt id := by
  obtain ⟨m, target⟩ := f
  cases target with
  | registered =>
      refine ⟨rfl, ?_⟩
      simp [Frame.touch, Frame.useCnt, Eviction.Scheduler.touch]
  | copy c loaded =>
      refine ⟨rfl, ?_⟩
      simp [Frame.touch, Frame.useCnt]

theorem critical_useCnt (f : Frame) (r : ManagedMemoryChunk × Progress) :
    (f.critical id r).1.isCopy = f.isCopy ∧
      (f.critical id r).1.useCnt id = if f.isCopy then f.useCnt id else r.1.useCnt := by
  obtain ⟨copy, count⟩ := @store_useCnt id f r.1
  unfold Frame.critical
  split
  · obtain ⟨copy', count'⟩ := @touch_useCnt id (f.store id r.1)
    exact ⟨copy'.trans copy, count'.trans count⟩
  · exact ⟨copy, count⟩
  · exact ⟨copy, count⟩

/-- Between two sections a call keeps the counter, whichever chunk it has been given. -/
def Keeps (id : Nat) (f g : Frame) : Prop := g.isCopy = f.isCopy ∧ g.useCnt id = f.useCnt id

theorem Keeps.trans {h : Frame} (first : Keeps id f g) (second : Keeps id g h) : Keeps id f h :=
  ⟨second.1.trans first.1, second.2.trans first.2⟩

theorem keeps_after (f : Frame) {world : Manager → Manager} (keeps : KeepsUse id world) :
    Keeps id f (f.after world) := ⟨rfl, keeps.useCnt f.manager⟩

theorem keeps_count (f : Frame) (size : Nat) : Keeps id f (f.count size) := ⟨rfl, rfl⟩

theorem keeps_wait {w : Wait} (keeps : KeepsUse id w.world) : Keeps id f (f.wait w) := by
  obtain ⟨m, target⟩ := f
  cases target with
  | registered => exact ⟨rfl, keeps.useCnt m⟩
  | copy c loaded => exact ⟨rfl, keeps.useCnt m⟩

theorem keeps_leaveSwapped (f : Frame) : Keeps id f f.leaveSwapped := by
  refine ⟨rfl, ?_⟩
  simp only [Frame.leaveSwapped, Frame.after, Frame.useCnt]
  split
  · split_ifs <;> rfl
  · rfl

theorem keeps_ensureEnoughSpace {room : Room} :
    ∀ {f : Frame}, room.KeepsUse id → Keeps id f (f.ensureEnoughSpace id room).1 := by
  induction room with
  | enough =>
      intro f _
      exact ⟨rfl, rfl⟩
  | turn world rest ih =>
      rintro f ⟨here, later⟩
      rw [Frame.ensureEnoughSpace]
      split_ifs
      · exact ⟨rfl, rfl⟩
      · exact (keeps_after f here).trans (ih later)
  | throws world what =>
      intro f here
      rw [Frame.ensureEnoughSpace]
      split_ifs
      · exact ⟨rfl, rfl⟩
      · exact keeps_after f here

theorem keeps_makeRoom {rooms : List Room} :
    ∀ {f : Frame}, (∀ room ∈ rooms, room.KeepsUse id) → Keeps id f (f.makeRoom id rooms).1 := by
  induction rooms with
  | nil =>
      intro f _
      exact ⟨rfl, rfl⟩
  | cons room rooms ih =>
      intro f keeps
      have here := keeps_ensureEnoughSpace (f := f) (keeps room List.mem_cons_self)
      rw [Frame.makeRoom]
      split
      · rename_i g is
        rw [is] at here
        exact here.trans (ih fun r mem => keeps r (List.mem_cons_of_mem room mem))
      · exact here

theorem keeps_found {way : Way} (keeps : way.KeepsUse id) : Keeps id f (f.found id way) := by
  cases way with
  | plain room buffer => exact ⟨rfl, rfl⟩
  | preemptive rooms arrives reads reorders complete =>
      rw [Frame.found]
      split_ifs
      · exact keeps_after f keeps.2.1
      · exact ⟨rfl, rfl⟩

/-- What the swap stores in the chunk leaves its counter alone. -/
theorem keeps_store (f : Frame) {c : ManagedMemoryChunk} (same : c.useCnt = (f.chunk id).useCnt) :
    Keeps id f (f.store id c) := by
  obtain ⟨copy, count⟩ := @store_useCnt id f c
  refine ⟨copy, count.trans ?_⟩
  by_cases isCopy : f.isCopy
  · rw [if_pos isCopy]
  · rw [if_neg isCopy, same, chunk_of_registered (Bool.eq_false_iff.mpr isCopy)]
    rfl

theorem keeps_read {way : Way} (keeps : way.KeepsUse id) : Keeps id f (f.read id way).1 := by
  cases way with
  | preemptive rooms arrives reads reorders complete =>
      obtain ⟨-, -, reading, reordering⟩ := keeps
      have first := keeps_after f reading
      rw [Frame.read]
      split
      · exact first
      · exact ((first.trans (keeps_after _ reordering)).trans (touch_useCnt _)).trans
          (keeps_leaveSwapped _)
  | plain room buffer =>
      rw [Frame.read]
      split_ifs
      · have stored := keeps_store f
          (show ManagedMemoryChunk.useCnt { f.chunk id with status := .swapin } = _ from rfl)
        have counted := stored.trans (keeps_count _ (f.chunk id).size)
        exact (counted.trans (touch_useCnt _)).trans (keeps_leaveSwapped _)
      · exact Keeps.trans (touch_useCnt f) (keeps_leaveSwapped _)
      · exact ⟨rfl, rfl⟩

theorem keeps_swapIn {l : Loading} (keeps : l.KeepsUse id) : Keeps id f (f.swapIn id l).1 := by
  obtain ⟨before, way⟩ := keeps
  have first := keeps_after f before
  unfold Frame.swapIn
  split_ifs
  · exact ⟨rfl, rfl⟩
  · unfold Frame.load
    dsimp only
    split
    · exact first
    · have rooms : ∀ room ∈ l.way.rooms, room.KeepsUse id := by
        cases is : l.way with
        | preemptive rooms arrives reads reorders complete =>
            rw [is] at way
            exact way.1
        | plain room buffer =>
            rw [is] at way
            intro r mem
            obtain rfl := List.mem_singleton.mp mem
            exact way
      have room := first.trans (keeps_makeRoom (f := f.after l.before) rooms)
      split
      · rename_i g what is
        rw [is] at room
        exact room
      · rename_i g is
        rw [is] at room
        exact room.trans (keeps_found way)
      · rename_i g is
        rw [is] at room
        exact room.trans (keeps_read way)

theorem keeps_resume (f : Frame) (p : Pause) (result : Bool) :
    Keeps id f (f.critical id
      (resumeUse (f.chunk id).toManagedMemoryChunk false p result)).1 := by
  obtain ⟨copy, count⟩ := @critical_useCnt id f
    (resumeUse (f.chunk id).toManagedMemoryChunk false p result)
  refine ⟨copy, count.trans ?_⟩
  by_cases isCopy : f.isCopy
  · rw [if_pos isCopy]
  · rw [if_neg isCopy, resumeUse_useCnt, chunk_of_registered (Bool.eq_false_iff.mpr isCopy)]
    rfl

theorem keeps_useFrom (meets : List Meets) :
    ∀ {f : Frame} {e : Ended}, (∀ x ∈ meets, x.KeepsUse id) →
      Keeps id f (Frame.useFrom id meets (f, e)).1 := by
  induction meets with
  | nil =>
      intro f e _
      exact ⟨rfl, rfl⟩
  | cons x meets ih =>
      intro f e keeps
      have rest : ∀ y ∈ meets, y.KeepsUse id := fun y mem =>
        keeps y (List.mem_cons_of_mem x mem)
      have here := keeps x List.mem_cons_self
      cases e with
      | returned result => cases x <;> exact ⟨rfl, rfl⟩
      | threw what => cases x <;> exact ⟨rfl, rfl⟩
      | waits p =>
          cases x with
          | wait w => exact (keeps_wait here).trans ((keeps_resume _ p true).trans (ih rest))
          | load l =>
              cases p with
              | swapIn =>
                  have loaded : Keeps id f (f.swapIn id l).1 := keeps_swapIn here
                  rw [Frame.useFrom]
                  cases is : f.swapIn id l with
                  | mk g ended =>
                      rw [is] at loaded
                      cases ended with
                      | returned result =>
                          exact loaded.trans ((keeps_resume g .swapIn result).trans (ih rest))
                      | threw what => exact loaded
                      | waits p => exact loaded
              | waitForSwapout => exact ⟨rfl, rfl⟩
              | waitForSwapin => exact ⟨rfl, rfl⟩

/-- `setUse` raises the counter of the chunk it has been given, whatever it meets and however it
ends. -/
theorem setUse_useCnt (f : Frame) {meets : List Meets} (keeps : ∀ x ∈ meets, x.KeepsUse id) :
    (f.setUse id meets).1.useCnt id = if f.isCopy then f.useCnt id else f.useCnt id + 1 := by
  obtain ⟨_, count⟩ := @critical_useCnt id f
    (Rambrain.setUse (f.chunk id).toManagedMemoryChunk false)
  rw [(setUse_cases _ false).1] at count
  refine (keeps_useFrom meets keeps).2.trans (count.trans ?_)
  by_cases isCopy : f.isCopy
  · rw [if_pos isCopy, if_pos isCopy]
  · rw [if_neg isCopy, if_neg isCopy, chunk_of_registered (Bool.eq_false_iff.mpr isCopy)]
    rfl

theorem swapIn_there {f : Frame} {l : Loading}
    (there : isThere (f.chunk id) = true) :
    f.swapIn id l = (f, .returned true) := if_pos there

theorem unsetUse_unused (f : Frame) (untouch : Manager → Manager)
    (unused : (f.chunk id).useCnt = 0) :
    f.unsetUse id untouch = (f, .threw "Can not unset use of not used memory") := by
  have throws : Rambrain.unsetUse (f.chunk id).toManagedMemoryChunk 1 =
      .error ⟨"Can not unset use of not used memory"⟩ := by
    simp [Rambrain.unsetUse, unused]
  rw [Frame.unsetUse, throws]

/-- `unsetUse` of a chunk in use lowers the counter of the chunk it has been given. -/
theorem unsetUse_used (f : Frame) {untouch : Manager → Manager} (keeps : KeepsUse id untouch)
    (used : (f.chunk id).useCnt ≠ 0) :
    ((f.unsetUse id untouch).1.useCnt id).toNat =
      if f.isCopy then (f.useCnt id).toNat else (f.useCnt id).toNat - 1 := by
  cases is : Rambrain.unsetUse (f.chunk id).toManagedMemoryChunk 1 with
  | error e =>
      have positive : 0 < (f.chunk id).useCnt.toNat :=
        Nat.pos_of_ne_zero fun zero => used (UInt16.toNat_inj.mp zero)
      rcases (unsetUse_error_iff _ 1).mp ⟨e, is⟩ with zero | less
      · cases zero
      · have one : (1 : UInt32).toNat = 1 := rfl
        omega
  | ok c =>
      obtain ⟨_, _, count, _⟩ := unsetUse_ok is
      obtain ⟨_, stored⟩ := @store_useCnt id f c
      rw [Frame.unsetUse, is]
      have kept : (untouch (f.store id c).manager).chunk id = _ := rfl
      show (((untouch (f.store id c).manager).chunk id).useCnt).toNat = _
      rw [keeps.useCnt]
      show ((f.store id c).useCnt id).toNat = _
      rw [stored]
      by_cases isCopy : f.isCopy
      · rw [if_pos isCopy, if_pos isCopy]
      · rw [if_neg isCopy, if_neg isCopy, count, chunk_of_registered (Bool.eq_false_iff.mpr isCopy)]
        rfl

theorem call_useCnt_of_copy (isCopy : f.isCopy = true) {c : Call} (keeps : c.KeepsUse id) :
    (f.call id c).1.useCnt id = f.useCnt id := by
  cases c with
  | setUse meets =>
      have count := setUse_useCnt f keeps
      rw [if_pos isCopy] at count
      exact count
  | unsetUse untouch =>
      by_cases unused : (f.chunk id).useCnt = 0
      · rw [Frame.call, unsetUse_unused f untouch unused]
      · have count := unsetUse_used f keeps unused
        rw [if_pos isCopy] at count
        exact UInt16.toNat_inj.mp count
  | swapIn l => exact (keeps_swapIn keeps).2

/-- No sequence of calls by id takes or releases a use of the registered chunk. -/
theorem byId_useCnt (calls : List Call) {m : Manager} (keeps : ∀ c ∈ calls, c.KeepsUse id) :
    (((byId id calls m).1).chunk id).useCnt = (m.chunk id).useCnt := by
  induction calls generalizing m with
  | nil => rfl
  | cons c calls ih =>
      have first : (Frame.call ⟨m, .copy (m.chunk id) (m.preemptiveLoaded id)⟩ id c).1.useCnt id =
          (m.chunk id).useCnt := call_useCnt_of_copy rfl (keeps c List.mem_cons_self)
      exact (ih fun d mem => keeps d (List.mem_cons_of_mem c mem)).trans first

/-- The calls have the same results by id and on the chunk itself, and leave the same manager. -/
def Agrees (m : Manager) (id : Nat) (calls : List Call) : Prop :=
  byId id calls m = byReference id calls m

theorem setUse_disagrees (m : Manager) {meets : List Meets}
    (keeps : ∀ x ∈ meets, x.KeepsUse id) : ¬ Agrees m id [.setUse meets] := by
  intro agrees
  have copied : ((byId id [.setUse meets] m).1.chunk id).useCnt = (m.chunk id).useCnt :=
    byId_useCnt _ fun c mem => by
      obtain rfl := List.mem_singleton.mp mem
      exact keeps
  have direct : ((byReference id [.setUse meets] m).1.chunk id).useCnt =
      (m.chunk id).useCnt + 1 := setUse_useCnt ⟨m, .registered⟩ keeps
  rw [agrees, direct] at copied
  have one : (1 : UInt16) = 0 := add_eq_left.mp copied
  exact absurd one (by decide)

/-! ### Which calls agree -/

/-- `touch` does not tell a copy from the chunk: it is not flagged, neither there nor in the copy,
and `preemptiveStart` does not move. -/
def TouchesAlike (m : Manager) (id : Nat) (loaded : Bool) : Prop :=
  m.preemptiveLoaded id = false ∧ loaded = false ∧ m.startAfter id = m.preemptiveStart

theorem leaveSwapped_eq (f : Frame) :
    ∃ c, f.leaveSwapped = { f with manager := { f.manager with counterActive := c } } := by
  unfold Frame.leaveSwapped Frame.after
  dsimp only
  split
  · split_ifs
    · exact ⟨_, rfl⟩
    · exact ⟨_, rfl⟩
  · exact ⟨_, rfl⟩

theorem touch_alike (m : Manager) (id : Nat) (c : Cyclic.Chunk) (loaded : Bool) :
    (Frame.touch ⟨m, .copy c loaded⟩ id).leaveSwapped.manager =
        (Frame.touch ⟨m, .registered⟩ id).leaveSwapped.manager ↔
      TouchesAlike m id loaded := by
  constructor
  · intro same
    obtain ⟨b, copied⟩ := leaveSwapped_eq (Frame.touch ⟨m, .copy c loaded⟩ id)
    obtain ⟨b', registered⟩ := leaveSwapped_eq (Frame.touch ⟨m, .registered⟩ id)
    rw [copied, registered] at same
    have flags := congrArg (fun m : Manager => m.preemptiveLoaded id) same
    have count := congrArg (fun m : Manager => m.consecutivePreemptiveTransactions) same
    have start := congrArg (fun m : Manager => m.preemptiveStart) same
    cases flag : m.preemptiveLoaded id with
    | true => simp [Frame.touch, Eviction.Scheduler.touch, Eviction.State.unflag, flag] at flags
    | false =>
        cases loaded with
        | true => simp [Frame.touch, Eviction.Scheduler.touch, flag] at count
        | false =>
            refine ⟨flag, rfl, ?_⟩
            simpa [Frame.touch, Eviction.Scheduler.touch, flag] using start.symm
  · rintro ⟨flag, rfl, start⟩
    have same : (Frame.touch ⟨m, .copy c false⟩ id).manager =
        (Frame.touch ⟨m, .registered⟩ id).manager := by
      simp [Frame.touch, Eviction.Scheduler.touch, flag, start]
    simp only [Frame.leaveSwapped, Frame.after, same]

/-- Once there is space, nothing is done to the chunk that was given, and `touch` does not tell it
from the chunk. A chunk without bytes counts as loaded also when there is no buffer. -/
def Way.AgreesIn (w : Manager) (id : Nat) (loaded : Bool) : Way → Prop
  | .preemptive _ _ reads reorders complete =>
      if complete then TouchesAlike (reorders (reads w)) id loaded
      else isThere ((reads w).chunk id) = false
  | .plain _ buffer => buffer = false ∧ ((w.chunk id).size = 0 → TouchesAlike w id loaded)

/-- A `swapIn` with something to load, which an exception leaves before it has space, or which does
not find the chunk put on its way meanwhile and loads it, if it does, for both. -/
def Loading.AgreesIn (l : Loading) (m : Manager) (id : Nat) : Prop :=
  l.throws = none →
    match Frame.makeRoom id l.way.rooms ⟨l.before m, .registered⟩ with
    | (_, .error _) => True
    | (_, .ok true) => False
    | (f, .ok false) => l.way.AgreesIn f.manager id (m.preemptiveLoaded id)

def Call.AgreesIn (m : Manager) (id : Nat) : Call → Prop
  | .setUse _ => False
  | .unsetUse _ => (m.chunk id).useCnt = 0
  | .swapIn l => isThere (m.chunk id) = true ∨ l.AgreesIn m id

/-- While the call on the chunk itself makes room, the chunk is put on its way by someone else. The
call returns then, and the call by id goes on with the rest of what it meets. -/
def Call.Overtaken (m : Manager) (id : Nat) : Call → Prop
  | .swapIn l =>
      isThere (m.chunk id) = false ∧ l.throws = none ∧
        (Frame.makeRoom id l.way.rooms ⟨l.before m, .registered⟩).2 = .ok true
  | _ => False

/-- Every call of the sequence agrees in the state it meets. -/
def AllAgree (id : Nat) : List Call → Manager → Prop
  | [], _ => True
  | c :: calls, m =>
      c.AgreesIn m id ∧ AllAgree id calls (Frame.call ⟨m, .registered⟩ id c).1.manager

/-- No call of the sequence is overtaken. -/
def Undisturbed (id : Nat) : List Call → Manager → Prop
  | [], _ => True
  | c :: calls, m =>
      ¬ c.Overtaken m id ∧ Undisturbed id calls (Frame.call ⟨m, .registered⟩ id c).1.manager

theorem agrees_singleton (m : Manager) (id : Nat) (c : Call) :
    Agrees m id [c] ↔
      (Frame.call ⟨m, .copy (m.chunk id) (m.preemptiveLoaded id)⟩ id c).1.manager =
          (Frame.call ⟨m, .registered⟩ id c).1.manager ∧
        (Frame.call ⟨m, .copy (m.chunk id) (m.preemptiveLoaded id)⟩ id c).2 =
          (Frame.call ⟨m, .registered⟩ id c).2 := by
  simp [Agrees, byId, byReference]

theorem unsetUse_agrees_iff (m : Manager) {untouch : Manager → Manager}
    (keeps : KeepsUse id untouch) :
    Agrees m id [.unsetUse untouch] ↔ (m.chunk id).useCnt = 0 := by
  constructor
  · intro agrees
    by_contra used
    have copied : ((byId id [.unsetUse untouch] m).1.chunk id).useCnt = (m.chunk id).useCnt :=
      byId_useCnt _ fun c mem => by
        obtain rfl := List.mem_singleton.mp mem
        exact keeps
    have direct : ((byReference id [.unsetUse untouch] m).1.chunk id).useCnt.toNat =
        (m.chunk id).useCnt.toNat - 1 := unsetUse_used ⟨m, .registered⟩ keeps used
    rw [← agrees, copied] at direct
    have positive : 0 < (m.chunk id).useCnt.toNat :=
      Nat.pos_of_ne_zero fun zero => used (UInt16.toNat_inj.mp zero)
    omega
  · intro unused
    have copy : (Frame.chunk ⟨m, .copy (m.chunk id) (m.preemptiveLoaded id)⟩ id).useCnt = 0 :=
      unused
    have registered : (Frame.chunk ⟨m, .registered⟩ id).useCnt = 0 := unused
    simp only [Agrees, byId, byReference, Frame.call]
    rw [unsetUse_unused _ untouch copy, unsetUse_unused _ untouch registered]

/-- Both calls make room in the same turns, unless the chunk itself is found there. -/
theorem ensureEnoughSpace_alike {c : Cyclic.Chunk} (away : isThere c = false) (loaded : Bool)
    {room : Room} : ∀ m : Manager, room.KeepsUse id →
      ∃ w e, Frame.ensureEnoughSpace id room ⟨m, .registered⟩ = (⟨w, .registered⟩, e) ∧
        (e ≠ .ok true → (w.chunk id).size = (m.chunk id).size ∧
          Frame.ensureEnoughSpace id room ⟨m, .copy c loaded⟩ = (⟨w, .copy c loaded⟩, e)) ∧
        (e = .ok false → isThere (w.chunk id) = false) := by
  induction room with
  | enough =>
      intro m _
      refine ⟨m, _, rfl, fun differs => ⟨rfl, ?_⟩, fun is => Except.ok.inj is⟩
      cases there : isThere (m.chunk id) with
      | true => exact absurd (congrArg Except.ok there) differs
      | false => simp [Frame.ensureEnoughSpace, Frame.chunk, there, away]
  | turn world rest ih =>
      rintro m ⟨here, later⟩
      cases there : isThere (m.chunk id) with
      | true =>
          exact ⟨m, .ok true, if_pos there, fun differs => absurd rfl differs,
            fun is => by cases is⟩
      | false =>
          obtain ⟨w, e, registered, alike, notThere⟩ := ih (world m) later
          refine ⟨w, e, ?_, fun differs => ?_, notThere⟩
          · simp only [Frame.ensureEnoughSpace, Frame.chunk, there, Frame.after]
            exact registered
          · obtain ⟨size, copied⟩ := alike differs
            refine ⟨size.trans (here.size m), ?_⟩
            simp only [Frame.ensureEnoughSpace, Frame.chunk, away, Frame.after]
            exact copied
  | throws world what =>
      intro m here
      cases there : isThere (m.chunk id) with
      | true =>
          exact ⟨m, .ok true, if_pos there, fun differs => absurd rfl differs,
            fun is => by cases is⟩
      | false =>
          refine ⟨world m, .error what, ?_, fun _ => ⟨here.size m, ?_⟩, fun is => by cases is⟩
          · simp [Frame.ensureEnoughSpace, Frame.chunk, there, Frame.after]
          · simp [Frame.ensureEnoughSpace, Frame.chunk, away, Frame.after]

theorem makeRoom_alike {c : Cyclic.Chunk} (away : isThere c = false) (loaded : Bool)
    {rooms : List Room} : ∀ m : Manager, (∀ room ∈ rooms, room.KeepsUse id) →
      ∃ w e, Frame.makeRoom id rooms ⟨m, .registered⟩ = (⟨w, .registered⟩, e) ∧
        (e ≠ .ok true → (w.chunk id).size = (m.chunk id).size ∧
          Frame.makeRoom id rooms ⟨m, .copy c loaded⟩ = (⟨w, .copy c loaded⟩, e)) ∧
        (rooms ≠ [] → e = .ok false → isThere (w.chunk id) = false) := by
  induction rooms with
  | nil =>
      intro m _
      exact ⟨m, .ok false, rfl, fun _ => ⟨rfl, rfl⟩, fun nonempty => absurd rfl nonempty⟩
  | cons room rooms ih =>
      intro m keeps
      obtain ⟨w, e, registered, alike, notThere⟩ :=
        ensureEnoughSpace_alike away loaded m (keeps room List.mem_cons_self)
      cases e with
      | error what =>
          obtain ⟨size, copied⟩ := alike fun is => by cases is
          refine ⟨w, .error what, ?_, fun _ => ⟨size, ?_⟩, fun _ is => by cases is⟩
          · simp only [Frame.makeRoom, registered]
          · simp only [Frame.makeRoom, copied]
      | ok found =>
          cases found with
          | true =>
              refine ⟨w, .ok true, ?_, fun differs => absurd rfl differs, fun _ is => by cases is⟩
              simp only [Frame.makeRoom, registered]
          | false =>
              obtain ⟨size, copied⟩ := alike fun is => by cases is
              obtain ⟨u, e, registered', alike', notThere'⟩ :=
                ih w fun r mem => keeps r (List.mem_cons_of_mem room mem)
              refine ⟨u, e, ?_, fun differs => ?_, fun _ is => ?_⟩
              · simp only [Frame.makeRoom, registered, registered']
              · obtain ⟨size', copied'⟩ := alike' differs
                refine ⟨size'.trans size, ?_⟩
                simp only [Frame.makeRoom, copied, copied']
              · by_cases last : rooms = []
                · subst last
                  cases registered'
                  exact notThere rfl
                · exact notThere' last is

/-- The two calls once there is space; without preemptive loading the swap loads the copy in place
of the chunk. -/
theorem read_agrees_iff {c : Cyclic.Chunk} (away : isThere c = false) (loaded : Bool) (w : Manager)
    (size : (w.chunk id).size = c.size) {way : Way}
    (notThere : way.rooms ≠ [] → isThere (w.chunk id) = false) :
    ((Frame.read ⟨w, .copy c loaded⟩ id way).1.manager =
          (Frame.read ⟨w, .registered⟩ id way).1.manager ∧
        (Frame.read ⟨w, .copy c loaded⟩ id way).2 = (Frame.read ⟨w, .registered⟩ id way).2) ↔
      way.AgreesIn w id loaded := by
  cases way with
  | preemptive rooms arrives reads reorders complete =>
      have touches := touch_alike (reorders (reads w)) id c loaded
      cases complete with
      | true =>
          simpa [Frame.read, Frame.after, Way.AgreesIn] using touches
      | false =>
          cases there : isThere ((reads w).chunk id) <;>
            simp [Frame.read, Frame.after, Frame.chunk, Way.AgreesIn, there, away]
  | plain room buffer =>
      cases buffer with
      | true =>
          refine iff_of_false (fun same => ?_) fun agrees => by cases agrees.1
          simp only [Frame.read, if_true] at same
          obtain ⟨b, copied⟩ := leaveSwapped_eq (Frame.touch (Frame.count (Frame.store
            ⟨w, .copy c loaded⟩ id { Frame.chunk ⟨w, .copy c loaded⟩ id with status := .swapin })
            (Frame.chunk ⟨w, .copy c loaded⟩ id).size) id)
          obtain ⟨b', registered⟩ := leaveSwapped_eq (Frame.touch (Frame.count (Frame.store
            ⟨w, .registered⟩ id { Frame.chunk ⟨w, .registered⟩ id with status := .swapin })
            (Frame.chunk ⟨w, .registered⟩ id).size) id)
          rw [copied, registered] at same
          have loading := congrArg (fun m : Manager => (m.chunk id).status) same.1
          have status : (w.chunk id).status = .swapin := by
            simpa [Frame.touch, Frame.store, Frame.count, Frame.after, Frame.chunk,
              Eviction.Scheduler.touch] using loading
          have there := notThere (List.cons_ne_nil room [])
          simp [isThere, status] at there
      | false =>
          have touches := touch_alike w id c loaded
          by_cases empty : c.size = 0
          · simpa [Frame.read, Frame.chunk, Way.AgreesIn, size, empty] using touches
          · simp [Frame.read, Frame.chunk, Way.AgreesIn, size, empty]

theorem Way.keeps_rooms {way : Way} (keeps : way.KeepsUse id) :
    ∀ room ∈ way.rooms, room.KeepsUse id := by
  cases way with
  | preemptive rooms arrives reads reorders complete => exact keeps.1
  | plain room buffer =>
      intro r mem
      obtain rfl := List.mem_singleton.mp mem
      exact keeps

theorem swapIn_agrees_iff (m : Manager) {l : Loading} (keeps : l.KeepsUse id)
    (alone : ¬ (Call.swapIn l).Overtaken m id) :
    Agrees m id [.swapIn l] ↔ isThere (m.chunk id) = true ∨ l.AgreesIn m id := by
  rw [agrees_singleton]
  simp only [Frame.call]
  cases there : isThere (m.chunk id) with
  | true =>
      rw [@swapIn_there id ⟨m, .copy (m.chunk id) (m.preemptiveLoaded id)⟩ l there,
        @swapIn_there id ⟨m, .registered⟩ l there]
      simp
  | false =>
      have byCopy : Frame.swapIn ⟨m, .copy (m.chunk id) (m.preemptiveLoaded id)⟩ id l =
          Frame.load ⟨m, .copy (m.chunk id) (m.preemptiveLoaded id)⟩ id l :=
        if_neg (Bool.eq_false_iff.mp there)
      have byChunk : Frame.swapIn ⟨m, .registered⟩ id l = Frame.load ⟨m, .registered⟩ id l :=
        if_neg (Bool.eq_false_iff.mp there)
      rw [byCopy, byChunk]
      simp only [Bool.false_eq_true, false_or, Frame.load, Frame.after, Loading.AgreesIn]
      cases thrown : l.throws with
      | some what => simp
      | none =>
          obtain ⟨w, e, registered, alike, notThere⟩ := makeRoom_alike there
            (m.preemptiveLoaded id) (l.before m) (Way.keeps_rooms keeps.2)
          have differs : e ≠ .ok true := fun is => alone ⟨there, thrown, by rw [registered, is]⟩
          obtain ⟨size, copied⟩ := alike differs
          simp only [registered, copied, true_implies]
          cases e with
          | error what => simp
          | ok found =>
              cases found with
              | true => exact absurd rfl differs
              | false =>
                  exact read_agrees_iff there _ w (size.trans (keeps.1.size m)) fun nonempty =>
                    notThere nonempty rfl

/-- Exactly which calls agree that are not overtaken. -/
theorem call_agrees_iff (m : Manager) (id : Nat) {c : Call} (keeps : c.KeepsUse id)
    (alone : ¬ c.Overtaken m id) : Agrees m id [c] ↔ c.AgreesIn m id := by
  cases c with
  | setUse meets => exact iff_of_false (setUse_disagrees m keeps) fun agrees => agrees
  | unsetUse untouch => exact unsetUse_agrees_iff m keeps
  | swapIn l => exact swapIn_agrees_iff m keeps alone

theorem not_overtaken {m : Manager} {c : Call} (agrees : c.AgreesIn m id) :
    ¬ c.Overtaken m id := by
  cases c with
  | setUse meets => exact fun overtaken => overtaken
  | unsetUse untouch => exact fun overtaken => overtaken
  | swapIn l =>
      rintro ⟨away, goesOn, found⟩
      rcases agrees with there | agrees
      · rw [away] at there
        cases there
      · replace agrees := agrees goesOn
        split at agrees
        · rename_i is
          rw [is] at found
          cases found
        · exact agrees
        · rename_i is
          rw [is] at found
          cases found

theorem undisturbed_of_allAgree (calls : List Call) : ∀ {m : Manager}, AllAgree id calls m →
    Undisturbed id calls m := by
  induction calls with
  | nil => exact fun _ => trivial
  | cons c calls ih => exact fun ⟨here, later⟩ => ⟨not_overtaken here, ih later⟩

theorem agree_iff_of_undisturbed (calls : List Call) : ∀ {m : Manager},
    (∀ c ∈ calls, c.KeepsUse id) → Undisturbed id calls m →
    ((∀ n, byId id (calls.take n) m = byReference id (calls.take n) m) ↔
      AllAgree id calls m) := by
  induction calls with
  | nil => exact fun _ _ => ⟨fun _ => trivial, fun _ n => by rw [List.take_nil]; rfl⟩
  | cons c calls ih =>
      rintro m keeps ⟨alone, undisturbed⟩
      have first := call_agrees_iff m id (keeps c List.mem_cons_self) alone
      have rest := ih (fun d mem => keeps d (List.mem_cons_of_mem c mem)) undisturbed
      rw [agrees_singleton] at first
      constructor
      · intro agree
        have one := (agrees_singleton m id c).mp (agree 1)
        refine ⟨first.mp one, rest.mp fun n => ?_⟩
        have more := agree (n + 1)
        simp only [List.take_succ_cons, byId, byReference, one.1] at more
        obtain ⟨manager, results⟩ := Prod.ext_iff.mp more
        exact Prod.ext manager (List.cons.inj results).2
      · rintro ⟨here, later⟩ n
        obtain ⟨manager, result⟩ := first.mpr here
        cases n with
        | zero => rfl
        | succ n =>
            have tail := rest.mpr later n
            simp only [List.take_succ_cons, byId, byReference]
            rw [manager, result, tail]

/-- A sequence of calls agrees call by call when it has no `setUse`, no `unsetUse` of the chunk in
use, and no `swapIn` that loads the copy in place of the chunk. If no `swapIn` is overtaken, it
agrees only then. -/
theorem agree_iff (m : Manager) (id : Nat) (calls : List Call)
    (keeps : ∀ c ∈ calls, c.KeepsUse id) :
    (AllAgree id calls m →
      ∀ n, byId id (calls.take n) m = byReference id (calls.take n) m) ∧
    (Undisturbed id calls m →
      (∀ n, byId id (calls.take n) m = byReference id (calls.take n) m) → AllAgree id calls m) :=
  ⟨fun all => (agree_iff_of_undisturbed calls keeps (undisturbed_of_allAgree calls all)).mpr all,
    fun alone => (agree_iff_of_undisturbed calls keeps alone).mp⟩

/-- A stored chunk of 8 bytes in no use. -/
def storedChunk : Manager :=
  { EnoughSpace.writing with
    chunk := fun _ => ⟨⟨.swapped, 0⟩, 8⟩
    memoryUsed := 0
    memoryTobefreed := 0 }

/-- A `swapIn` that waits for room and then gets no buffer, and a release of the chunk, are errors
on both sides. -/
theorem agree_iff_storedChunk :
    let calls : List Call :=
      [.swapIn ⟨fun m => m, none, .plain (.turn (fun m => m) .enough) false⟩, .unsetUse fun m => m]
    ∀ n, byId 1 (calls.take n) storedChunk = byReference 1 (calls.take n) storedChunk := by
  refine (agree_iff storedChunk 1 _ fun c mem => ?_).1
    ⟨.inr fun _ => ⟨rfl, fun empty => by cases empty⟩, rfl, trivial⟩
  rcases List.mem_pair.mp mem with rfl | rfl
  · exact ⟨.id_world 1, .id_world 1, trivial⟩
  · exact .id_world 1

/-- Another thread has the chunk loaded. -/
def loadElsewhere (m : Manager) : Manager :=
  { m with
    chunk := Function.update m.chunk 1 { m.chunk 1 with status := .swapin }
    memoryUsed := m.memoryUsed + (m.chunk 1).size }

/-- When another thread loads the chunk while `swapIn` waits for room, the call by id does not see
it: it loads the copy, and the bytes are counted again. -/
theorem overtaken_counts_again :
    let calls : List Call :=
      [.swapIn ⟨fun m => m, none, .plain (.turn loadElsewhere .enough) true⟩]
    (byReference 1 calls storedChunk).2 = [.returned true] ∧
      (byReference 1 calls storedChunk).1.memoryUsed = 8 ∧
      (byId 1 calls storedChunk).2 = [.returned true] ∧
      (byId 1 calls storedChunk).1.memoryUsed = 16 := ⟨rfl, rfl, rfl, rfl⟩

/-- A resident chunk of 8 bytes in no use. -/
def idle : Manager :=
  { EnoughSpace.writing with
    chunk := fun _ => ⟨⟨.allocated, 0⟩, 8⟩
    memoryTobefreed := 0 }

/-- By id the chunk is not pinned; on the chunk itself it is. -/
theorem setUse_by_id_differs : ¬ ∀ (m : Manager) (id : Nat) (calls : List Call),
    (∀ c ∈ calls, c.KeepsUse id) → byId id calls m = byReference id calls m := by
  intro claim
  have same := claim idle 1 [.setUse []] fun c mem => by
    obtain rfl := List.mem_singleton.mp mem
    exact fun x mem => absurd mem List.not_mem_nil
  have counts := congrArg (fun r => (r.1.chunk 1).useCnt) same
  have zero : (0 : UInt16) = 1 := counts
  exact absurd zero (by decide)

end Rambrain.IdInterface
