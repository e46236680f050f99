import Rambrain.WriteStatus
import Rambrain.Lib.Run
import Rambrain.Lib.Table

/-!
Reading through `adhereTo` objects (`managedPtr.h`).

A const pointer is pulled with `setUse ( false )`, so reading leaves a chunk out of
`MEM_ALLOCATED_INUSE_WRITE` and its copy on disk valid. The copy constructor and the assignment
of `adhereTo` take the uses of the other object anew and pass each flag as the access mode:
`data->setUse ( loadedReadable )`. A copy of an object that has pulled a const pointer therefore
writes (`copied_read_writes`); reading is read-only as long as no such object is copied
(`read_only_clean`).

A call of the manager is one event here. What the swap does to the chunk at the waits of the call,
and whether it throws there, comes with the event.
-/

namespace Rambrain.ReadOnly

universe u v

structure State (ι : Type u) (κ : Type v) where
  /-- `data->chunk`; `none` when `data->size() == 0`. -/
  chunkOf : ι → Option Nat
  adheres : Lib.Table κ (AdhereTo ι)
  chunk : Nat → ManagedMemoryChunk
  /-- History: the calls of `invalidateCacheFor`. -/
  invalidated : Nat → Nat

/-- What a `setUse` meets where it waits. -/
structure Wait where
  events : List SwapEvent
  swapInResult : Bool
  throws : Bool

inductive Ended where
  | returned (result : Bool)
  | threw
  deriving DecidableEq

/-- The chunk after what the swap has done to it. -/
def swapped : List SwapEvent → ManagedMemoryChunk → Option ManagedMemoryChunk
  | [], c => some c
  | e :: es, c => (e.apply c).bind (swapped es)

/-- A `setUse` from the end of a section on; `none` while it waits. -/
def useFrom (writeAccess : Bool) :
    List Wait → ManagedMemoryChunk → Progress → Option (ManagedMemoryChunk × Ended)
  | _, c, .returned result => some (c, .returned result)
  | [], _, .paused _ => none
  | k :: ks, c, .paused p =>
      (swapped k.events c).bind fun c =>
        if k.throws then some (c, .threw)
        else
          useFrom writeAccess ks (resumeUse c writeAccess p k.swapInResult).1
            (resumeUse c writeAccess p k.swapInResult).2

variable {ι : Type u} {κ : Type v}

section
variable [DecidableEq κ]

namespace State

variable (s : State ι κ)

/-- `setUse ( chunk, writeAccess )`. The switch calls `invalidateCacheFor` unless it is entered
at `MEM_ALLOCATED_INUSE_WRITE`. -/
def setUse (id : Nat) (writeAccess : Bool) (ks : List Wait) : Option (State ι κ × Ended) :=
  let first := Rambrain.setUse (s.chunk id) writeAccess
  (useFrom writeAccess ks first.1 first.2).map fun r =>
    ({ s with
      chunk := Function.update s.chunk id r.1
      invalidated :=
        if writeAccess ∧ r.2 = .returned true ∧ (s.chunk id).status ≠ .allocatedInuseWrite then
          Function.update s.invalidated id (s.invalidated id + 1)
        else s.invalidated }, r.2)

def unsetUse (id : Nat) (noUnsets : UInt32) : State ι κ × Ended :=
  match Rambrain.unsetUse (s.chunk id) noUnsets with
  | .ok c => ({ s with chunk := Function.update s.chunk id c }, .returned true)
  | .error _ => (s, .threw)

/-- `if ( flag ) data->setUse ( flag )`, unless an exception is on its way. -/
def takeUse (ended : Ended) (id : Option Nat) (flag : Bool) (ks : List Wait) :
    Option (State ι κ × Ended) :=
  if ended = .threw ∨ flag = false then some (s, ended)
  else id.bind fun id => s.setUse id flag ks

/-- The end of the copy constructor and of the assignment. -/
def takeFlags (ref : AdhereTo ι) (kw kr : List Wait) : Option (State ι κ × Ended) :=
  (s.takeUse (.returned true) (s.chunkOf ref.data) ref.loadedWritable kw).bind fun r =>
    r.1.takeUse r.2 (s.chunkOf ref.data) ref.loadedReadable kr

/-- `if ( flag ) data->unsetUse()`, unless an exception is on its way. -/
def dropUse (ended : Ended) (id : Option Nat) (flag : Bool) : Option (State ι κ × Ended) :=
  if ended = .threw ∨ flag = false then some (s, ended)
  else id.map fun id => s.unsetUse id 1

def dropFlags (old : AdhereTo ι) : Option (State ι κ × Ended) :=
  (s.dropUse (.returned true) (s.chunkOf old.data) old.loadedReadable).bind fun r =>
    r.1.dropUse r.2 (s.chunkOf old.data) old.loadedWritable

/-- The conversion to a pointer sets its flag before it calls `setUse`. -/
def pull (g : κ) (a : AdhereTo ι) (writable : Bool) (ks : List Wait) : Option (State ι κ) :=
  match s.chunkOf a.data with
  | none => some s
  | some id =>
      if (if writable then a.loadedWritable else a.loadedReadable) then some s
      else
        let b := if writable then { a with loadedWritable := true }
          else { a with loadedReadable := true }
        (State.setUse { s with adheres := s.adheres.put g b } id writable ks).map (·.1)

end State

inductive Event (ι : Type u) (κ : Type v) where
  | construct (g : κ) (data : ι)
  | copy (g ref : κ) (kw kr : List Wait)
  | assign (g ref : κ) (kw kr : List Wait)
  | pull (g : κ) (writable : Bool) (ks : List Wait)
  | destroy (g : κ)
  /-- The swap changes the status of a chunk, on its own account or in `prepareUse`. -/
  | swap (id : Nat) (e : SwapEvent)

def step (s : State ι κ) : Event ι κ → Option (State ι κ)
  | .construct g data =>
      if s.adheres.get? g = none then
        some { s with adheres := s.adheres.put g ⟨data, false, false⟩ }
      else none
  | .copy g ref kw kr =>
      if s.adheres.get? g = none then
        (s.adheres.get? ref).bind fun r => (s.takeFlags r kw kr).map fun t =>
          if t.2 = .threw then t.1 else { t.1 with adheres := t.1.adheres.put g r }
      else none
  | .assign g ref kw kr =>
      (s.adheres.get? g).bind fun a => (s.adheres.get? ref).bind fun r =>
        (s.dropFlags a).bind fun t =>
          if t.2 = .threw then some t.1
          else
            (State.takeFlags { t.1 with adheres := t.1.adheres.put g r } r kw kr).map (·.1)
  | .pull g writable ks => (s.adheres.get? g).bind fun a => s.pull g a writable ks
  | .destroy g =>
      (s.adheres.get? g).bind fun a =>
        let t : State ι κ := { s with adheres := s.adheres.remove g }
        match s.chunkOf a.data with
        | none => some t
        | some id =>
            if a.loaded = 0 then some t
            else if (t.unsetUse id a.loaded.toUInt32).2 = .threw then none
            else some (t.unsetUse id a.loaded.toUInt32).1
  | .swap id e => (e.apply (s.chunk id)).map fun c =>
      { s with chunk := Function.update s.chunk id c }

end

/-! ### Reading -/

/-- No non-const pointer is pulled. -/
def Event.isRead : Event ι κ → Bool
  | .pull _ writable _ => !writable
  | _ => true

/-- No use is outstanding. -/
structure Idle [DecidableEq κ] (s : State ι κ) : Prop where
  chunk : ∀ id, (s.chunk id).useCnt = 0 ∧ (s.chunk id).status.hasFlag .allocatedInuse = false
  adheres : ∀ g a, s.adheres.get? g = some a →
    a.loadedWritable = false ∧ a.loadedReadable = false

/-- No chunk is in use for writing, and no copy on disk has been given up since `s`. -/
structure Clean (s t : State ι κ) : Prop where
  status : ∀ id, (t.chunk id).status ≠ .allocatedInuseWrite
  invalidated : t.invalidated = s.invalidated

section
variable [DecidableEq κ]

/-- The object that is copied has not pulled its const pointer. -/
def Unpulled (s : State ι κ) : Event ι κ → Prop
  | .copy _ ref _ _ => (s.adheres.get? ref).map (·.loadedReadable) ≠ some true
  | .assign _ ref _ _ => (s.adheres.get? ref).map (·.loadedReadable) ≠ some true
  | _ => True

instance (s : State ι κ) (e : Event ι κ) : Decidable (Unpulled s e) := by
  unfold Unpulled
  split <;> infer_instance

/-- What a reading run keeps. -/
structure Inv [DecidableEq κ] (s t : State ι κ) : Prop extends clean : Clean s t where
  unwritten : ∀ g a, t.adheres.get? g = some a → a.loadedWritable = false

theorem swapped_not_writing : ∀ (es : List SwapEvent) {c d : ManagedMemoryChunk},
    c.status ≠ .allocatedInuseWrite → swapped es c = some d → d.status ≠ .allocatedInuseWrite
  | [], c, d, not, is => by
      cases is
      exact not
  | e :: es, c, d, not, is => by
      obtain ⟨c', applied, rest⟩ := Option.bind_eq_some_iff.mp is
      exact swapped_not_writing es (WriteStatus.swap_not_writing applied).2 rest

/-- A `setUse` that reads does not mark the chunk as written to. -/
theorem useFrom_reads (ks : List Wait) : ∀ {c d : ManagedMemoryChunk} {p : Progress}
    {ended : Ended}, c.status ≠ .allocatedInuseWrite → useFrom false ks c p = some (d, ended) →
    d.status ≠ .allocatedInuseWrite := by
  induction ks with
  | nil =>
      intro c d p ended not is
      cases p with
      | returned result =>
          cases is
          exact not
      | paused pause => cases is
  | cons k ks ih =>
      intro c d p ended not is
      cases p with
      | returned result =>
          cases is
          exact not
      | paused pause =>
          obtain ⟨c', events, is⟩ := Option.bind_eq_some_iff.mp is
          have not' := swapped_not_writing k.events not events
          split_ifs at is with throws
          · cases is
            exact not'
          · refine ih ?_ is
            rcases resumeUse_cases c' false pause k.swapInResult with ⟨_, r⟩ | r | ⟨_, r⟩
            · rw [r]
              exact not'
            · rw [r]
              exact not'
            · rw [r, useAllocated_status]
              decide

end

variable {s t : State ι κ}

theorem Clean.update (clean : Clean s t) {id : Nat} {c : ManagedMemoryChunk}
    (not : c.status ≠ .allocatedInuseWrite) :
    Clean s { t with chunk := Function.update t.chunk id c } where
  status j := by
    by_cases same : j = id
    · subst same
      simpa using not
    · simpa [same] using clean.status j
  invalidated := clean.invalidated

theorem setUse_reads {id : Nat} {ks : List Wait} {r : State ι κ × Ended} (clean : Clean s t)
    (is : t.setUse id false ks = some r) : Clean s r.1 ∧ r.1.adheres = t.adheres := by
  obtain ⟨d, used, rfl⟩ := Option.map_eq_some_iff.mp is
  have first : (Rambrain.setUse (t.chunk id) false).1.status ≠ .allocatedInuseWrite := by
    rcases (setUse_cases (t.chunk id) false).2 with ⟨_, _, status, _⟩ | ⟨_, _, status⟩
    · rw [status]
      exact clean.status id
    · rw [status, if_neg (by decide)]
      split_ifs
      · decide
      · exact clean.status id
  refine ⟨⟨(clean.update (useFrom_reads ks first used)).status, ?_⟩, rfl⟩
  simpa using clean.invalidated

theorem unsetUse_reads (clean : Clean s t) (id : Nat) (noUnsets : UInt32) :
    Clean s (t.unsetUse id noUnsets).1 ∧ (t.unsetUse id noUnsets).1.adheres = t.adheres := by
  unfold State.unsetUse
  cases is : Rambrain.unsetUse (t.chunk id) noUnsets with
  | error err => exact ⟨clean, rfl⟩
  | ok c =>
      refine ⟨clean.update ?_, rfl⟩
      obtain ⟨_, _, _, status⟩ := unsetUse_ok is
      rw [status]
      split_ifs
      · decide
      · exact clean.status id

theorem dropUse_reads {ended : Ended} {id : Option Nat} {flag : Bool} {r : State ι κ × Ended}
    (clean : Clean s t) (is : t.dropUse ended id flag = some r) :
    Clean s r.1 ∧ r.1.adheres = t.adheres := by
  unfold State.dropUse at is
  split_ifs at is
  · cases is
    exact ⟨clean, rfl⟩
  · obtain ⟨c, _, rfl⟩ := Option.map_eq_some_iff.mp is
    exact unsetUse_reads clean c 1

theorem dropFlags_reads {old : AdhereTo ι} {r : State ι κ × Ended} (clean : Clean s t)
    (is : t.dropFlags old = some r) : Clean s r.1 ∧ r.1.adheres = t.adheres := by
  obtain ⟨u, first, second⟩ := Option.bind_eq_some_iff.mp is
  obtain ⟨cleanU, adheres⟩ := dropUse_reads clean first
  obtain ⟨cleanR, same⟩ := dropUse_reads cleanU second
  exact ⟨cleanR, same.trans adheres⟩

/-- An object without flags has no use to take. -/
theorem takeFlags_unpulled {r : AdhereTo ι} {found : Option (AdhereTo ι)} {kw kr : List Wait}
    (is : found = some r) (unpulled : found.map (·.loadedReadable) ≠ some true)
    (writable : r.loadedWritable = false) : t.takeFlags r kw kr = some (t, .returned true) := by
  subst is
  have readable : r.loadedReadable = false := by simpa using unpulled
  simp [State.takeFlags, State.takeUse, readable, writable]

section
variable [DecidableEq κ]

theorem Inv.put (h : Inv s t) {g : κ} {a : AdhereTo ι} (unwritten : a.loadedWritable = false) :
    Inv s { t with adheres := t.adheres.put g a } where
  clean := ⟨h.status, h.invalidated⟩
  unwritten g' b found := by
    rw [Lib.Table.get?_put] at found
    split_ifs at found
    · cases found
      exact unwritten
    · exact h.unwritten g' b found

theorem Inv.of_clean (h : Inv s t) {u : State ι κ} (clean : Clean s u)
    (adheres : u.adheres = t.adheres) : Inv s u :=
  ⟨clean, adheres ▸ h.unwritten⟩

theorem inv_step (h : Inv s t) {e : Event ι κ} (reads : e.isRead = true) (ok : Unpulled t e)
    {u : State ι κ} (taken : step t e = some u) : Inv s u := by
  cases e with
  | construct g data =>
      simp only [step] at taken
      split_ifs at taken
      cases taken
      exact h.put rfl
  | copy g ref kw kr =>
      simp only [step] at taken
      split_ifs at taken
      obtain ⟨r, found, taken⟩ := Option.bind_eq_some_iff.mp taken
      have unwritten := h.unwritten ref r found
      rw [takeFlags_unpulled found ok unwritten, Option.map_some, if_neg (by simp)] at taken
      cases taken
      exact h.put unwritten
  | assign g ref kw kr =>
      obtain ⟨a, _, taken⟩ := Option.bind_eq_some_iff.mp taken
      obtain ⟨r, found, taken⟩ := Option.bind_eq_some_iff.mp taken
      obtain ⟨dropped, drops, taken⟩ := Option.bind_eq_some_iff.mp taken
      obtain ⟨clean, adheres⟩ := dropFlags_reads h.clean drops
      have inv := h.of_clean clean adheres
      split_ifs at taken
      · cases taken
        exact inv
      · have unwritten := h.unwritten ref r found
        rw [takeFlags_unpulled found ok unwritten] at taken
        cases taken
        exact inv.put unwritten
  | pull g writable ks =>
      obtain rfl : writable = false := by simpa [Event.isRead] using reads
      obtain ⟨a, found, taken⟩ := Option.bind_eq_some_iff.mp taken
      unfold State.pull at taken
      cases chunk : t.chunkOf a.data with
      | none =>
          rw [chunk] at taken
          cases taken
          exact h
      | some id =>
          simp only [chunk, Bool.false_eq_true, if_false] at taken
          split_ifs at taken
          · cases taken
            exact h
          · obtain ⟨r, used, rfl⟩ := Option.map_eq_some_iff.mp taken
            have pulled := h.put (g := g)
              (show ({ a with loadedReadable := true } : AdhereTo ι).loadedWritable = false from
                h.unwritten g a found)
            obtain ⟨clean, adheres⟩ := setUse_reads pulled.clean used
            exact pulled.of_clean clean adheres
  | destroy g =>
      obtain ⟨a, _, taken⟩ := Option.bind_eq_some_iff.mp taken
      have removed : Inv s { t with adheres := t.adheres.remove g } :=
        ⟨⟨h.status, h.invalidated⟩, fun g' b found =>
          h.unwritten g' b (Lib.Table.of_get?_remove found).2⟩
      dsimp only at taken
      cases chunk : t.chunkOf a.data with
      | none =>
          rw [chunk] at taken
          cases taken
          exact removed
      | some id =>
          simp only [chunk] at taken
          split_ifs at taken
          · cases taken
            exact removed
          · cases taken
            obtain ⟨clean, adheres⟩ := unsetUse_reads removed.clean id _
            exact removed.of_clean clean adheres
  | swap id e =>
      obtain ⟨c, applied, rfl⟩ := Option.map_eq_some_iff.mp taken
      exact h.of_clean (h.clean.update (WriteStatus.swap_not_writing applied).2) rfl

/-! ### Runs -/

/-- In every run without a non-const pull, from any state without uses, in which no object that
has pulled is copied, no chunk is marked as written to and no copy on disk is given up. -/
theorem read_only_clean (es : List (Event ι κ)) (idle : Idle s)
    (reads : Lib.Along step (fun t e => e.isRead = true ∧ Unpulled t e) s es)
    (reached : Lib.run step s es = some t) : Clean s t := by
  have start : Inv s s := by
    refine ⟨⟨fun id is => ?_, rfl⟩, fun g a found => (idle.adheres g a found).1⟩
    have free := (idle.chunk id).2
    rw [is] at free
    cases free
  exact (Lib.run_invariant_of_guard (Inv s) (fun _ _ _ h ok taken => inv_step h ok.1 ok.2 taken)
    es start reads reached).clean

end

/-- One chunk, and nothing adhered to it. -/
def idleState : State Nat Nat := ⟨fun _ => some 0, .empty, fun _ => .fresh, fun _ => 0⟩

theorem idle_idleState : Idle idleState where
  chunk id := ⟨rfl, show MemoryStatus.hasFlag .allocated .allocatedInuse = false by decide⟩
  adheres g a found := by cases found

/-- The same, with the chunk written out. -/
def storedState : State Nat Nat :=
  { idleState with chunk := fun _ => { ManagedMemoryChunk.fresh with status := .swapped } }

theorem idle_storedState : Idle storedState where
  chunk id := ⟨rfl, show MemoryStatus.hasFlag .swapped .allocatedInuse = false by decide⟩
  adheres g a found := by cases found

/-- An object is copied and assigned before it pulls. The pull waits for the chunk to come in; the
copy reads too, both are destroyed, and the chunk goes out again with the copy on disk it has. -/
def copiedFirst : List (Event Nat Nat) :=
  [.construct 0 0, .copy 1 0 [] [], .assign 1 0 [] [],
    .pull 0 false [⟨[.swapIn], true, false⟩, ⟨[.complete], true, false⟩], .pull 1 false [],
    .destroy 0, .destroy 1, .swap 0 .swapOutCached]

theorem read_only_clean_copied_first :
    ∃ t, Lib.run step storedState copiedFirst = some t ∧ (t.chunk 0).status = .swapped ∧
      Clean storedState t :=
  ⟨_, rfl, rfl, read_only_clean copiedFirst idle_storedState (by decide) rfl⟩

/-- A copy of an object that has pulled its const pointer writes. -/
theorem copied_read_writes :
    ∃ (s t : State Nat Nat) (es : List (Event Nat Nat)), Idle s ∧
      (∀ e ∈ es, e.isRead = true) ∧ Lib.run step s es = some t ∧
      (t.chunk 0).status = .allocatedInuseWrite ∧ t.invalidated 0 = s.invalidated 0 + 1 := by
  refine ⟨idleState, _, [.construct 0 0, .pull 0 false [], .copy 1 0 [] []], idle_idleState,
    by decide, rfl, by decide, by decide⟩

end Rambrain.ReadOnly
