import Rambrain.Use

/-!
The status of a chunk under concurrent use.

Several threads call `setUse` and `unsetUse` on one chunk; the swap moves the chunk
in and out of RAM. A step is one section under `stateChangeMutex`: the first section
of a `setUse`, a later one after a pause, a whole `unsetUse`, or a status change made
by the swap. The states of the system are the moments at which the mutex is free.

`writeHeld` records what the documentation promises to a writer: it is set when a
`setUse` with write access returns successfully and cleared when the use count drops
to zero. The promise is broken in one way only, which `keepsWrite_iff` makes
exact: a reader whose `setUse` has waited for the chunk resumes after a writer and
overwrites the status with `MEM_ALLOCATED_INUSE_READ`.
-/

namespace Rambrain.WriteStatus

universe u

variable {θ : Type u} [DecidableEq θ]

structure State (θ : Type u) where
  chunk : ManagedMemoryChunk
  /-- The `setUse` calls that are waiting, with their access mode. -/
  calls : θ → Option (Bool × Pause)
  writeHeld : Bool

def State.init : State θ := ⟨.fresh, fun _ => none, false⟩

inductive Event (θ : Type u) where
  | setUse (t : θ) (writeAccess : Bool)
  | resume (t : θ) (swapInResult : Bool)
  | unsetUse (t : θ) (noUnsets : UInt32)
  | swap (e : SwapEvent)

/-- The state after a section of a `setUse` by thread `t`. -/
def State.afterUse (s : State θ) (t : θ) (writeAccess : Bool) :
    ManagedMemoryChunk × Progress → State θ
  | (c, .paused p) =>
      { s with chunk := c, calls := Function.update s.calls t (some (writeAccess, p)) }
  | (c, .returned result) =>
      { chunk := c
        calls := Function.update s.calls t none
        writeHeld := s.writeHeld || (writeAccess && result) }

def step (s : State θ) : Event θ → Option (State θ)
  | .setUse t w =>
      if s.calls t = none then some (s.afterUse t w (Rambrain.setUse s.chunk w)) else none
  | .resume t r =>
      (s.calls t).map fun call => s.afterUse t call.1 (resumeUse s.chunk call.1 call.2 r)
  | .unsetUse t n =>
      if s.calls t = none then
        match Rambrain.unsetUse s.chunk n with
        | .ok c => some { s with chunk := c, writeHeld := s.writeHeld && c.useCnt != 0 }
        | .error _ => some s
      else none
  | .swap e => (e.apply s.chunk).map fun c => { s with chunk := c }

/-- No read-only `setUse` that has waited goes on while the chunk is in use for
writing (it may still report that its swap-in failed). -/
def KeepsWrite (s : State θ) : Event θ → Prop
  | .resume t r =>
      match s.calls t with
      | some (false, p) => s.chunk.status = .allocatedInuseWrite → p = .swapIn ∧ r = false
      | _ => True
  | _ => True

instance (s : State θ) (e : Event θ) : Decidable (KeepsWrite s e) := by
  unfold KeepsWrite
  split
  · split <;> infer_instance
  · infer_instance

/-- The step takes the chunk from `MEM_ALLOCATED_INUSE_WRITE` to
`MEM_ALLOCATED_INUSE_READ`. -/
def Downgrades (s t : State θ) : Prop :=
  s.chunk.status = .allocatedInuseWrite ∧ t.chunk.status = .allocatedInuseRead

/-- A writer is being kept its promise, and the status says so. -/
def Inv (s : State θ) : Prop :=
  s.writeHeld = true ↔ s.chunk.status = .allocatedInuseWrite

/-! ### One section -/

@[simp] theorem afterUse_chunk (s : State θ) (t : θ) (w : Bool)
    (r : ManagedMemoryChunk × Progress) : (s.afterUse t w r).chunk = r.1 := by
  obtain ⟨c, p⟩ := r
  cases p <;> rfl

theorem afterUse_writeHeld (s : State θ) (t : θ) (w : Bool) (r : ManagedMemoryChunk × Progress) :
    (s.afterUse t w r).writeHeld = (s.writeHeld || (w && decide (r.2 = .returned true))) := by
  obtain ⟨c, p⟩ := r
  cases p with
  | paused q => simp [State.afterUse]
  | returned result => cases result <;> simp [State.afterUse]

/-- Once a waiting call finds the chunk in use for writing, it is granted unless its
swap-in has failed. -/
theorem resumeUse_inuseWrite {c : ManagedMemoryChunk} (w : Bool) (p : Pause) (r : Bool)
    (writing : c.status = .allocatedInuseWrite) :
    resumeUse c w p r =
      if p = .swapIn ∧ r = false then (c, .returned false)
      else (useAllocated c w, .returned true) := by
  cases p <;> cases r <;>
    simp [resumeUse, usePrepared, prepareUseSwapout, waitForSwapout, useSwapin, waitForSwapin,
      writing, MemoryStatus.hasFlag, MemoryStatus.code]

/-- The swap never touches a chunk in use for writing and never marks one so. -/
theorem swap_not_writing {e : SwapEvent} {c d : ManagedMemoryChunk} (applied : e.apply c = some d) :
    c.status ≠ .allocatedInuseWrite ∧ d.status ≠ .allocatedInuseWrite := by
  obtain ⟨_, ⟨was, is⟩ | ⟨was, is⟩ | ⟨was, is⟩ | ⟨was, _, is⟩⟩ := SwapEvent.apply_cases applied
  · simp [was, is]
  · rw [was, is]
    split <;> simp
  · simp [was, is]
  · rcases is with is | is <;> simp [was, is]

theorem inv_afterUse {s : State θ} (t : θ) (w : Bool) {r : ManagedMemoryChunk × Progress}
    (h : Inv s)
    (outcome : (r.1.status = s.chunk.status ∧ (w = true → r.2 = .returned true →
        s.chunk.status = .allocatedInuseWrite)) ∨
      (r.2 = .returned true ∧ r.1.status = if w then .allocatedInuseWrite
        else .allocatedInuseRead) ∧ (w = false → s.chunk.status ≠ .allocatedInuseWrite)) :
    Inv (s.afterUse t w r) := by
  unfold Inv at *
  rw [afterUse_chunk, afterUse_writeHeld]
  rcases outcome with ⟨same, granted⟩ | ⟨⟨granted, status⟩, reader⟩
  · rw [same, ← h]
    simp only [Bool.or_eq_true, Bool.and_eq_true, decide_eq_true_eq]
    refine ⟨fun held => ?_, .inl⟩
    rcases held with held | ⟨writer, done⟩
    · exact held
    · exact h.mpr (granted writer done)
  · rw [status, granted]
    cases w with
    | true => simp
    | false => simpa [h] using reader rfl

/-- What a step does to the status of a chunk in use for writing, and to any other. -/
theorem inv_step {s t : State θ} {e : Event θ} (h : Inv s) (keeps : KeepsWrite s e)
    (taken : step s e = some t) : Inv t := by
  cases e with
  | setUse i w =>
      simp only [step] at taken
      split at taken
      · cases taken
        refine inv_afterUse i w h ?_
        obtain ⟨_, ⟨_, _, same, refused⟩ | ⟨granted, _, status⟩⟩ := setUse_cases s.chunk w
        · exact .inl ⟨same, fun _ granted => absurd granted refused⟩
        · cases w with
          | true => exact .inr ⟨⟨granted, status⟩, fun read => (by cases read)⟩
          | false =>
              by_cases idle : s.chunk.status = .allocated
              · refine .inr ⟨⟨granted, by simpa [idle] using status⟩, fun _ => ?_⟩
                rw [idle]
                exact fun same => (by cases same)
              · exact .inl ⟨by simpa [idle] using status, fun write => (by cases write)⟩
      · cases taken
  | resume i r =>
      simp only [step, Option.map_eq_some_iff] at taken
      obtain ⟨⟨w, p⟩, waiting, rfl⟩ := taken
      refine inv_afterUse i w h ?_
      rcases resumeUse_cases s.chunk w p r with ⟨q, again⟩ | failed | ⟨_, granted⟩
      · rw [again]
        exact .inl ⟨rfl, fun _ done => (by cases done)⟩
      · rw [failed]
        exact .inl ⟨rfl, fun _ done => (by cases done)⟩
      · refine .inr ⟨by rw [granted]; exact ⟨rfl, useAllocated_status _ _⟩, ?_⟩
        rintro rfl writing
        simp only [KeepsWrite, waiting] at keeps
        rw [resumeUse_inuseWrite false p r writing, if_pos (keeps writing)] at granted
        simp at granted
  | unsetUse i n =>
      simp only [step] at taken
      split at taken
      · split at taken
        · rename_i c accepted
          cases taken
          obtain ⟨_, _, _, status⟩ := unsetUse_ok accepted
          unfold Inv at *
          by_cases zero : c.useCnt = 0
          · simp only [zero, bne_self_eq_false, Bool.and_false, Bool.false_eq_true, false_iff]
            intro writing
            rw [status] at writing
            split at writing
            · cases writing
            · rename_i plain
              exact plain ⟨by rw [writing]; rfl, zero⟩
          · rw [if_neg (fun both => zero both.2)] at status
            simpa [zero, status] using h
        · cases taken
          exact h
      · cases taken
  | swap e =>
      simp only [step, Option.map_eq_some_iff] at taken
      obtain ⟨c, applied, rfl⟩ := taken
      obtain ⟨notBefore, notAfter⟩ := swap_not_writing applied
      exact ⟨fun held => absurd (h.mp held) notBefore, fun writing => absurd writing notAfter⟩

/-- A step that is possible at all meets the condition exactly when it does not take
the chunk from `MEM_ALLOCATED_INUSE_WRITE` to `MEM_ALLOCATED_INUSE_READ`. -/
theorem keepsWrite_iff {s t : State θ} {e : Event θ} (taken : step s e = some t) :
    KeepsWrite s e ↔ ¬ Downgrades s t := by
  constructor
  · rintro keeps ⟨writing, reading⟩
    cases e with
    | setUse i w =>
        simp only [step] at taken
        split at taken
        · cases taken
          simp [Rambrain.setUse, writing] at reading
        · cases taken
    | resume i r =>
        simp only [step, Option.map_eq_some_iff] at taken
        obtain ⟨⟨w, p⟩, waiting, rfl⟩ := taken
        rw [afterUse_chunk, resumeUse_inuseWrite w p r writing] at reading
        cases w with
        | false =>
            simp only [KeepsWrite, waiting] at keeps
            rw [if_pos (keeps writing), writing] at reading
            cases reading
        | true =>
            split at reading
            · rw [writing] at reading
              cases reading
            · rw [useAllocated_status] at reading
              cases reading
    | unsetUse i n =>
        simp only [step] at taken
        split at taken
        · split at taken
          · rename_i c accepted
            cases taken
            obtain ⟨_, _, _, status⟩ := unsetUse_ok accepted
            rw [status, writing] at reading
            split at reading <;> cases reading
          · cases taken
            rw [writing] at reading
            cases reading
        · cases taken
    | swap e =>
        simp only [step, Option.map_eq_some_iff] at taken
        obtain ⟨c, applied, rfl⟩ := taken
        exact (swap_not_writing applied).1 writing
  · intro kept
    cases e with
    | resume i r =>
        simp only [KeepsWrite]
        split
        · rename_i p waiting
          intro writing
          refine Decidable.byContradiction fun goesOn => kept ⟨writing, ?_⟩
          simp only [step, waiting, Option.map_some, Option.some.injEq] at taken
          rw [← taken, afterUse_chunk, resumeUse_inuseWrite false p r writing, if_neg goesOn]
          rfl
        · trivial
    | _ => trivial

/-! ### Runs -/

omit [DecidableEq θ] in
theorem inv_init : Inv (State.init : State θ) := by
  simp [Inv, State.init, ManagedMemoryChunk.fresh]

/-- In every run in which no waiting reader goes on while the chunk is in use for
writing, a successful writer finds the chunk marked as such until the use count drops
to zero, and no step takes the mark away for `MEM_ALLOCATED_INUSE_READ`. -/
theorem write_status_kept (es : List (Event θ)) {s : State θ}
    (keeps : Lib.Along step KeepsWrite State.init es)
    (reached : Lib.run step State.init es = some s) :
    (s.writeHeld = true → s.chunk.status = .allocatedInuseWrite) ∧
      ∀ e t, KeepsWrite s e → step s e = some t → ¬ Downgrades s t := by
  have inv : Inv s :=
    Lib.run_invariant_of_guard Inv (fun _ _ _ => inv_step) es inv_init keeps reached
  exact ⟨inv.mp, fun e t ok taken => (keepsWrite_iff taken).mp ok⟩

/-- The schedule that breaks the promise: the chunk is swapped out, thread `0` asks
for it to write, thread `1` to read, both wait for the same swap-in, and the writer
wakes up first. -/
def overtaken : List (Event Nat) :=
  [.swap .swapOut, .swap .complete, .setUse 0 true, .swap .swapIn, .resume 0 true,
    .setUse 1 false, .swap .complete, .resume 0 true, .resume 1 true]

/-- The writer holds the chunk and the status says it is in use for reading. -/
theorem overtaken_downgrades :
    ∃ s, Lib.run step State.init overtaken = some s ∧ s.writeHeld = true ∧
      s.chunk.status = .allocatedInuseRead :=
  ⟨_, rfl, rfl, rfl⟩

/-- The same schedule, the reader waking up first. -/
theorem write_status_kept_orderly :
    ∃ s, Lib.run step (State.init : State Nat)
        [.swap .swapOut, .swap .complete, .setUse 0 true, .swap .swapIn, .resume 0 true,
          .setUse 1 false, .swap .complete, .resume 1 true, .resume 0 true] = some s ∧
      s.chunk.status = .allocatedInuseWrite :=
  ⟨_, rfl, (write_status_kept
    [.swap .swapOut, .swap .complete, .setUse 0 true, .swap .swapIn, .resume 0 true,
      .setUse 1 false, .swap .complete, .resume 1 true, .resume 0 true] (by decide) rfl).1 rfl⟩

end Rambrain.WriteStatus
