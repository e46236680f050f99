import Rambrain.Use

/-!
Use counting on one chunk.

A history is a sequence of whole calls: a `setUse` together with what it found at
each of its wake-ups, an `unsetUse`, or a change the swap makes between calls. The
ledger keeps beside the chunk the number of uses taken and not yet released, which
the source does not have; `useCnt` is meant to be that number.

The counter is an `unsigned short` that `setUse` raises without a check, and
`unsetUse` can still throw after it has lowered the counter, from the eviction its
`untouch` starts. `countsCorrectly_iff_fits` shows that nothing else goes wrong:
a history is counted correctly exactly when at most 65535 uses are ever
outstanding and no `untouch` throws.
-/

namespace Rambrain.UseCount

/-- What a waiting `setUse` finds when it has the mutex again. -/
structure Wakeup where
  status : MemoryStatus
  swapInResult : Bool
  deriving DecidableEq, Repr

inductive Call where
  | setUse (writeAccess : Bool) (wakeups : List Wakeup)
  | unsetUse (noUnsets : UInt32) (untouchThrows : Option MemoryException)
  | swap (e : SwapEvent)
  deriving DecidableEq, Repr

/-- A whole `setUse`: its sections, one per wake-up. -/
def finishUse (writeAccess : Bool) :
    ManagedMemoryChunk × Progress → List Wakeup → ManagedMemoryChunk × Progress
  | (c, .returned result), _ => (c, .returned result)
  | (c, .paused p), [] => (c, .paused p)
  | (c, .paused p), w :: ws =>
      finishUse writeAccess
        (resumeUse { c with status := w.status } writeAccess p w.swapInResult) ws

/-- The chunk beside the number of uses outstanding on it. -/
structure Ledger where
  chunk : ManagedMemoryChunk
  outstanding : Nat
  deriving DecidableEq, Repr

def Ledger.fresh : Ledger := ⟨.fresh, 0⟩

/-- One call of a history. Only successful `setUse` calls occur in one, and a call that
throws from `unsetUse`'s own checks leaves the chunk as it was. -/
def step (l : Ledger) : Call → Option Ledger
  | .setUse w wakeups =>
      match finishUse w (Rambrain.setUse l.chunk w) wakeups with
      | (c, .returned true) => some ⟨c, l.outstanding + 1⟩
      | _ => none
  | .unsetUse n _ =>
      match Rambrain.unsetUse l.chunk n with
      | .ok c => some ⟨c, l.outstanding - n.toNat⟩
      | .error _ => some l
  | .swap e => (e.apply l.chunk).map fun c => { l with chunk := c }

/-- The call ends with an exception. -/
def throws (l : Ledger) : Call → Prop
  | .unsetUse n untouchThrows =>
      (∃ e, Rambrain.unsetUse l.chunk n = .error e) ∨ untouchThrows.isSome
  | _ => False

/-- The counter holds the number of outstanding uses, and the status says that
nobody uses the chunk only if nobody does. -/
def Counted (l : Ledger) : Prop :=
  l.chunk.useCnt.toNat = l.outstanding ∧ (l.chunk.status = .allocated → l.outstanding = 0)

/-- `unsetUse` throws exactly when asked for zero or more uses than are outstanding. -/
def ThrowsRight (l : Ledger) : Call → Prop
  | .unsetUse n u => throws l (.unsetUse n u) ↔ n.toNat = 0 ∨ l.outstanding < n.toNat
  | _ => True

/-- The whole history is counted correctly: before every call, and after the last. -/
def CountsCorrectly (l : Ledger) : List Call → Prop
  | [] => Counted l
  | e :: es =>
      Counted l ∧ ThrowsRight l e ∧ ∀ t, step l e = some t → CountsCorrectly t es

/-! ### The condition -/

/-- The number of outstanding uses after a call, read off the calls alone. -/
def outstandingAfter (n : Nat) : Call → Nat
  | .setUse _ _ => n + 1
  | .unsetUse k _ => if k.toNat = 0 ∨ n < k.toNat then n else n - k.toNat
  | .swap _ => n

/-- At most 65535 uses are outstanding at any time, and no accepted `unsetUse` gets an
exception from `untouch`. -/
def Fits (n : Nat) : List Call → Prop
  | [] => n < 2 ^ 16
  | e :: es =>
      n < 2 ^ 16 ∧
        (∀ k u, e = .unsetUse k u → k.toNat ≠ 0 → k.toNat ≤ n → u = none) ∧
        Fits (outstandingAfter n e) es

/-! ### One call -/

/-- What the ledger satisfies between calls as long as the counter has not wrapped. -/
structure Inv (l : Ledger) : Prop where
  counted : l.chunk.useCnt.toNat = l.outstanding
  inUse : l.chunk.status.hasFlag .allocatedInuse = true ∨ l.outstanding = 0

theorem inv_fresh : Inv Ledger.fresh := ⟨rfl, .inr rfl⟩

theorem Inv.toCounted {l : Ledger} (h : Inv l) : Counted l := by
  refine ⟨h.counted, fun idle => ?_⟩
  rcases h.inUse with flagged | none
  · rw [idle] at flagged
    cases flagged
  · exact none

/-- The sections after a wait leave the counter alone, and a granted use leaves the
chunk marked as in use. -/
theorem finishUse_spec (w : Bool) (ws : List Wakeup) :
    ∀ (c d : ManagedMemoryChunk) (p : Progress),
      (p = .returned true → c.status.hasFlag .allocatedInuse = true) →
      finishUse w (c, p) ws = (d, .returned true) →
      d.useCnt = c.useCnt ∧ d.status.hasFlag .allocatedInuse = true := by
  induction ws with
  | nil =>
      intro c d p granted finished
      cases p with
      | paused q => cases finished
      | returned result =>
          cases finished
          exact ⟨rfl, granted rfl⟩
  | cons wake ws ih =>
      intro c d p granted finished
      cases p with
      | returned result =>
          cases finished
          exact ⟨rfl, granted rfl⟩
      | paused q =>
          simp only [finishUse] at finished
          rcases resumeUse_cases { c with status := wake.status } w q wake.swapInResult with
            ⟨q', again⟩ | failed | ⟨_, done⟩
          · rw [again] at finished
            obtain ⟨count, marked⟩ := ih _ d _ (fun h => by cases h) finished
            exact ⟨count, marked⟩
          · rw [failed] at finished
            obtain ⟨count, marked⟩ := ih _ d _ (fun h => by cases h) finished
            exact ⟨count, marked⟩
          · rw [done] at finished
            have inUse := useAllocated_status { c with status := wake.status } w
            obtain ⟨count, marked⟩ := ih _ d _ (fun _ => by rw [inUse]; cases w <;> rfl) finished
            exact ⟨by rw [count, useAllocated_useCnt], marked⟩

/-- A successful `setUse`, waits and all, raises the counter once (modulo its width)
and leaves the chunk marked as in use. -/
theorem setUse_spec {c d : ManagedMemoryChunk} {w : Bool} {ws : List Wakeup}
    (finished : finishUse w (Rambrain.setUse c w) ws = (d, .returned true)) :
    d.useCnt = c.useCnt + 1 ∧ d.status.hasFlag .allocatedInuse = true := by
  obtain ⟨count, outcome⟩ := setUse_cases c w
  have marked : (Rambrain.setUse c w).2 = .returned true →
      (Rambrain.setUse c w).1.status.hasFlag .allocatedInuse = true := by
    intro granted
    rcases outcome with ⟨_, _, _, refused⟩ | ⟨_, flagged, _⟩
    · exact absurd granted refused
    · exact flagged
  obtain ⟨countLater, inUse⟩ := finishUse_spec w ws _ d _ marked finished
  exact ⟨countLater.trans count, inUse⟩

/-- What a call does to the ledger. -/
theorem step_cases {l t : Ledger} {e : Call} (taken : step l e = some t) :
    (∃ w ws, e = .setUse w ws ∧ t.outstanding = l.outstanding + 1 ∧
        t.chunk.useCnt = l.chunk.useCnt + 1 ∧ t.chunk.status.hasFlag .allocatedInuse = true) ∨
      (∃ n u, e = .unsetUse n u ∧ (n.toNat = 0 ∨ l.chunk.useCnt.toNat < n.toNat) ∧ t = l) ∨
      (∃ n u, e = .unsetUse n u ∧ n.toNat ≠ 0 ∧ n.toNat ≤ l.chunk.useCnt.toNat ∧
        t.outstanding = l.outstanding - n.toNat ∧
        t.chunk.useCnt.toNat = l.chunk.useCnt.toNat - n.toNat ∧
        t.chunk.status =
          if l.chunk.status.hasFlag .allocatedInuseRead ∧ t.chunk.useCnt = 0 then .allocated
          else l.chunk.status) ∨
      (∃ s, e = .swap s ∧ s.apply l.chunk = some t.chunk ∧ t.outstanding = l.outstanding) := by
  cases e with
  | setUse w ws =>
      simp only [step] at taken
      split at taken
      · rename_i c finished
        cases taken
        exact .inl ⟨w, ws, rfl, rfl, setUse_spec finished⟩
      · cases taken
  | unsetUse n u =>
      simp only [step] at taken
      split at taken
      · rename_i c accepted
        cases taken
        obtain ⟨positive, enough, count, status⟩ := unsetUse_ok accepted
        exact .inr (.inr (.inl ⟨n, u, rfl, positive, enough, rfl, count, status⟩))
      · rename_i err failed
        cases taken
        have refused := (unsetUse_error_iff l.chunk n).mp ⟨err, failed⟩
        exact .inr (.inl ⟨n, u, rfl, refused, rfl⟩)
  | swap s =>
      simp only [step, Option.map_eq_some_iff] at taken
      obtain ⟨c, applied, rfl⟩ := taken
      exact .inr (.inr (.inr ⟨s, rfl, applied, rfl⟩))

/-- A counted ledger moves as the calls alone say. -/
theorem step_outstanding {l t : Ledger} {e : Call} (counted : l.chunk.useCnt.toNat = l.outstanding)
    (taken : step l e = some t) : t.outstanding = outstandingAfter l.outstanding e := by
  rcases step_cases taken with ⟨w, ws, rfl, next, _⟩ | ⟨n, u, rfl, refused, rfl⟩ |
    ⟨n, u, rfl, positive, enough, next, _⟩ | ⟨s, rfl, _, next⟩
  · exact next
  · rw [counted] at refused
    exact (if_pos refused).symm
  · rw [counted] at enough
    rw [next, outstandingAfter, if_neg (by omega)]
  · exact next

/-- Every call keeps the invariant that does not take the count past the counter. -/
theorem step_inv {l t : Ledger} {e : Call} (h : Inv l) (taken : step l e = some t)
    (fits : t.outstanding < 2 ^ 16) : Inv t := by
  rcases step_cases taken with ⟨w, ws, rfl, next, count, marked⟩ | ⟨n, u, rfl, _, rfl⟩ |
    ⟨n, u, rfl, positive, enough, next, count, status⟩ | ⟨s, rfl, applied, next⟩
  · refine ⟨?_, .inl marked⟩
    have counted := h.counted
    rw [count, UInt16.toNat_add, counted, next]
    exact Nat.mod_eq_of_lt (by rw [next] at fits; exact fits)
  · exact h
  · have counted := h.counted
    refine ⟨by rw [count, counted, next], ?_⟩
    rcases h.inUse with flagged | none
    · by_cases zero : t.chunk.useCnt = 0
      · refine .inr ?_
        rw [zero] at count
        rw [next, ← counted, ← count]
        rfl
      · rw [if_neg (fun both => zero both.2)] at status
        exact .inl (status ▸ flagged)
    · exact .inr (by rw [next, none, Nat.zero_sub])
  · obtain ⟨count, moves⟩ := SwapEvent.apply_cases applied
    refine ⟨by rw [count, next, h.counted], ?_⟩
    rcases h.inUse with flagged | none
    · rcases moves with ⟨was, _⟩ | ⟨was, _⟩ | ⟨was, _⟩ | ⟨was, _⟩ <;>
        · rw [was] at flagged
          cases flagged
    · exact .inr (next.trans none)

/-- In a counted state `unsetUse` throws as it should exactly when `untouch` does not
throw in a call that was accepted. -/
theorem throwsRight_iff {l : Ledger} (counted : l.chunk.useCnt.toNat = l.outstanding) (e : Call) :
    ThrowsRight l e ↔
      ∀ k u, e = .unsetUse k u → k.toNat ≠ 0 → k.toNat ≤ l.outstanding → u = none := by
  cases e with
  | setUse w ws => exact ⟨fun _ _ _ same => (by cases same), fun _ => trivial⟩
  | swap s => exact ⟨fun _ _ _ same => (by cases same), fun _ => trivial⟩
  | unsetUse n u =>
      simp only [ThrowsRight, throws, unsetUse_error_iff, counted]
      constructor
      · rintro right k v same positive enough
        cases same
        cases u with
        | none => rfl
        | some thrown => exact absurd (right.mp (.inr rfl)) (by omega)
      · intro quiet
        refine ⟨fun thrown => ?_, .inl⟩
        rcases thrown with refused | thrown
        · exact refused
        · refine Decidable.byContradiction fun accepted => ?_
          have := quiet n u rfl (by omega) (by omega)
          rw [this] at thrown
          cases thrown

/-! ### Histories -/

theorem countsCorrectly_iff_fits_of_inv :
    ∀ (es : List Call) {l : Ledger}, Inv l → (Lib.run step l es).isSome →
      (CountsCorrectly l es ↔ Fits l.outstanding es) := by
  intro es
  induction es with
  | nil =>
      intro l h _
      have fits : l.outstanding < 2 ^ 16 := h.counted ▸ l.chunk.useCnt.toNat_lt
      exact ⟨fun _ => fits, fun _ => h.toCounted⟩
  | cons e es ih =>
      intro l h successful
      obtain ⟨u, ends⟩ := Option.isSome_iff_exists.mp successful
      obtain ⟨t, first, rest⟩ := Lib.run_cons_eq_some.mp ends
      have fits : l.outstanding < 2 ^ 16 := h.counted ▸ l.chunk.useCnt.toNat_lt
      have next := step_outstanding h.counted first
      have later : CountsCorrectly t es ↔ Fits t.outstanding es := by
        by_cases small : t.outstanding < 2 ^ 16
        · exact ih (step_inv h first small) (by rw [rest]; rfl)
        · refine ⟨fun counts => absurd ?_ small, fun more => absurd ?_ small⟩
          · have counted : Counted t := by
              cases es with
              | nil => exact counts
              | cons _ _ => exact counts.1
            exact counted.1 ▸ t.chunk.useCnt.toNat_lt
          · cases es with
            | nil => exact more
            | cons _ _ => exact more.1
      simp only [CountsCorrectly, Fits, throwsRight_iff h.counted, first, Option.some.injEq,
        forall_eq', later, ← next]
      exact ⟨fun all => ⟨fits, all.2⟩, fun all => ⟨h.toCounted, all.2⟩⟩

/-- A history of successful calls on a fresh chunk is counted correctly exactly when
the calls never leave more than 65535 uses outstanding and no `untouch` throws. -/
theorem countsCorrectly_iff_fits (es : List Call)
    (successful : (Lib.run step Ledger.fresh es).isSome) :
    CountsCorrectly Ledger.fresh es ↔ Fits 0 es :=
  countsCorrectly_iff_fits_of_inv es inv_fresh successful

/-- One use, taken while the chunk is being read back, and its release. -/
theorem countsCorrectly_iff_fits_once :
    CountsCorrectly Ledger.fresh [.swap .swapOut, .swap .complete,
        .setUse true [⟨.swapin, true⟩, ⟨.allocatedInuseRead, true⟩], .unsetUse 1 none] ↔
      Fits 0 [.swap .swapOut, .swap .complete,
        .setUse true [⟨.swapin, true⟩, ⟨.allocatedInuseRead, true⟩], .unsetUse 1 none] :=
  countsCorrectly_iff_fits _ (by decide)

/-- Read uses of a resident chunk succeed however many there are. -/
theorem readUses_succeed (n : Nat) :
    ∀ {l : Ledger}, l.chunk.status = .allocated ∨ l.chunk.status = .allocatedInuseRead →
      (Lib.run step l (List.replicate n (.setUse false []))).isSome := by
  induction n with
  | zero => intro l _; rfl
  | succ n ih =>
      intro l resident
      rw [List.replicate_succ, Lib.run_cons]
      rcases resident with idle | read
      · simp only [step, Rambrain.setUse, idle, finishUse]
        exact ih (.inr rfl)
      · simp only [step, Rambrain.setUse, read, finishUse]
        exact ih (.inr rfl)

theorem not_fits_readUses (k : Nat) :
    ∀ n, 2 ^ 16 ≤ n + k → ¬ Fits n (List.replicate k (.setUse false [])) := by
  induction k with
  | zero =>
      intro n large fits
      exact Nat.not_lt.mpr large fits
  | succ k ih =>
      intro n large fits
      rw [List.replicate_succ] at fits
      exact ih (n + 1) (by omega) fits.2.2

/-- 65536 readers of one chunk: the counter is back at zero. -/
theorem readUses_miscounted :
    (Lib.run step Ledger.fresh (List.replicate 65536 (.setUse false []))).isSome ∧
      ¬ CountsCorrectly Ledger.fresh (List.replicate 65536 (.setUse false [])) := by
  have successful := readUses_succeed 65536 (l := Ledger.fresh) (.inl rfl)
  refine ⟨successful, fun counts => ?_⟩
  exact not_fits_readUses 65536 0 (by decide)
    ((countsCorrectly_iff_fits_of_inv _ inv_fresh successful).mp counts)

/-! ### A call that fails -/

/-- What happened while a `setUse` had released the mutex: the status it finds, what other threads
have added to the counter by then (modulo its width), and how the wait or the scheduler's `swapIn`
ended. -/
structure Wait where
  status : MemoryStatus
  others : UInt16
  swapInResult : Bool
  throws : Bool
  deriving DecidableEq, Repr

inductive Outcome where
  | waiting
  | returned (result : Bool)
  | threw
  deriving DecidableEq, Repr

/-- A `setUse` from the end of a section on, with what other threads have added to the counter. No
path of `setUse` catches an exception. -/
def failableUse (w : Bool) (c : ManagedMemoryChunk) (others : UInt16) :
    Progress → List Wait → ManagedMemoryChunk × UInt16 × Outcome
  | .returned result, _ => (c, others, .returned result)
  | .paused _, [] => (c, others, .waiting)
  | .paused p, k :: ks =>
      let d := { c with status := k.status, useCnt := c.useCnt + k.others }
      if k.throws then (d, others + k.others, .threw)
      else
        let r := resumeUse d w p k.swapInResult
        failableUse w r.1 (others + k.others) r.2 ks

/-- A whole `setUse`. -/
def wholeUse (c : ManagedMemoryChunk) (w : Bool) (ks : List Wait) :
    ManagedMemoryChunk × UInt16 × Outcome :=
  failableUse w (Rambrain.setUse c w).1 0 (Rambrain.setUse c w).2 ks

/-- The call returned `false` or was left by an exception. -/
def Outcome.Failed (o : Outcome) : Prop := o = .returned false ∨ o = .threw

/-- If the call fails, it has not changed the counter itself. -/
def RestoresCount (c : ManagedMemoryChunk) (w : Bool) (ks : List Wait) : Prop :=
  (wholeUse c w ks).2.2.Failed →
    (wholeUse c w ks).1.useCnt = c.useCnt + (wholeUse c w ks).2.1

/-- The sections after the first one leave the counter to the other threads. -/
theorem failableUse_useCnt (w : Bool) (ks : List Wait) :
    ∀ (c : ManagedMemoryChunk) (others : UInt16) (p : Progress),
      (failableUse w c others p ks).1.useCnt + others =
        c.useCnt + (failableUse w c others p ks).2.1 := by
  induction ks with
  | nil =>
      intro c others p
      cases p <;> rfl
  | cons k ks ih =>
      intro c others p
      cases p with
      | returned result => rfl
      | paused q =>
          simp only [failableUse]
          split
          · grind
          · have rest := ih (resumeUse { c with status := k.status, useCnt := c.useCnt + k.others }
              w q k.swapInResult).1 (others + k.others)
              (resumeUse { c with status := k.status, useCnt := c.useCnt + k.others } w q
                k.swapInResult).2
            rw [resumeUse_useCnt] at rest
            simp only at rest ⊢
            grind

/-- However a `setUse` ends, its own use is still counted. -/
theorem wholeUse_useCnt (c : ManagedMemoryChunk) (w : Bool) (ks : List Wait) :
    (wholeUse c w ks).1.useCnt = c.useCnt + 1 + (wholeUse c w ks).2.1 := by
  have rest := failableUse_useCnt w ks (Rambrain.setUse c w).1 0 (Rambrain.setUse c w).2
  rw [(setUse_cases c w).1] at rest
  simp only [UInt16.add_zero] at rest
  exact rest

/-- No call that fails takes its use back. -/
theorem restoresCount_iff (c : ManagedMemoryChunk) (w : Bool) (ks : List Wait) :
    RestoresCount c w ks ↔ ¬ (wholeUse c w ks).2.2.Failed := by
  have count := wholeUse_useCnt c w ks
  constructor
  · intro restores failed
    have same := restores failed
    rw [count] at same
    have one : (1 : UInt16) = 0 := by grind
    exact absurd one (by decide)
  · intro succeeded failed
    exact absurd failed succeeded

/-- The swap-in of an unused chunk finds no room and throws. -/
theorem failedUse_stays_counted :
    (wholeUse ⟨.swapped, 0⟩ false [⟨.swapped, 0, false, true⟩]).2.2 = .threw ∧
      ¬ RestoresCount ⟨.swapped, 0⟩ false [⟨.swapped, 0, false, true⟩] := by
  refine ⟨rfl, fun restores => ?_⟩
  exact absurd (restores (.inr rfl)) (by decide)

/-- A use that failed on an unused chunk pins it: a later use and its release do not make it
idle. -/
theorem failedUse_pins {c d : ManagedMemoryChunk} {w : Bool} {ks : List Wait} {ws : List Wakeup}
    (unused : c.useCnt = 0) (alone : (wholeUse c w ks).2.1 = 0)
    (later : finishUse w (Rambrain.setUse (wholeUse c w ks).1 w) ws = (d, .returned true)) :
    ∃ e, Rambrain.unsetUse d 1 = .ok e ∧ e.useCnt = 1 ∧ e.status ≠ .allocated := by
  have first := wholeUse_useCnt c w ks
  obtain ⟨second, inUse⟩ := setUse_spec later
  rw [first, unused, alone] at second
  have two : d.useCnt = 2 := second
  have accepted : ¬ ∃ e, Rambrain.unsetUse d 1 = .error e := by
    rw [unsetUse_error_iff, two]
    decide
  cases taken : Rambrain.unsetUse d 1 with
  | error err => exact absurd ⟨err, taken⟩ accepted
  | ok e =>
      obtain ⟨_, _, left, status⟩ := unsetUse_ok taken
      have one : e.useCnt = 1 := by
        rw [two] at left
        exact UInt16.toNat_inj.mp left
      refine ⟨e, rfl, one, ?_⟩
      have notZero : ¬ e.useCnt = 0 := by
        rw [one]
        decide
      rw [status, if_neg fun both => notZero both.2]
      intro idle
      rw [idle] at inUse
      cases inUse

end Rambrain.UseCount
