import Rambrain.AdhereTo

/-!
An assignment to a `managedPtr` that throws.

`operator=` lowers the tracker before it frees the chunk, so when `mfree` throws because the
chunk is in use, the tracker stands at zero while the object is still there
(`thrown_assign_iff`). The object's destructor then takes it from zero to `2 ^ 32 - 1` and frees
nothing: `Stranded` says of a chunk that no destructor is going to free it.

For elements of class type `mDelete` has run their destructors before `mfree` throws; they are
operations of their own and leave no trace here.
-/

namespace Rambrain.Adhere

open Ownership (ManagedPtr Heap)

universe u v

variable {ι : Type u} {κ : Type v} [DecidableEq ι] [DecidableEq κ]

/-- An operation on the `adhereTo` objects alone. -/
def Event.isAdhere : Event ι κ → Bool
  | .ptr _ | .constructThrows _ | .deleteThrows _ _ _ => false
  | _ => true

/-- An object goes: a `managedPtr`, or an `adhereTo` with the uses behind its flags. -/
def Event.isDestroy : Event ι κ → Bool
  | .ptr (.destroy _) => true
  | .destroy _ => true
  | _ => false

/-- If `p = ref` throws, it has left the objects and the trackers as they were, and when all
objects have been destroyed each of the two chunks has been freed once. -/
def AssignKeeps (s : State ι κ) (p ref : ι) : Prop :=
  assignThrows s p ref = true → ∀ t, step s (.ptr (.assign p ref)) = some t →
    t.owner.live = s.owner.live ∧ t.owner.heap.tracker = s.owner.heap.tracker ∧
      ∀ es u, (∀ e ∈ es, e.isDestroy = true) → Lib.run step t es = some u →
        u.owner.live.entries = [] → ∀ c, chunkOf s p = some c ∨ chunkOf s ref = some c →
          u.owner.heap.mfreed c = 1

/-- Chunk `c` is registered, and only `p` refers to it, with a tracker at zero. -/
structure Stranded (s : State ι κ) (p : ι) (tracker c : Nat) : Prop where
  registered : s.owner.heap.registered c = true
  mfreed : s.owner.heap.mfreed c = 0
  zero : (s.owner.live.get? p).isSome → s.owner.heap.tracker tracker = some 0
  holder : ∀ q m, s.owner.live.get? q = some m →
    (m.tracker = tracker ↔ q = p) ∧ (m.chunk = some c ↔ q = p)

variable {s t : State ι κ} {p ref : ι} {tracker c : Nat}

/-- The `adhereTo` objects leave the pointers alone. -/
theorem step_owner {e : Event ι κ} (isAdhere : e.isAdhere = true) (taken : step s e = some t) :
    t.owner = s.owner := by
  cases e with
  | construct g p =>
      simp only [step] at taken
      split at taken
      · cases taken
        rfl
      · cases taken
  | copy g ref throws =>
      simp only [step] at taken
      split at taken
      · obtain ⟨r, _, rest⟩ := Option.bind_eq_some_iff.mp taken
        obtain ⟨u, _, rfl⟩ := Option.map_eq_some_iff.mp rest
        split_ifs <;> rfl
      · cases taken
  | assign g ref throws =>
      obtain ⟨a, _, rest⟩ := Option.bind_eq_some_iff.mp taken
      obtain ⟨r, _, rest⟩ := Option.bind_eq_some_iff.mp rest
      obtain ⟨u, _, rest⟩ := Option.bind_eq_some_iff.mp rest
      split at rest
      · cases rest
        rfl
      · obtain ⟨u', _, rfl⟩ := Option.map_eq_some_iff.mp rest
        rfl
  | pull g writable =>
      obtain ⟨a, _, rest⟩ := Option.bind_eq_some_iff.mp taken
      split_ifs at rest
      · cases rest
        rfl
      · cases rest
        rfl
      · obtain ⟨u, _, rfl⟩ := Option.map_eq_some_iff.mp rest
        rfl
      · cases rest
        rfl
      · obtain ⟨u, _, rfl⟩ := Option.map_eq_some_iff.mp rest
        rfl
  | destroy g =>
      obtain ⟨a, _, rest⟩ := Option.bind_eq_some_iff.mp taken
      split_ifs at rest
      · obtain ⟨u, _, rfl⟩ := Option.map_eq_some_iff.mp rest
        rfl
      · cases rest
        rfl
  | _ => cases isAdhere

/-- What it means that an assignment throws. -/
theorem assignThrows_spec (throws : assignThrows s p ref = true) :
    ∃ l c, s.owner.live.get? p = some l ∧ l.chunk = some c ∧
      s.owner.heap.tracker l.tracker = some 1 ∧
      step s (.ptr (.assign p ref)) = some { s with owner := { s.owner with heap :=
        { s.owner.heap with
          tracker := Function.update s.owner.heap.tracker l.tracker (some 0) } } } := by
  have taken : step s (.ptr (.assign p ref)) = some (lowerTracker s p) := by
    simp only [step, throws, if_true]
  unfold assignThrows at throws
  cases found : s.owner.live.get? p with
  | none => simp [found] at throws
  | some l =>
      cases other : s.owner.live.get? ref with
      | none => simp [found, other] at throws
      | some r =>
          cases chunk : l.chunk with
          | none => simp [found, other, chunk] at throws
          | some c =>
              simp only [found, other, chunk, decide_eq_true_eq] at throws
              refine ⟨l, c, rfl, chunk, throws.2.1, ?_⟩
              rw [taken]
              simp only [lowerTracker, found]

/-- Releasing an object leaves the chunks and the trackers of others alone. -/
theorem subFetch_other {h h' : Heap} {m : ManagedPtr} (otherChunk : m.chunk ≠ some c)
    (other : m.tracker ≠ tracker) (taken : Ownership.subFetch h m = some h') :
    h'.registered c = h.registered c ∧ h'.mfreed c = h.mfreed c ∧
      h'.tracker tracker = h.tracker tracker := by
  obtain ⟨v, _, rfl⟩ := Option.map_eq_some_iff.mp taken
  have ne := Ne.symm other
  split_ifs
  · unfold Ownership.mDelete
    split_ifs
    · cases chunk : m.chunk with
      | none => simp [ne]
      | some d =>
          have otherD : c ≠ d := fun same => otherChunk (by rw [chunk, same])
          simp [Ownership.mfree, ne, otherD]
    · simp [ne]
  · simp [ne]

/-- Destroying an object frees a stranded chunk neither now nor later. -/
theorem Stranded.destroy (h : Stranded s p tracker c) {e : Event ι κ}
    (isDestroy : e.isDestroy = true) (taken : step s e = some t) : Stranded t p tracker c := by
  cases e with
  | destroy g =>
      have owner := step_owner (e := .destroy g) rfl taken
      exact ⟨owner ▸ h.registered, owner ▸ h.mfreed, owner ▸ h.zero, owner ▸ h.holder⟩
  | ptr e =>
      cases e with
      | destroy q =>
          simp only [step] at taken
          split_ifs at taken
          obtain ⟨o, stepped, rfl⟩ := Option.map_eq_some_iff.mp taken
          obtain ⟨m, found, released⟩ := Option.bind_eq_some_iff.mp stepped
          obtain ⟨heap, lowered, rfl⟩ := Option.map_eq_some_iff.mp released
          have back : ∀ r n, (s.owner.live.remove q).get? r = some n →
              r ≠ q ∧ s.owner.live.get? r = some n := fun _ _ => Lib.Table.of_get?_remove
          obtain ⟨v, tracked, is⟩ := Option.map_eq_some_iff.mp lowered
          by_cases mine : q = p
          · -- the tracker goes from zero to its greatest value
            subst mine
            have zero := h.zero (by rw [found]; rfl)
            rw [((h.holder q m found).1).mpr rfl, zero] at tracked
            cases tracked
            rw [if_neg (by decide)] at is
            subst is
            exact ⟨h.registered, h.mfreed, fun present => by simp at present,
              fun r n held => h.holder r n (back r n held).2⟩
          · have other : m.tracker ≠ tracker := fun same => mine ((h.holder q m found).1.mp same)
            have otherChunk : m.chunk ≠ some c := fun same => mine ((h.holder q m found).2.mp same)
            obtain ⟨registered, mfreed, trackers⟩ := subFetch_other otherChunk other lowered
            refine ⟨registered.trans h.registered, mfreed.trans h.mfreed, fun present => ?_,
              fun r n held => h.holder r n (back r n held).2⟩
            rw [Lib.Table.get?_remove, if_neg (Ne.symm mine)] at present
            exact trackers.trans (h.zero present)
      | _ => cases isDestroy
  | _ => cases isDestroy

theorem Stranded.run (h : Stranded s p tracker c) (es : List (Event ι κ)) {u : State ι κ}
    (destroys : ∀ e ∈ es, e.isDestroy = true) (reached : Lib.run step s es = some u) :
    Stranded u p tracker c := by
  induction es generalizing s with
  | nil =>
      cases reached
      exact h
  | cons e es ih =>
      obtain ⟨t, taken, rest⟩ := Lib.run_cons_eq_some.mp reached
      exact ih (h.destroy (destroys e List.mem_cons_self) taken)
        (fun e' mem => destroys e' (List.mem_cons_of_mem e mem)) rest

/-- The assignment that throws strands the chunk. -/
theorem stranded_of_throws (inv : Ownership.Inv s.owner.live s.owner.heap)
    (throws : assignThrows s p ref = true)
    (taken : step s (.ptr (.assign p ref)) = some t) :
    ∃ tracker c, chunkOf s p = some c ∧ Stranded t p tracker c := by
  obtain ⟨l, c, found, chunk, one, is⟩ := assignThrows_spec throws
  rw [is] at taken
  cases taken
  have holders : Ownership.holders s.owner.live l.tracker = 1 :=
    (inv.exactly p l 1 found (by rw [chunk]; rfl) one).symm
  have alone : ∀ q m, s.owner.live.get? q = some m → m.tracker = l.tracker → q = p := by
    intro q m held same
    by_contra ne
    have removed := Ownership.holders_remove found l.tracker
    rw [if_pos rfl, holders] at removed
    have heldStill : (s.owner.live.remove p).get? q = some m := by
      rw [Lib.Table.get?_remove, if_neg ne, held]
    have more := Ownership.holders_pos heldStill
    rw [same] at more
    omega
  have registered : s.owner.heap.registered c = true :=
    (inv.registered c).mpr ⟨p, l, found, chunk⟩
  refine ⟨l.tracker, c, by simp [chunkOf, found, chunk], registered, ?_, fun _ => ?_,
    fun q m held => ⟨⟨alone q m held, ?_⟩, ⟨fun same => ?_, ?_⟩⟩⟩
  · have mfreed := inv.mfreed c
    rw [registered] at mfreed
    simpa using mfreed
  · simp
  · rintro rfl
    rw [found] at held
    cases held
    rfl
  · exact alone q m held (inv.sameTracker q m p l c held found same chunk)
  · rintro rfl
    rw [found] at held
    cases held
    exact chunk

/-- No tracker is raised past its width, and no assignment or construction throws. -/
def Counts (s : State ι κ) : Event ι κ → Prop
  | .ptr (.assign p ref) =>
      Ownership.TrackerFits s.owner (.assign p ref) ∧ assignThrows s p ref = false
  | .ptr e => Ownership.TrackerFits s.owner e
  | .constructThrows _ | .deleteThrows _ _ _ => False
  | _ => True

instance (s : State ι κ) : ∀ e, Decidable (Counts s e)
  | .ptr (.assign _ _) => inferInstanceAs (Decidable (_ ∧ _))
  | .ptr (.construct _ _) | .ptr (.copy _ _) | .ptr (.destroy _) =>
      inferInstanceAs (Decidable (Ownership.TrackerFits s.owner _))
  | .constructThrows _ | .deleteThrows _ _ _ => inferInstanceAs (Decidable False)
  | .construct .. | .copy .. | .assign .. | .pull .. | .destroy _ =>
      inferInstanceAs (Decidable True)

/-- Such operations keep the trackers in step with the objects. -/
theorem owner_step {e : Event ι κ} (inv : Ownership.Inv s.owner.live s.owner.heap)
    (ok : Counts s e) (taken : step s e = some t) : Ownership.Inv t.owner.live t.owner.heap := by
  have moves : ∀ {e}, Ownership.TrackerFits s.owner e → ptrStep s e = some t →
      Ownership.Inv t.owner.live t.owner.heap := by
    intro e fits moved
    obtain ⟨o, stepped, rfl⟩ := Option.map_eq_some_iff.mp moved
    exact Ownership.inv_step inv fits stepped
  cases e with
  | ptr e =>
      cases e with
      | construct p n => exact moves ok taken
      | copy p ref => exact moves ok taken
      | assign p ref =>
          simp only [step, ok.2, Bool.false_eq_true, if_false] at taken
          exact moves ok.1 taken
      | destroy p =>
          simp only [step] at taken
          split at taken
          · cases taken
          · exact moves ok taken
  | constructThrows n => exact ok.elim
  | deleteThrows p ref inSetUse => exact ok.elim
  | _ => exact step_owner rfl taken ▸ inv

end Rambrain.Adhere
