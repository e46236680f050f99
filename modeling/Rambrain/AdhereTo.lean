import Rambrain.ManagedPtr
import Rambrain.Use

/-!
Uses taken and released by `adhereTo` objects (`managedPtr.h`).

An `adhereTo` keeps a pointer to the `managedPtr` object it was made from, not to the
chunk: pulling a pointer takes a use on the chunk that object holds at the moment,
and the destructor releases it on the chunk the object holds then. Beside each flag
the model records the chunk its use was taken on.

`uses_kept` gives the condition under which the two are always the same chunk and
every counter is the number of flags: no `managedPtr` is assigned another chunk while
an `adhereTo` made from it has a flag set, no counter is raised past its width, and no
exception of the manager leaves a use without its flag or a flag without its use.
`reseated_in_use` is the run that breaks it.

`setUse` raises the counter before it can throw, and `unsetUse` has lowered it when the
eviction behind it throws; `prepareUse` leaves it alone. An exception that leaves a
destructor ends the program, and one that leaves a pull has set its flag before, so
neither is a step of its own. The constructors and destructors of the elements return.
-/

namespace Rambrain.Adhere

open Ownership (ManagedPtr Heap)

universe u v

/-- An `adhereTo`, and the chunks on which the uses behind its flags were taken. -/
structure AdhereTo (ι : Type u) extends Rambrain.AdhereTo ι where
  writableOn : Option Nat
  readableOn : Option Nat
  deriving DecidableEq, Repr

structure State (ι : Type u) (κ : Type v) where
  owner : Ownership.State ι
  adheres : Lib.Table κ (AdhereTo ι)
  useCnt : Nat → UInt16

variable {ι : Type u} {κ : Type v} [DecidableEq ι] [DecidableEq κ]

def State.init : State ι κ := ⟨.init, .empty, fun _ => 0⟩

/-- The calls of the manager in `operator=` of `adhereTo`, in their order. The copy
constructor makes the last two. -/
inductive Call where
  | unsetReadable
  | unsetWritable
  | setWritable
  | setReadable
  deriving DecidableEq, Repr

inductive Event (ι : Type u) (κ : Type v) where
  /-- An operation on a `managedPtr` object. -/
  | ptr (e : Ownership.Event ι)
  /-- The `unsetUse` in the constructor of a `managedPtr` throws. -/
  | constructThrows (nElem : UInt32)
  /-- `mDelete` for elements of a class takes a use for their destructors: in an
  assignment its `setUse` throws, or else its `unsetUse`. -/
  | deleteThrows (p ref : ι) (inSetUse : Bool)
  | construct (g : κ) (data : ι)
  | copy (g ref : κ) (throws : Option Call)
  | assign (g ref : κ) (throws : Option Call)
  | pull (g : κ) (writable : Bool)
  | destroy (g : κ)

/-! ### The operations -/

/-- `data->chunk`. -/
def chunkOf (s : State ι κ) (p : ι) : Option Nat := (s.owner.live.get? p).bind (·.chunk)

/-- The chunk on which a use through the object is taken; there is none on a chunk that
was freed. -/
def usable (s : State ι κ) (p : ι) : Option Nat :=
  (chunkOf s p).filter (s.owner.heap.registered ·)

/-- `data->size() == 0`. -/
def emptyData (s : State ι κ) (p : ι) : Bool :=
  match s.owner.live.get? p with
  | some m => m.nElem == 0
  | none => false

/-- `if ( flag ) data->setUse ( .. )`. -/
def takeUse (u : Nat → UInt16) (c : Option Nat) (flag : Bool) : Option (Nat → UInt16) :=
  if flag then c.map fun c => Function.update u c (u c + 1) else some u

/-- `data->unsetUse ( loaded )`; it throws when the counter does not hold that many. -/
def dropUses (u : Nat → UInt16) (c : Option Nat) (loaded : UInt16) : Option (Nat → UInt16) :=
  c.bind fun c => if u c < loaded then none else some (Function.update u c (u c - loaded))

/-- `if ( flag ) data->unsetUse()`. -/
def dropUse (u : Nat → UInt16) (c : Option Nat) (flag : Bool) : Option (Nat → UInt16) :=
  if flag then dropUses u c 1 else some u

/-- The end of the copy constructor and of the assignment: take a use for each flag of
the other object. -/
def takeFlags (u : Nat → UInt16) (c : Option Nat) (ref : AdhereTo ι) : Option (Nat → UInt16) :=
  (takeUse u c ref.loadedWritable).bind fun u => takeUse u c ref.loadedReadable

/-- The start of the assignment: release the uses of both flags. -/
def dropFlags (u : Nat → UInt16) (c : Option Nat) (old : AdhereTo ι) : Option (Nat → UInt16) :=
  (dropUse u c old.loadedReadable).bind fun u => dropUse u c old.loadedWritable

/-- The uses taken up to a call that throws; that call has taken its own. -/
def takeUntil (u : Nat → UInt16) (c : Option Nat) (ref : AdhereTo ι) :
    Option Call → Option (Nat → UInt16)
  | none => takeFlags u c ref
  | some .setWritable => if ref.loadedWritable then takeUse u c true else none
  | some .setReadable => if ref.loadedReadable then takeFlags u c ref else none
  | some .unsetReadable | some .unsetWritable => none

/-- The uses released up to a call that throws; that call has released its own. -/
def dropUntil (u : Nat → UInt16) (c : Option Nat) (old : AdhereTo ι) :
    Option Call → Option (Nat → UInt16)
  | some .unsetReadable => if old.loadedReadable then dropUse u c true else none
  | some .unsetWritable => if old.loadedWritable then dropFlags u c old else none
  | _ => dropFlags u c old

/-- The call is one of those before the members are copied. -/
def Call.first : Call → Bool
  | .unsetReadable | .unsetWritable => true
  | .setWritable | .setReadable => false

/-- The object that has taken its uses on `c` for the flags of `ref`, up to a call that
throws. -/
def AdhereTo.retaken (ref : AdhereTo ι) (c : Option Nat) (throws : Option Call) : AdhereTo ι :=
  { ref with
    writableOn := if ref.loadedWritable then c else none
    readableOn := if ref.loadedReadable ∧ throws ≠ some .setWritable then c else none }

/-- The number of flags set, as a counter takes it. -/
def AdhereTo.loaded (a : AdhereTo ι) : UInt16 := a.toAdhereTo.loaded.toUInt16

/-- `mfree` throws on a chunk that is in use: the assignment has lowered the tracker to
zero and then fails, leaving the object as it was. -/
def assignThrows (s : State ι κ) (p ref : ι) : Bool :=
  match s.owner.live.get? p, s.owner.live.get? ref with
  | some l, some r =>
      match l.chunk with
      | some c => r.chunk ≠ some c ∧ s.owner.heap.tracker l.tracker = some 1 ∧ s.useCnt c ≠ 0
      | none => false
  | _, _ => false

/-- The tracker after an assignment that threw. -/
def lowerTracker (s : State ι κ) (p : ι) : State ι κ :=
  match s.owner.live.get? p with
  | some l =>
      { s with owner := { s.owner with heap :=
        { s.owner.heap with
          tracker := Function.update s.owner.heap.tracker l.tracker (some 0) } } }
  | none => s

/-- `mDelete` with an exception of its `setUse` or `unsetUse`; the latter throws as well when
the counter has wrapped to zero. -/
def deleteThrows (s : State ι κ) (p ref : ι) (inSetUse : Bool) : Option (State ι κ) :=
  (s.owner.live.get? p).bind fun l => (s.owner.live.get? ref).bind fun r =>
    (usable s p).bind fun c =>
      if r.chunk ≠ some c ∧ s.owner.heap.tracker l.tracker = some 1 then
        let used := s.useCnt c + 1
        some { lowerTracker s p with
          useCnt := Function.update s.useCnt c
            (if inSetUse ∨ used = 0 then used else used - 1) }
      else none

/-- The destructor of a `managedPtr` whose chunk is in use ends the program. -/
def destroyThrows (s : State ι κ) (p : ι) : Bool :=
  match s.owner.live.get? p with
  | some l =>
      match l.chunk with
      | some c => s.owner.heap.tracker l.tracker = some 1 ∧ s.useCnt c ≠ 0
      | none => false
  | none => false

/-- Some live `adhereTo` was made from the object. -/
def adhered (s : State ι κ) (p : ι) : Bool := s.adheres.entries.any fun e => e.2.data = p

/-- Some live `adhereTo` made from the object has a flag set. -/
def inUse (s : State ι κ) (p : ι) : Bool :=
  s.adheres.entries.any fun e => e.2.data = p && (e.2.loadedWritable || e.2.loadedReadable)

def ptrStep (s : State ι κ) (e : Ownership.Event ι) : Option (State ι κ) :=
  (Ownership.step s.owner e).map fun o => { s with owner := o }

def step (s : State ι κ) : Event ι κ → Option (State ι κ)
  | .ptr (.assign p ref) =>
      if assignThrows s p ref then some (lowerTracker s p) else ptrStep s (.assign p ref)
  | .ptr (.destroy p) =>
      -- An `adhereTo` does not outlive the object it was made from.
      if adhered s p ∨ destroyThrows s p then none else ptrStep s (.destroy p)
  | .ptr e => ptrStep s e
  | .constructThrows n =>
      if n = 0 then none
      else some { s with owner :=
        { s.owner with heap := (Ownership.construct s.owner.heap n).2 } }
  | .deleteThrows p ref inSetUse => deleteThrows s p ref inSetUse
  | .construct g p =>
      if s.adheres.get? g = none ∧ (s.owner.live.get? p).isSome then
        some { s with adheres := s.adheres.put g ⟨⟨p, false, false⟩, none, none⟩ }
      else none
  | .copy g ref throws =>
      if s.adheres.get? g = none then
        (s.adheres.get? ref).bind fun r =>
          (takeUntil s.useCnt (usable s r.data) r throws).map fun u =>
            -- An exception leaves no object behind.
            if throws.isSome then { s with useCnt := u }
            else { s with
              adheres := s.adheres.put g (r.retaken (usable s r.data) none)
              useCnt := u }
      else none
  | .assign g ref throws =>
      (s.adheres.get? g).bind fun a => (s.adheres.get? ref).bind fun r =>
        (dropUntil s.useCnt (chunkOf s a.data) a throws).bind fun u =>
          if throws.any Call.first then some { s with useCnt := u }
          else (takeUntil u (usable s r.data) r throws).map fun u =>
            { s with
              adheres := s.adheres.put g (r.retaken (usable s r.data) throws)
              useCnt := u }
  | .pull g writable =>
      (s.adheres.get? g).bind fun a =>
        if emptyData s a.data then some s
        else if writable then
          if a.loadedWritable then some s
          else (takeUse s.useCnt (usable s a.data) true).map fun u =>
            { s with
              adheres := s.adheres.put g
                { a with loadedWritable := true, writableOn := usable s a.data }
              useCnt := u }
        else
          if a.loadedReadable then some s
          else (takeUse s.useCnt (usable s a.data) true).map fun u =>
            { s with
              adheres := s.adheres.put g
                { a with loadedReadable := true, readableOn := usable s a.data }
              useCnt := u }
  | .destroy g =>
      (s.adheres.get? g).bind fun a =>
        if 0 < a.loaded ∧ emptyData s a.data = false then
          (dropUses s.useCnt (chunkOf s a.data) a.loaded).map fun u =>
            { s with adheres := s.adheres.remove g, useCnt := u }
        else some { s with adheres := s.adheres.remove g }

/-! ### The property -/

/-- The `unsetUse` calls an operation issues: the chunk each one goes to beside the chunk
its use was taken on. -/
def unsets (s : State ι κ) : Event ι κ → List (Option Nat × Option Nat)
  | .assign g _ none =>
      match s.adheres.get? g with
      | some a => released a (chunkOf s a.data)
      | none => []
  | .destroy g =>
      match s.adheres.get? g with
      | some a => if emptyData s a.data then [] else released a (chunkOf s a.data)
      | none => []
  | _ => []
where
  released (a : AdhereTo ι) (target : Option Nat) : List (Option Nat × Option Nat) :=
    (if a.loadedReadable then [(target, a.readableOn)] else []) ++
      (if a.loadedWritable then [(target, a.writableOn)] else [])

/-- The number of flags behind which there is a use on chunk `c`. -/
def flagsOn (c : Nat) (a : AdhereTo ι) : Nat :=
  (if a.loadedReadable ∧ a.readableOn = some c then 1 else 0) +
    (if a.loadedWritable ∧ a.writableOn = some c then 1 else 0)

/-- Every use is going to be released where it was taken, every counter is the number of
flags, and the chunk of a use is there. -/
def UsesKept (s : State ι κ) : Prop :=
  (∀ e, ∀ call ∈ unsets s e, call.1 = call.2) ∧
    (∀ c, (s.useCnt c).toNat = s.adheres.total (flagsOn c)) ∧
    ∀ c, s.useCnt c ≠ 0 → s.owner.heap.registered c = true

/-! ### The condition -/

/-- Room for as many uses on chunk `c` as `ref` has flags. -/
def roomFor (u : Nat → UInt16) (c : Option Nat) (n : Nat) : Bool :=
  match c with
  | some c => (u c).toNat + n < 2 ^ 16
  | none => true

/-- No object is assigned another chunk while it is in use, unless the assignment throws; no
use counter is raised past its width; and a call throws only where it leaves as many uses
as flags. -/
def Careful (s : State ι κ) : Event ι κ → Prop
  | .ptr (.assign p ref) => assignThrows s p ref = true ∨
      (inUse s p = true → chunkOf s ref = chunkOf s p)
  | .ptr _ | .constructThrows _ | .construct _ _ | .destroy _ => True
  | .deleteThrows p _ inSetUse => inSetUse = false ∧ roomFor s.useCnt (chunkOf s p) 1 = true
  | .copy _ ref throws => throws = none ∧
      ∀ r ∈ s.adheres.get? ref, roomFor s.useCnt (chunkOf s r.data) r.loaded.toNat = true
  | .assign g ref throws => throws.any Call.first = false ∧
      ∀ a ∈ s.adheres.get? g, ∀ r ∈ s.adheres.get? ref,
        (throws = some .setWritable → r.loadedReadable = false) ∧
          ∀ u ∈ dropFlags s.useCnt (chunkOf s a.data) a,
            roomFor u (chunkOf s r.data) r.loaded.toNat = true
  | .pull g writable => ∀ a ∈ s.adheres.get? g,
      (if writable then a.loadedWritable else a.loadedReadable) = true ∨
        roomFor s.useCnt (chunkOf s a.data) 1 = true

instance (s : State ι κ) (e : Event ι κ) : Decidable (Careful s e) := by
  unfold Careful
  split <;> infer_instance

/-! ### Counting -/

omit [DecidableEq ι] in
theorem loaded_eq (a : AdhereTo ι) :
    a.loaded = (if a.loadedReadable then 1 else 0) + (if a.loadedWritable then 1 else 0) := by
  unfold AdhereTo.loaded Rambrain.AdhereTo.loaded
  cases a.loadedReadable <;> cases a.loadedWritable <;> rfl

omit [DecidableEq ι] in
theorem loaded_toNat (a : AdhereTo ι) :
    a.loaded.toNat =
      (if a.loadedReadable then 1 else 0) + (if a.loadedWritable then 1 else 0) := by
  rw [loaded_eq]
  cases a.loadedReadable <;> cases a.loadedWritable <;> rfl

omit [DecidableEq ι] in
/-- When the uses of an object are on `c`, its flags count there and nowhere else. -/
theorem flagsOn_eq {a : AdhereTo ι} {c : Option Nat}
    (readable : a.loadedReadable = true → a.readableOn = c)
    (writable : a.loadedWritable = true → a.writableOn = c) (d : Nat) :
    flagsOn d a = if c = some d then a.loaded.toNat else 0 := by
  rw [loaded_toNat]
  unfold flagsOn
  cases r : a.loadedReadable <;> cases w : a.loadedWritable <;>
    simp [r, w] at readable writable ⊢ <;> (simp [readable, writable]; try (split <;> rfl))

omit [DecidableEq ι] in
theorem flagsOn_retaken {r : AdhereTo ι} {throws : Option Call} (c : Option Nat)
    (all : throws = some .setWritable → r.loadedReadable = false) (d : Nat) :
    flagsOn d (r.retaken c throws) = if c = some d then r.loaded.toNat else 0 := by
  refine flagsOn_eq (a := r.retaken c throws) (fun set => if_pos ⟨set, fun is => ?_⟩)
    (fun set => if_pos set) d
  have set : r.loadedReadable = true := set
  rw [all is] at set
  cases set

theorem takeUse_spec {u u' : Nat → UInt16} {c : Option Nat} {flag : Bool}
    (taken : takeUse u c flag = some u') :
    (flag = true → c.isSome) ∧ ∀ d, u' d = u d + if c = some d ∧ flag = true then 1 else 0 := by
  cases flag with
  | false =>
      cases taken
      simp
  | true =>
      obtain ⟨e, rfl, rfl⟩ := Option.map_eq_some_iff.mp taken
      refine ⟨fun _ => rfl, fun d => ?_⟩
      rw [Function.update_apply]
      by_cases same : d = e
      · simp [same]
      · simp [same, Ne.symm same]

omit [DecidableEq ι] in
/-- Taking a use for each flag raises the counter of the one chunk by the number of flags. -/
theorem takeFlags_spec {u u' : Nat → UInt16} {c : Option Nat} {r : AdhereTo ι}
    (taken : takeFlags u c r = some u') :
    (r.loadedReadable = true ∨ r.loadedWritable = true → c.isSome) ∧
      ∀ d, u' d = u d + if c = some d then r.loaded else 0 := by
  obtain ⟨v, first, second⟩ := Option.bind_eq_some_iff.mp taken
  obtain ⟨someW, countW⟩ := takeUse_spec first
  obtain ⟨someR, countR⟩ := takeUse_spec second
  refine ⟨fun set => set.elim someR someW, fun d => ?_⟩
  rw [countR, countW, UInt16.add_assoc, loaded_eq]
  congr 1
  by_cases here : c = some d
  · cases r.loadedReadable <;> cases r.loadedWritable <;> simp [here]
  · simp [here]

omit [DecidableEq ι] in
/-- A call that throws with nothing left to take has taken all. -/
theorem takeFlags_of_takeUntil {u u' : Nat → UInt16} {c : Option Nat} {r : AdhereTo ι}
    {throws : Option Call} (all : throws = some .setWritable → r.loadedReadable = false)
    (taken : takeUntil u c r throws = some u') : takeFlags u c r = some u' := by
  cases throws with
  | none => exact taken
  | some call =>
      cases call with
      | unsetReadable => cases taken
      | unsetWritable => cases taken
      | setWritable =>
          simp only [takeUntil] at taken
          split at taken
          · rename_i writable
            rw [takeFlags, writable, taken, all rfl]
            rfl
          · cases taken
      | setReadable =>
          simp only [takeUntil] at taken
          split at taken
          · exact taken
          · cases taken

omit [DecidableEq ι] in
theorem dropUntil_eq {u : Nat → UInt16} {c : Option Nat} {a : AdhereTo ι} {throws : Option Call}
    (behind : throws.any Call.first = false) : dropUntil u c a throws = dropFlags u c a := by
  cases throws with
  | none => rfl
  | some call =>
      cases call with
      | unsetReadable => cases behind
      | unsetWritable => cases behind
      | setWritable => rfl
      | setReadable => rfl

section
variable {s : State ι κ} {q : ι}

omit [DecidableEq κ] in
theorem usable_eq (present : (usable s q).isSome) : usable s q = chunkOf s q := by
  obtain ⟨c, is⟩ := Option.isSome_iff_exists.mp present
  rw [is, (Option.filter_eq_some_iff.mp is).1]

omit [DecidableEq κ] in
theorem registered_of_usable {c : Nat} (is : usable s q = some c) :
    s.owner.heap.registered c = true := (Option.filter_eq_some_iff.mp is).2

omit [DecidableEq κ] in
theorem roomFor_usable {u : Nat → UInt16} {n : Nat} (room : roomFor u (chunkOf s q) n = true) :
    roomFor u (usable s q) n = true := by
  cases is : usable s q with
  | none => rfl
  | some c =>
      rw [← is, usable_eq (by rw [is]; rfl)]
      exact room

end

theorem dropUses_spec {u u' : Nat → UInt16} {c : Option Nat} {n : UInt16}
    (dropped : dropUses u c n = some u') :
    ∀ d, (u' d).toNat + (if c = some d then n.toNat else 0) = (u d).toNat := by
  obtain ⟨e, rfl, rest⟩ := Option.bind_eq_some_iff.mp dropped
  intro d
  split at rest
  · cases rest
  · rename_i enough
    cases rest
    rw [UInt16.not_lt] at enough
    rw [Function.update_apply]
    by_cases same : d = e
    · have le : n.toNat ≤ (u e).toNat := UInt16.le_iff_toNat_le.mp enough
      simp only [same, if_true, UInt16.toNat_sub_of_le _ _ enough]
      omega
    · simp [same, Ne.symm same]

theorem dropUse_spec {u u' : Nat → UInt16} {c : Option Nat} {flag : Bool}
    (dropped : dropUse u c flag = some u') :
    ∀ d, (u' d).toNat + (if c = some d ∧ flag = true then 1 else 0) = (u d).toNat := by
  intro d
  cases flag with
  | false =>
      cases dropped
      simp
  | true => simpa using dropUses_spec (n := 1) dropped d

omit [DecidableEq ι] in
theorem dropFlags_spec {u u' : Nat → UInt16} {c : Option Nat} {a : AdhereTo ι}
    (dropped : dropFlags u c a = some u') :
    ∀ d, (u' d).toNat + (if c = some d then a.loaded.toNat else 0) = (u d).toNat := by
  obtain ⟨v, first, second⟩ := Option.bind_eq_some_iff.mp dropped
  intro d
  have one := dropUse_spec first d
  have two := dropUse_spec second d
  rw [loaded_toNat]
  by_cases here : c = some d
  · cases hr : a.loadedReadable <;> cases hw : a.loadedWritable <;>
      simp [here, hr, hw] at one two ⊢ <;> omega
  · simp [here] at one two ⊢
    omega

/-! ### The invariant -/

/-- The uses of an object are on the chunk its `managedPtr` holds. -/
structure Placed (s : State ι κ) (a : AdhereTo ι) : Prop where
  data : ∃ m, s.owner.live.get? a.data = some m
  readable : a.loadedReadable = true → (chunkOf s a.data).isSome ∧ a.readableOn = chunkOf s a.data
  writable : a.loadedWritable = true → (chunkOf s a.data).isSome ∧ a.writableOn = chunkOf s a.data

structure Inv (s : State ι κ) : Prop where
  nElem : ∀ p m, s.owner.live.get? p = some m → (m.nElem = 0 ↔ m.chunk = none)
  placed : ∀ g a, s.adheres.get? g = some a → Placed s a
  counts : ∀ c, (s.useCnt c).toNat = s.adheres.total (flagsOn c)
  used : ∀ c, s.useCnt c ≠ 0 → s.owner.heap.registered c = true

omit [DecidableEq ι] [DecidableEq κ] in
theorem Placed.flagsOn {s : State ι κ} {a : AdhereTo ι} [DecidableEq ι] (h : Placed s a)
    (d : Nat) : flagsOn d a = if chunkOf s a.data = some d then a.loaded.toNat else 0 :=
  flagsOn_eq (fun set => (h.readable set).2) (fun set => (h.writable set).2) d

theorem inv_init : Inv (State.init : State ι κ) :=
  ⟨fun _ _ found => (by cases found), fun _ _ found => (by cases found), fun _ => rfl,
    fun _ used => absurd rfl used⟩

theorem Inv.usesKept {s : State ι κ} (inv : Inv s) : UsesKept s := by
  refine ⟨fun e call mem => ?_, inv.counts, inv.used⟩
  have released : ∀ g a, s.adheres.get? g = some a →
      call ∈ unsets.released a (chunkOf s a.data) → call.1 = call.2 := by
    intro g a found mem
    have placed := inv.placed g a found
    rcases List.mem_append.mp mem with mem | mem
    · split at mem
      · rename_i set
        rw [List.mem_singleton.mp mem, (placed.readable set).2]
      · cases mem
    · split at mem
      · rename_i set
        rw [List.mem_singleton.mp mem, (placed.writable set).2]
      · cases mem
  cases e with
  | assign g ref throws =>
      cases throws with
      | none =>
          simp only [unsets] at mem
          split at mem
          · rename_i a found
            exact released g a found mem
          · cases mem
      | some call => cases mem
  | destroy g =>
      simp only [unsets] at mem
      split at mem
      · rename_i a found
        split at mem
        · cases mem
        · exact released g a found mem
      · cases mem
  | _ => cases mem

/-! ### One operation -/

omit [DecidableEq ι] in
/-- With room for them, the uses taken are counted without wrapping. -/
theorem takeFlags_toNat {u u' : Nat → UInt16} {c : Option Nat} {r : AdhereTo ι}
    (taken : takeFlags u c r = some u') (room : roomFor u c r.loaded.toNat = true) (d : Nat) :
    (u' d).toNat = (u d).toNat + if c = some d then r.loaded.toNat else 0 := by
  rw [(takeFlags_spec taken).2]
  by_cases here : c = some d
  · subst here
    have fits : (u d).toNat + r.loaded.toNat < 2 ^ 16 := of_decide_eq_true room
    rw [if_pos rfl, if_pos rfl, UInt16.toNat_add]
    exact Nat.mod_eq_of_lt fits
  · rw [if_neg here, if_neg here]
    simp

omit [DecidableEq ι] in
/-- Where uses are taken, the chunk is there. -/
theorem takeFlags_present {u u' : Nat → UInt16} {c : Option Nat} {r : AdhereTo ι}
    (taken : takeFlags u c r = some u') (d : Nat) : u' d = u d ∨ c = some d := by
  rw [(takeFlags_spec taken).2]
  by_cases here : c = some d
  · exact .inr here
  · rw [if_neg here, UInt16.add_zero]
    exact .inl rfl

omit [DecidableEq κ] in
/-- The object made by a copy or an assignment, its uses taken. -/
theorem placed_retaken {s : State ι κ} {u u' : Nat → UInt16} {r : AdhereTo ι}
    {throws : Option Call} (h : Placed s r)
    (all : throws = some .setWritable → r.loadedReadable = false)
    (taken : takeFlags u (usable s r.data) r = some u') :
    Placed s (r.retaken (usable s r.data) throws) := by
  obtain ⟨present, _⟩ := takeFlags_spec taken
  refine ⟨h.data, fun set => ?_, fun set => ?_⟩
  · have here := usable_eq (present (.inl set))
    have not : throws ≠ some .setWritable := fun is => by
      rw [show r.loadedReadable = true from set] at all
      cases all is
    exact ⟨here ▸ present (.inl set), (if_pos ⟨set, not⟩).trans here⟩
  · have here := usable_eq (present (.inr set))
    exact ⟨here ▸ present (.inr set), (if_pos set).trans here⟩

/-- The adhering objects and the counters may change while the pointers stay. -/
theorem Inv.adheres {s : State ι κ} (inv : Inv s) (adheres : Lib.Table κ (AdhereTo ι))
    (u : Nat → UInt16) (placed : ∀ g a, adheres.get? g = some a → Placed s a)
    (counts : ∀ c, (u c).toNat = adheres.total (flagsOn c))
    (used : ∀ c, u c ≠ 0 → s.owner.heap.registered c = true) :
    Inv { s with adheres := adheres, useCnt := u } :=
  ⟨inv.nElem, fun g a found =>
    ⟨(placed g a found).data, (placed g a found).readable, (placed g a found).writable⟩, counts,
    used⟩

theorem Inv.put_placed {s : State ι κ} (inv : Inv s) {g : κ} {a : AdhereTo ι} (h : Placed s a) :
    ∀ g' a', (s.adheres.put g a).get? g' = some a' → Placed s a' := by
  intro g' a' found
  rw [Lib.Table.get?_put] at found
  split at found
  · cases found
    exact h
  · exact inv.placed g' a' found

/-- A counter that was not raised on a usable chunk was not lower before. -/
theorem Inv.used_of {s : State ι κ} (inv : Inv s) {u : Nat → UInt16} {q : ι}
    (changed : ∀ d, (u d).toNat ≤ (s.useCnt d).toNat ∨ usable s q = some d) :
    ∀ c, u c ≠ 0 → s.owner.heap.registered c = true := by
  intro c used
  rcases changed c with le | here
  · apply inv.used c
    rintro zero
    rw [zero] at le
    exact used (UInt16.toNat_inj.mp (Nat.le_zero.mp le))
  · exact registered_of_usable here

theorem inv_copy {s t : State ι κ} {g ref : κ} {throws : Option Call} (inv : Inv s)
    (ok : Careful s (.copy g ref throws)) (taken : step s (.copy g ref throws) = some t) :
    Inv t := by
  obtain ⟨rfl, room⟩ := ok
  simp only [step] at taken
  split at taken
  · rename_i absent
    obtain ⟨r, found, rest⟩ := Option.bind_eq_some_iff.mp taken
    obtain ⟨u, takes, rfl⟩ := Option.map_eq_some_iff.mp rest
    have takes : takeFlags s.useCnt (usable s r.data) r = some u := takes
    have room := roomFor_usable (room r found)
    have all : (none : Option Call) = some .setWritable → r.loadedReadable = false := by
      intro is
      cases is
    have placed := placed_retaken (inv.placed ref r found) all takes
    refine inv.adheres _ u (inv.put_placed placed) (fun c => ?_) (inv.used_of (q := r.data) ?_)
    · rw [Lib.Table.total_put_new _ absent, flagsOn_retaken _ all, takeFlags_toNat takes room,
        inv.counts, Nat.add_comm]
    · exact fun d => (takeFlags_present takes d).imp_left fun same => (congrArg _ same).le
  · cases taken

theorem inv_assign {s t : State ι κ} {g ref : κ} {throws : Option Call} (inv : Inv s)
    (ok : Careful s (.assign g ref throws)) (taken : step s (.assign g ref throws) = some t) :
    Inv t := by
  obtain ⟨behind, ok⟩ := ok
  obtain ⟨a, old, rest⟩ := Option.bind_eq_some_iff.mp taken
  obtain ⟨r, found, rest⟩ := Option.bind_eq_some_iff.mp rest
  obtain ⟨u, drops, rest⟩ := Option.bind_eq_some_iff.mp rest
  rw [dropUntil_eq behind] at drops
  rw [behind] at rest
  obtain ⟨u', upTo, rfl⟩ := Option.map_eq_some_iff.mp rest
  obtain ⟨all, room⟩ := ok a old r found
  have takes := takeFlags_of_takeUntil all upTo
  have room := roomFor_usable (room u drops)
  have placed := placed_retaken (inv.placed ref r found) all takes
  refine inv.adheres _ u' (inv.put_placed placed) (fun c => ?_) (inv.used_of (q := r.data) ?_)
  · have dropped := dropFlags_spec drops c
    have left := Lib.Table.total_remove (flagsOn c) old
    rw [(inv.placed g a old).flagsOn] at left
    rw [Lib.Table.total_put_remove, flagsOn_retaken _ all, takeFlags_toNat takes room]
    have := inv.counts c
    omega
  · intro d
    have dropped := dropFlags_spec drops d
    exact (takeFlags_present takes d).imp_left fun same => by rw [same]; omega

/-- Setting one more flag on an object adds one to the counter of its chunk. -/
theorem inv_set {s : State ι κ} {g : κ} {a b : AdhereTo ι} {u : Nat → UInt16} (inv : Inv s)
    (old : s.adheres.get? g = some a) (room : roomFor s.useCnt (chunkOf s a.data) 1 = true)
    (takes : takeUse s.useCnt (usable s a.data) true = some u) (placed : Placed s b)
    (more : ∀ d, flagsOn d b = flagsOn d a + if usable s a.data = some d then 1 else 0) :
    Inv { s with adheres := s.adheres.put g b, useCnt := u } := by
  have count := (takeUse_spec takes).2
  refine inv.adheres _ u (inv.put_placed placed) (fun c => ?_) (inv.used_of (q := a.data) ?_)
  · have left := Lib.Table.total_remove (flagsOn c) old
    have := inv.counts c
    rw [Lib.Table.total_put_remove, more, count]
    by_cases here : usable s a.data = some c
    · have room := roomFor_usable room
      rw [here] at room
      have fits : (s.useCnt c).toNat + 1 < 2 ^ 16 := of_decide_eq_true room
      rw [if_pos ⟨here, rfl⟩, if_pos here, UInt16.toNat_add]
      show ((s.useCnt c).toNat + 1) % 2 ^ 16 = _
      omega
    · rw [if_neg fun both => here both.1, if_neg here]
      simp only [UInt16.add_zero]
      omega
  · intro d
    by_cases here : usable s a.data = some d
    · exact .inr here
    · rw [count, if_neg fun both => here both.1, UInt16.add_zero]
      exact .inl le_rfl

theorem inv_pull {s t : State ι κ} {g : κ} {writable : Bool} (inv : Inv s)
    (ok : Careful s (.pull g writable)) (taken : step s (.pull g writable) = some t) : Inv t := by
  obtain ⟨a, old, rest⟩ := Option.bind_eq_some_iff.mp taken
  have ok := ok a old
  have placed := inv.placed g a old
  have present : ∀ {u}, takeUse s.useCnt (usable s a.data) true = some u →
      (chunkOf s a.data).isSome ∧ usable s a.data = chunkOf s a.data := fun takes => by
    have here := usable_eq ((takeUse_spec takes).1 rfl)
    exact ⟨here ▸ (takeUse_spec takes).1 rfl, here⟩
  split at rest
  · cases rest
    exact inv
  · split at rest
    · rename_i isWritable
      split at rest
      · cases rest
        exact inv
      · rename_i unset
        rw [if_pos isWritable] at ok
        obtain ⟨u, takes, rfl⟩ := Option.map_eq_some_iff.mp rest
        refine inv_set inv old (ok.resolve_left unset) takes
          ⟨placed.data, placed.readable, fun _ => present takes⟩ fun d => ?_
        simp only [flagsOn, unset, true_and]
        simp
    · rename_i isReadable
      split at rest
      · cases rest
        exact inv
      · rename_i unset
        rw [if_neg isReadable] at ok
        obtain ⟨u, takes, rfl⟩ := Option.map_eq_some_iff.mp rest
        refine inv_set inv old (ok.resolve_left unset) takes
          ⟨placed.data, fun _ => present takes, placed.writable⟩ fun d => ?_
        simp only [flagsOn, unset, true_and]
        simp [Nat.add_comm]

/-- An object with a flag set has data. -/
theorem not_emptyData {s : State ι κ} {a : AdhereTo ι} (inv : Inv s)
    (present : (chunkOf s a.data).isSome) : emptyData s a.data = false := by
  unfold emptyData chunkOf at *
  cases held : s.owner.live.get? a.data with
  | none => rfl
  | some m =>
      rw [held] at present
      have chunk : m.chunk.isSome := present
      refine beq_eq_false_iff_ne.mpr fun zero => ?_
      rw [(inv.nElem a.data m held).mp zero] at chunk
      cases chunk

theorem inv_destroy {s t : State ι κ} {g : κ} (inv : Inv s)
    (taken : step s (.destroy g) = some t) : Inv t := by
  obtain ⟨a, old, rest⟩ := Option.bind_eq_some_iff.mp taken
  have placed := inv.placed g a old
  have others : ∀ g' a', (s.adheres.remove g).get? g' = some a' → Placed s a' :=
    fun g' a' found => inv.placed g' a' (Lib.Table.of_get?_remove found).2
  split at rest
  · obtain ⟨u, drops, rfl⟩ := Option.map_eq_some_iff.mp rest
    refine inv.adheres _ u others (fun c => ?_) (inv.used_of (q := a.data) fun d => ?_)
    · have left := Lib.Table.total_remove (flagsOn c) old
      rw [placed.flagsOn] at left
      have := dropUses_spec drops c
      have := inv.counts c
      omega
    · have := dropUses_spec drops d
      left
      omega
  · rename_i quiet
    cases rest
    refine inv.adheres _ s.useCnt others (fun c => ?_) inv.used
    have unset : a.loadedReadable = false ∧ a.loadedWritable = false := by
      constructor
      · refine Bool.eq_false_iff.mpr fun set =>
          quiet ⟨?_, not_emptyData inv (placed.readable set).1⟩
        cases w : a.loadedWritable <;> simp [loaded_eq, set, w]
      · refine Bool.eq_false_iff.mpr fun set =>
          quiet ⟨?_, not_emptyData inv (placed.writable set).1⟩
        cases r : a.loadedReadable <;> simp [loaded_eq, set, r]
    have left := Lib.Table.total_remove (flagsOn c) old
    have none : flagsOn c a = 0 := by simp [flagsOn, unset]
    rw [inv.counts]
    omega

/-- The pointers may change as long as the objects in use keep their chunks. -/
theorem Inv.repointed {s : State ι κ} (inv : Inv s) {o : Ownership.State ι}
    (nElem : ∀ p m, o.live.get? p = some m → (m.nElem = 0 ↔ m.chunk = none))
    (alive : ∀ g a, s.adheres.get? g = some a → (o.live.get? a.data).isSome)
    (kept : ∀ g a, s.adheres.get? g = some a → a.loadedReadable = true ∨ a.loadedWritable = true →
      (o.live.get? a.data).bind (·.chunk) = chunkOf s a.data)
    (used : ∀ c, s.useCnt c ≠ 0 → o.heap.registered c = true) :
    Inv { s with owner := o } := by
  refine ⟨nElem, fun g a found => ⟨?_, fun set => ?_, fun set => ?_⟩, inv.counts, used⟩
  · exact Option.isSome_iff_exists.mp (alive g a found)
  · show ((o.live.get? a.data).bind (·.chunk)).isSome ∧ _ = (o.live.get? a.data).bind (·.chunk)
    rw [kept g a found (.inl set)]
    exact (inv.placed g a found).readable set
  · show ((o.live.get? a.data).bind (·.chunk)).isSome ∧ _ = (o.live.get? a.data).bind (·.chunk)
    rw [kept g a found (.inr set)]
    exact (inv.placed g a found).writable set

omit [DecidableEq κ] in
theorem inUse_of_flag [DecidableEq κ] {s : State ι κ} {g : κ} {a : AdhereTo ι}
    (found : s.adheres.get? g = some a)
    (set : a.loadedReadable = true ∨ a.loadedWritable = true) : inUse s a.data = true := by
  refine List.any_eq_true.mpr ⟨(g, a), Lib.Table.mem_of_get? found, ?_⟩
  rcases set with set | set <;> simp [set]

theorem adhered_of_found {s : State ι κ} {g : κ} {a : AdhereTo ι}
    (found : s.adheres.get? g = some a) : adhered s a.data = true :=
  List.any_eq_true.mpr ⟨(g, a), Lib.Table.mem_of_get? found, by simp⟩

/-- The object an operation makes is new, so no `adhereTo` was made from it. -/
theorem data_ne_of_absent {s : State ι κ} (inv : Inv s) {p : ι}
    (absent : s.owner.live.get? p = none) {g : κ} {a : AdhereTo ι}
    (found : s.adheres.get? g = some a) : a.data ≠ p := by
  rintro rfl
  obtain ⟨m, held⟩ := (inv.placed g a found).data
  rw [absent] at held
  cases held

/-- An object holds a chunk exactly if it has elements. -/
theorem nElem_step {o t : Ownership.State ι} {e : Ownership.Event ι}
    (nElem : ∀ p m, o.live.get? p = some m → (m.nElem = 0 ↔ m.chunk = none))
    (moved : Ownership.step o e = some t) :
    ∀ p m, t.live.get? p = some m → (m.nElem = 0 ↔ m.chunk = none) := by
  have put : ∀ p m, (m.nElem = 0 ↔ m.chunk = none) →
      ∀ q n, (o.live.put p m).get? q = some n → (n.nElem = 0 ↔ n.chunk = none) := by
    intro p m is q n held
    rw [Lib.Table.get?_put] at held
    split at held
    · cases held
      exact is
    · exact nElem q n held
  cases e with
  | construct p n =>
      simp only [Ownership.step] at moved
      split at moved
      · cases moved
        refine put p _ ?_
        unfold Ownership.construct
        split_ifs with zero <;> simp [zero]
      · cases moved
  | copy p ref =>
      simp only [Ownership.step] at moved
      split at moved
      · obtain ⟨r, right, adopted⟩ := Option.bind_eq_some_iff.mp moved
        obtain ⟨h, _, rfl⟩ := Ownership.adopt_eq_some adopted
        exact put p r (nElem ref r right)
      · cases moved
  | assign p ref =>
      obtain ⟨l, _, rest⟩ := Option.bind_eq_some_iff.mp moved
      obtain ⟨r, right, assigned⟩ := Option.bind_eq_some_iff.mp rest
      rcases Ownership.assign_cases assigned with ⟨_, _, rfl⟩ | ⟨_, _, h, h', _, _, rfl⟩ |
        ⟨_, h, _, rfl⟩
      · exact nElem
      · exact put p r (nElem ref r right)
      · exact put p r (nElem ref r right)
  | destroy p =>
      obtain ⟨m, _, rest⟩ := Option.bind_eq_some_iff.mp moved
      obtain ⟨h, _, rfl⟩ := Option.map_eq_some_iff.mp rest
      exact fun q n held => nElem q n (Lib.Table.of_get?_remove held).2

/-- Releasing an object frees its own chunk only, and only as the last one. -/
theorem registered_subFetch {h h' : Heap} {m : ManagedPtr} {c : Nat}
    (nElem : m.nElem = 0 ↔ m.chunk = none) (taken : Ownership.subFetch h m = some h')
    (was : h.registered c = true) :
    h'.registered c = true ∨ (m.chunk = some c ∧ h.tracker m.tracker = some 1) := by
  obtain ⟨v, tracked, _⟩ := Option.map_eq_some_iff.mp taken
  obtain ⟨_, _, _, registered, _⟩ := Ownership.subFetch_spec nElem tracked taken
  rw [registered]
  split_ifs with last
  · exact .inr ⟨last.2, by rw [tracked, sub_eq_zero.mp last.1]⟩
  · exact .inl was

theorem registered_addFetch {h h' : Heap} {t : Nat} (taken : Ownership.addFetch h t = some h') :
    h'.registered = h.registered := by
  obtain ⟨v, _, rfl⟩ := Option.map_eq_some_iff.mp taken
  rfl

theorem registered_construct {h : Heap} {n : UInt32} {c : Nat} (was : h.registered c = true) :
    (Ownership.construct h n).2.registered c = true := by
  unfold Ownership.construct
  split_ifs
  · exact was
  · show Function.update h.registered h.nextChunk true c = true
    rw [Function.update_apply]
    split_ifs
    · rfl
    · exact was

/-- An operation on pointers keeps the uses when its target is not in use. -/
theorem inv_ptrStep {s t : State ι κ} {e : Ownership.Event ι} (inv : Inv s)
    (taken : ptrStep s e = some t)
    (survives : ∀ g a, s.adheres.get? g = some a → ∀ p, e = .destroy p → a.data ≠ p)
    (kept : ∀ o, Ownership.step s.owner e = some o → ∀ g a, s.adheres.get? g = some a →
      a.loadedReadable = true ∨ a.loadedWritable = true → a.data = e.target →
      (o.live.get? a.data).bind (·.chunk) = chunkOf s a.data)
    (used : ∀ o, Ownership.step s.owner e = some o →
      ∀ c, s.useCnt c ≠ 0 → o.heap.registered c = true) : Inv t := by
  obtain ⟨o, moved, rfl⟩ := Option.map_eq_some_iff.mp taken
  refine inv.repointed (nElem_step inv.nElem moved) ?_ ?_ (used o moved)
  · intro g a found
    exact Ownership.step_get?_isSome moved
      (Option.isSome_iff_exists.mpr (inv.placed g a found).data) (survives g a found)
  · intro g a found set
    by_cases self : a.data = e.target
    · exact kept o moved g a found set self
    · rw [Ownership.step_get? moved self]
      rfl

theorem inv_construct {s t : State ι κ} {p : ι} {n : UInt32} (inv : Inv s)
    (taken : ptrStep s (.construct p n) = some t) : Inv t := by
  refine inv_ptrStep inv taken (fun _ _ _ _ no => (by cases no)) ?_ ?_
  · intro o moved g a found _ self
    simp only [Ownership.step] at moved
    split at moved
    · rename_i absent
      exact absurd self (data_ne_of_absent inv absent found)
    · cases moved
  · intro o moved c used
    simp only [Ownership.step] at moved
    split at moved
    · cases moved
      exact registered_construct (inv.used c used)
    · cases moved

theorem inv_copyPtr {s t : State ι κ} {p ref : ι} (inv : Inv s)
    (taken : ptrStep s (.copy p ref) = some t) : Inv t := by
  refine inv_ptrStep inv taken (fun _ _ _ _ no => (by cases no)) ?_ ?_
  · intro o moved g a found _ self
    simp only [Ownership.step] at moved
    split at moved
    · rename_i absent
      exact absurd self (data_ne_of_absent inv absent found)
    · cases moved
  · intro o moved c used
    simp only [Ownership.step] at moved
    split at moved
    · obtain ⟨r, _, adopted⟩ := Option.bind_eq_some_iff.mp moved
      obtain ⟨h, fetched, rfl⟩ := Ownership.adopt_eq_some adopted
      show h.registered c = true
      rw [registered_addFetch fetched]
      exact inv.used c used
    · cases moved

/-- An assignment that does not throw: what is in use keeps its chunk, and the chunk that is
freed is not in use. -/
theorem inv_assignPtr {s t : State ι κ} {p ref : ι} (inv : Inv s)
    (calm : assignThrows s p ref = false)
    (ok : inUse s p = true → chunkOf s ref = chunkOf s p)
    (taken : ptrStep s (.assign p ref) = some t) : Inv t := by
  refine inv_ptrStep inv taken (fun _ _ _ _ no => (by cases no)) ?_ ?_
  · intro o moved g a found set self
    have here : a.data = p := self
    have same := ok (here ▸ inUse_of_flag found set)
    obtain ⟨l, left, rest⟩ := Option.bind_eq_some_iff.mp moved
    obtain ⟨r, right, assigned⟩ := Option.bind_eq_some_iff.mp rest
    have chunks : r.chunk = l.chunk := by
      unfold chunkOf at same
      rw [left, right] at same
      exact same
    have now : o.live.get? p = some l ∨ o.live.get? p = some r := by
      rcases Ownership.assign_cases assigned with ⟨_, _, rfl⟩ | ⟨_, _, h, h', _, _, rfl⟩ |
        ⟨_, h, _, rfl⟩
      · exact .inl left
      · exact .inr (by rw [Lib.Table.get?_put, if_pos rfl])
      · exact .inr (by rw [Lib.Table.get?_put, if_pos rfl])
    rw [here, chunkOf, left]
    rcases now with now | now
    · rw [now]
    · rw [now]
      exact chunks
  · intro o moved c used
    obtain ⟨l, left, rest⟩ := Option.bind_eq_some_iff.mp moved
    obtain ⟨r, right, assigned⟩ := Option.bind_eq_some_iff.mp rest
    rcases Ownership.assign_cases assigned with ⟨_, _, rfl⟩ |
        ⟨_, other, h, h', lowered, raised, rfl⟩ |
      ⟨_, h, raised, rfl⟩
    · exact inv.used c used
    · show h'.registered c = true
      rw [registered_addFetch raised]
      rcases registered_subFetch (inv.nElem p l left) lowered (inv.used c used) with still | freed
      · exact still
      · have throws : assignThrows s p ref = true := by
          rw [freed.1] at other
          simp [assignThrows, left, right, freed.1, freed.2, other, used]
        rw [calm] at throws
        cases throws
    · show h.registered c = true
      rw [registered_addFetch raised]
      exact inv.used c used

theorem inv_destroyPtr {s t : State ι κ} {p : ι} (inv : Inv s) (alone : adhered s p = false)
    (calm : destroyThrows s p = false) (taken : ptrStep s (.destroy p) = some t) : Inv t := by
  have free : ∀ g a, s.adheres.get? g = some a → a.data ≠ p := by
    rintro g a found rfl
    rw [adhered_of_found found] at alone
    cases alone
  refine inv_ptrStep inv taken ?_ ?_ ?_
  · intro g a found q same
    cases same
    exact free g a found
  · intro o _ g a found _ self
    exact absurd self (free g a found)
  · intro o moved c used
    obtain ⟨m, held, rest⟩ := Option.bind_eq_some_iff.mp moved
    obtain ⟨h, lowered, rfl⟩ := Option.map_eq_some_iff.mp rest
    rcases registered_subFetch (inv.nElem p m held) lowered (inv.used c used) with still | freed
    · exact still
    · have throws : destroyThrows s p = true := by
        simp [destroyThrows, held, freed.1, freed.2, used]
      rw [calm] at throws
      cases throws

/-- An assignment that threw has left the objects and the uses as they were. -/
theorem Inv.lowerTracker {s : State ι κ} (inv : Inv s) (p : ι) : Inv (lowerTracker s p) := by
  unfold Adhere.lowerTracker
  split
  · exact inv.repointed inv.nElem
      (fun g a found => Option.isSome_iff_exists.mpr (inv.placed g a found).data)
      (fun _ _ _ _ => rfl) inv.used
  · exact inv

/-- With room for it, the use that `mDelete` takes is released again. -/
theorem inv_deleteThrows {s t : State ι κ} {p ref : ι} (inv : Inv s)
    (room : roomFor s.useCnt (chunkOf s p) 1 = true)
    (taken : deleteThrows s p ref false = some t) : Inv t := by
  obtain ⟨l, _, taken⟩ := Option.bind_eq_some_iff.mp taken
  obtain ⟨r, _, taken⟩ := Option.bind_eq_some_iff.mp taken
  obtain ⟨c, usable, taken⟩ := Option.bind_eq_some_iff.mp taken
  split at taken
  · have room := roomFor_usable room
    rw [usable] at room
    have fits : (s.useCnt c).toNat + 1 < 2 ^ 16 := of_decide_eq_true room
    have positive : s.useCnt c + 1 ≠ 0 := by
      intro zero
      have wrapped : (s.useCnt c + 1).toNat = 0 := by rw [zero]; rfl
      rw [UInt16.toNat_add] at wrapped
      have one : ((s.useCnt c).toNat + 1) % 2 ^ 16 = 0 := wrapped
      omega
    obtain rfl := Option.some.inj taken
    have same : (lowerTracker s p).useCnt = s.useCnt := by
      unfold lowerTracker
      split <;> rfl
    simp only [Bool.false_eq_true, positive, or_self, if_false, add_sub_cancel_right,
      Function.update_eq_self]
    rw [← same]
    exact inv.lowerTracker p
  · cases taken

theorem inv_ptr {s t : State ι κ} {e : Ownership.Event ι} (inv : Inv s)
    (ok : Careful s (.ptr e)) (taken : step s (.ptr e) = some t) : Inv t := by
  cases e with
  | construct p n => exact inv_construct inv taken
  | copy p ref => exact inv_copyPtr inv taken
  | assign p ref =>
      cases throws : assignThrows s p ref with
      | true =>
          simp only [step, throws, if_true] at taken
          cases taken
          exact inv.lowerTracker p
      | false =>
          simp only [step, throws, Bool.false_eq_true, if_false] at taken
          have ok : inUse s p = true → chunkOf s ref = chunkOf s p := by
            rcases ok with no | ok
            · rw [throws] at no
              cases no
            · exact ok
          exact inv_assignPtr inv throws ok taken
  | destroy p =>
      simp only [step] at taken
      split at taken
      · cases taken
      · rename_i allowed
        rw [not_or, Bool.not_eq_true, Bool.not_eq_true] at allowed
        exact inv_destroyPtr inv allowed.1 allowed.2 taken

/-- Every careful operation keeps the uses where they were taken. -/
theorem inv_step {s t : State ι κ} {e : Event ι κ} (inv : Inv s) (ok : Careful s e)
    (taken : step s e = some t) : Inv t := by
  cases e with
  | ptr e => exact inv_ptr inv ok taken
  | constructThrows n =>
      simp only [step] at taken
      split at taken
      · cases taken
      · cases taken
        exact inv.repointed inv.nElem
          (fun g a found => Option.isSome_iff_exists.mpr (inv.placed g a found).data)
          (fun _ _ _ _ => rfl) fun c used => registered_construct (inv.used c used)
  | deleteThrows p ref inSetUse =>
      obtain ⟨rfl, room⟩ := ok
      exact inv_deleteThrows inv room taken
  | construct g p =>
      simp only [step] at taken
      split at taken
      · rename_i new
        cases taken
        have placed : Placed s (⟨⟨p, false, false⟩, none, none⟩ : AdhereTo ι) :=
          ⟨Option.isSome_iff_exists.mp new.2, fun no => (by cases no), fun no => (by cases no)⟩
        refine inv.adheres _ s.useCnt (inv.put_placed placed) (fun c => ?_) inv.used
        rw [Lib.Table.total_put_new _ new.1, inv.counts]
        simp [flagsOn]
      · cases taken
  | copy g ref throws => exact inv_copy inv ok taken
  | assign g ref throws => exact inv_assign inv ok taken
  | pull g writable => exact inv_pull inv ok taken
  | destroy g => exact inv_destroy inv taken

/-! ### Runs -/

/-- Two pointers to one chunk, an object that has pulled both kinds of pointer from it, and
a copy of that object. A third pointer is in use alone: an assignment to it throws. Last
the copy is assigned, and loading the chunk for it throws. -/
def sharedAndAlone : List (Event Nat Nat) :=
  [.ptr (.construct 0 1), .ptr (.copy 1 0), .construct 0 0, .pull 0 true, .pull 0 false,
    .copy 1 0 none, .ptr (.assign 1 0), .destroy 0, .ptr (.construct 2 1), .construct 2 2,
    .pull 2 false, .ptr (.assign 2 0), .assign 1 2 (some .setReadable)]

end Rambrain.Adhere
