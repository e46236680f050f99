import Rambrain.Lib.Run
import Rambrain.Lib.Table

/-!
Ownership of chunks by `managedPtr<T,1>` objects (`managedPtr.h`).

The objects that hold a chunk share a `tracker`, an `unsigned int` on the heap that
counts them. A zero-length pointer has a tracker but no chunk, and an assignment to
it forgets its old tracker without lowering it.

A chunk is named by its `memoryID`, a tracker by a number of its own; `mmalloc` and
`new` hand out fresh ones. An operation on a deleted tracker or on an object that is
not alive has no result, so that a run contains no undefined behaviour.

`ownership` is the result: as long as no tracker is raised past its width, a chunk is
registered exactly while some live object refers to it, and it is freed once.
-/

namespace Rambrain.Ownership

universe u

/-- The members of `managedPtr<T,1>`. -/
structure ManagedPtr where
  chunk : Option Nat
  tracker : Nat
  nElem : UInt32
  deriving DecidableEq, Repr

/-- What the objects share: the trackers and the manager's registry. -/
structure Heap where
  tracker : Nat → Option UInt32
  nextTracker : Nat
  /-- `memChunks`. -/
  registered : Nat → Bool
  nextChunk : Nat
  /-- How often `mfree` was called on each chunk. -/
  mfreed : Nat → Nat

def Heap.empty : Heap := ⟨fun _ => none, 0, fun _ => false, 0, fun _ => 0⟩

structure State (ι : Type u) where
  live : Lib.Table ι ManagedPtr
  heap : Heap

variable {ι : Type u} [DecidableEq ι]

def State.init : State ι := ⟨.empty, .empty⟩

/-! ### The operations -/

/-- `rambrain_atomic_add_fetch ( tracker, 1 )`. -/
def addFetch (h : Heap) (t : Nat) : Option Heap :=
  (h.tracker t).map fun v => { h with tracker := Function.update h.tracker t (some (v + 1)) }

/-- `mfree ( chunk->id )`. -/
def mfree (h : Heap) (c : Nat) : Heap :=
  { h with
    registered := Function.update h.registered c false
    mfreed := Function.update h.mfreed c (h.mfreed c + 1) }

/-- `mDelete`: frees the chunk if there is one and deletes the tracker. The element
destructors it runs are operations of their own. -/
def mDelete (h : Heap) (m : ManagedPtr) : Heap :=
  let freed :=
    if 0 < m.nElem then
      match m.chunk with
      | some c => mfree h c
      | none => h
    else h
  { freed with tracker := Function.update freed.tracker m.tracker none }

/-- `if ( rambrain_atomic_sub_fetch ( tracker, 1 ) == 0 ) mDelete()`. -/
def subFetch (h : Heap) (m : ManagedPtr) : Option Heap :=
  (h.tracker m.tracker).map fun v =>
    let lowered := { h with tracker := Function.update h.tracker m.tracker (some (v - 1)) }
    if v - 1 = 0 then mDelete lowered m else lowered

/-- The constructor with `n` elements. -/
def construct (h : Heap) (n : UInt32) : ManagedPtr × Heap :=
  let withTracker :=
    { h with
      tracker := Function.update h.tracker h.nextTracker (some 1)
      nextTracker := h.nextTracker + 1 }
  if n = 0 then (⟨none, h.nextTracker, n⟩, withTracker)
  else
    (⟨some h.nextChunk, h.nextTracker, n⟩,
      { withTracker with
        registered := Function.update h.registered h.nextChunk true
        nextChunk := h.nextChunk + 1 })

inductive Event (ι : Type u) where
  | construct (p : ι) (nElem : UInt32)
  | copy (p ref : ι)
  | assign (p ref : ι)
  | destroy (p : ι)

/-- The last lines of the assignment: copy the members, raise the tracker. -/
def adopt (s : State ι) (p : ι) (m : ManagedPtr) : Option (State ι) :=
  (addFetch s.heap m.tracker).map fun h => ⟨s.live.put p m, h⟩

/-- `operator=` for the object `p`, which holds `l`, and the reference `r`. -/
def assign (s : State ι) (p : ι) (l r : ManagedPtr) : Option (State ι) :=
  if l.chunk.isSome then
    if r.chunk = l.chunk then some s
    else (subFetch s.heap l).bind fun h => adopt { s with heap := h } p r
  else adopt s p r

def step (s : State ι) : Event ι → Option (State ι)
  | .construct p n =>
      if s.live.get? p = none then
        some ⟨s.live.put p (construct s.heap n).1, (construct s.heap n).2⟩
      else none
  | .copy p ref =>
      if s.live.get? p = none then (s.live.get? ref).bind fun r => adopt s p r else none
  | .assign p ref =>
      (s.live.get? p).bind fun l => (s.live.get? ref).bind fun r => assign s p l r
  | .destroy p =>
      (s.live.get? p).bind fun m => (subFetch s.heap m).map fun h => ⟨s.live.remove p, h⟩

/-- The objects an operation names are alive, or not yet. -/
def Meaningful (s : State ι) : Event ι → Prop
  | .construct p _ => s.live.get? p = none
  | .copy p ref => s.live.get? p = none ∧ (s.live.get? ref).isSome
  | .assign p ref => (s.live.get? p).isSome ∧ (s.live.get? ref).isSome
  | .destroy p => (s.live.get? p).isSome

/-- The value of the tracker that the operation raises, if it raises one. -/
def raised (s : State ι) : Event ι → Option UInt32
  | .copy _ ref => (s.live.get? ref).bind fun r => s.heap.tracker r.tracker
  | .assign p ref =>
      (s.live.get? p).bind fun l => (s.live.get? ref).bind fun r =>
        if l.chunk.isSome ∧ r.chunk = l.chunk then none else s.heap.tracker r.tracker
  | _ => none

/-- The operation does not raise a tracker that stands at its greatest value. -/
def TrackerFits (s : State ι) (e : Event ι) : Prop := raised s e ≠ some 0xFFFFFFFF

instance (s : State ι) (e : Event ι) : Decidable (TrackerFits s e) := by
  unfold TrackerFits
  infer_instance

/-! ### The invariant -/

/-- The number of objects that share a tracker. -/
def holders (live : Lib.Table ι ManagedPtr) (t : Nat) : Nat :=
  live.total fun m => if m.tracker = t then 1 else 0

/-- The objects in `live` hold the heap together. -/
structure Inv (live : Lib.Table ι ManagedPtr) (h : Heap) : Prop where
  nElem : ∀ p m, live.get? p = some m → (m.nElem = 0 ↔ m.chunk = none)
  allocated : ∀ p m, live.get? p = some m → ∃ v, h.tracker m.tracker = some v
  trackerFresh : ∀ t v, h.tracker t = some v → t < h.nextTracker
  chunkFresh : ∀ p m c, live.get? p = some m → m.chunk = some c → c < h.nextChunk
  sameChunk : ∀ p m q n, live.get? p = some m → live.get? q = some n →
    m.tracker = n.tracker → m.chunk = n.chunk
  sameTracker : ∀ p m q n c, live.get? p = some m → live.get? q = some n →
    m.chunk = some c → n.chunk = some c → m.tracker = n.tracker
  atLeast : ∀ t v, h.tracker t = some v → holders live t ≤ v.toNat
  exactly : ∀ p m v, live.get? p = some m → m.chunk.isSome → h.tracker m.tracker = some v →
    v.toNat = holders live m.tracker
  registered : ∀ c, h.registered c = true ↔ ∃ p m, live.get? p = some m ∧ m.chunk = some c
  mfreed : ∀ c, h.mfreed c = if c < h.nextChunk ∧ h.registered c = false then 1 else 0

theorem inv_empty : Inv (.empty : Lib.Table ι ManagedPtr) .empty := by
  constructor <;> simp [Heap.empty, holders]

theorem holders_put {live : Lib.Table ι ManagedPtr} {p : ι} (absent : live.get? p = none)
    (m : ManagedPtr) (t : Nat) :
    holders (live.put p m) t = (if m.tracker = t then 1 else 0) + holders live t :=
  Lib.Table.total_put_new _ absent m

theorem holders_remove {live : Lib.Table ι ManagedPtr} {p : ι} {m : ManagedPtr}
    (found : live.get? p = some m) (t : Nat) :
    holders (live.remove p) t + (if m.tracker = t then 1 else 0) = holders live t :=
  Lib.Table.total_remove _ found

/-- The tracker of a live object counts at least that object. -/
theorem holders_pos {live : Lib.Table ι ManagedPtr} {p : ι} {m : ManagedPtr}
    (found : live.get? p = some m) : 0 < holders live m.tracker := by
  have := holders_remove found m.tracker
  rw [if_pos rfl] at this
  omega

theorem exists_holder {live : Lib.Table ι ManagedPtr} {t : Nat} (positive : 0 < holders live t) :
    ∃ p m, live.get? p = some m ∧ m.tracker = t := by
  obtain ⟨p, m, found, counts⟩ := Lib.Table.exists_of_total_pos positive
  refine ⟨p, m, found, ?_⟩
  by_contra other
  rw [if_neg other] at counts
  exact absurd counts (Nat.lt_irrefl 0)

/-- Releasing a tracker: what is written where. -/
theorem subFetch_spec {h h' : Heap} {m : ManagedPtr} {v : UInt32}
    (nElem : m.nElem = 0 ↔ m.chunk = none) (tracked : h.tracker m.tracker = some v)
    (taken : subFetch h m = some h') :
    h'.nextTracker = h.nextTracker ∧ h'.nextChunk = h.nextChunk ∧
      (∀ t, h'.tracker t =
        if t = m.tracker then (if v - 1 = 0 then none else some (v - 1)) else h.tracker t) ∧
      (∀ c, h'.registered c = if v - 1 = 0 ∧ m.chunk = some c then false else h.registered c) ∧
      ∀ c, h'.mfreed c = if v - 1 = 0 ∧ m.chunk = some c then h.mfreed c + 1 else h.mfreed c := by
  simp only [subFetch, tracked, Option.map_some, Option.some.injEq] at taken
  subst taken
  by_cases last : v - 1 = 0
  · cases chunk : m.chunk with
    | none =>
        have none : ¬ 0 < m.nElem := by
          rw [nElem.mpr chunk]
          decide
        simp [last, mDelete, none, Function.update_apply]
    | some c =>
        have some : 0 < m.nElem := by
          have : m.nElem ≠ 0 := fun zero => by simp [nElem.mp zero] at chunk
          exact UInt32.pos_iff_ne_zero.mpr this
        simp [last, mDelete, some, chunk, mfree, Function.update_apply, eq_comm]
        grind
  · simp [last, Function.update_apply]

theorem toNat_sub_one {v : UInt32} (positive : 0 < v.toNat) : (v - 1).toNat = v.toNat - 1 := by
  have le : (1 : UInt32) ≤ v := by
    rw [UInt32.le_iff_toNat_le]
    exact positive
  rw [UInt32.toNat_sub_of_le _ _ le]
  rfl

/-! ### Objects that come and go -/

/-- A live object disappears and releases its tracker: `~managedPtr`, and the first
half of an assignment. -/
theorem Inv.drop {live : Lib.Table ι ManagedPtr} {h h' : Heap} (inv : Inv live h) {p : ι}
    {m : ManagedPtr} (found : live.get? p = some m) (taken : subFetch h m = some h') :
    Inv (live.remove p) h' := by
  obtain ⟨v, tracked⟩ := inv.allocated p m found
  obtain ⟨nextTracker, nextChunk, tracker, registered, mfreed⟩ :=
    subFetch_spec (inv.nElem p m found) tracked taken
  have pos : 0 < v.toNat := Nat.lt_of_lt_of_le (holders_pos found) (inv.atLeast _ v tracked)
  have lowered := toNat_sub_one pos
  have zero : v - 1 = 0 ↔ v.toNat = 1 := by
    rw [← UInt32.toNat_inj, lowered]
    show v.toNat - 1 = 0 ↔ _
    omega
  have mine := holders_remove found m.tracker
  rw [if_pos rfl] at mine
  have others : ∀ t, t ≠ m.tracker → holders (live.remove p) t = holders live t := by
    intro t other
    have := holders_remove found t
    rw [if_neg (Ne.symm other)] at this
    omega
  have back : ∀ q n, (live.remove p).get? q = some n → q ≠ p ∧ live.get? q = some n :=
    fun _ _ => Lib.Table.of_get?_remove
  -- The tracker is deleted only when nobody else holds it.
  have shared : ∀ q n, (live.remove p).get? q = some n → n.tracker = m.tracker → v - 1 ≠ 0 := by
    intro q n held same last
    have more := holders_pos held
    have := inv.atLeast _ v tracked
    rw [same] at more
    have := zero.mp last
    omega
  constructor
  · exact fun q n held => inv.nElem q n (back q n held).2
  · intro q n held
    rw [tracker]
    split
    · rename_i same
      exact ⟨v - 1, if_neg (shared q n held same)⟩
    · exact inv.allocated q n (back q n held).2
  · intro t w is
    rw [tracker] at is
    rw [nextTracker]
    split at is
    · rename_i same
      exact same ▸ inv.trackerFresh _ v tracked
    · exact inv.trackerFresh t w is
  · intro q n c held has
    rw [nextChunk]
    exact inv.chunkFresh q n c (back q n held).2 has
  · exact fun q n q' n' held held' =>
      inv.sameChunk q n q' n' (back q n held).2 (back q' n' held').2
  · exact fun q n q' n' c held held' =>
      inv.sameTracker q n q' n' c (back q n held).2 (back q' n' held').2
  · intro t w is
    rw [tracker] at is
    split at is
    · rename_i same
      split at is
      · cases is
      · cases is
        have := inv.atLeast _ v tracked
        rw [same, lowered]
        omega
    · rename_i other
      rw [others t other]
      exact inv.atLeast t w is
  · intro q n w held has is
    rw [tracker] at is
    split at is
    · rename_i same
      rw [if_neg (shared q n held same)] at is
      cases is
      have chunks := inv.sameChunk q n p m (back q n held).2 found same
      have := inv.exactly p m v found (chunks ▸ has) tracked
      rw [same, lowered]
      omega
    · rename_i other
      rw [others _ other]
      exact inv.exactly q n w (back q n held).2 has is
  · intro c
    rw [registered]
    split
    · rename_i last
      refine ⟨fun no => (by cases no), ?_⟩
      rintro ⟨q, n, held, has⟩
      have same := inv.sameTracker q n p m c (back q n held).2 found has last.2
      exact absurd last.1 (shared q n held same)
    · rename_i kept
      rw [inv.registered]
      constructor
      · rintro ⟨q, n, held, has⟩
        by_cases self : q = p
        · subst self
          rw [found] at held
          cases held
          -- The object that goes was not the last one on its chunk.
          have notLast : v - 1 ≠ 0 := fun last => kept ⟨last, has⟩
          have count := inv.exactly q m v found (by rw [has]; rfl) tracked
          have : holders (live.remove q) m.tracker ≠ 0 := fun none => notLast (zero.mpr (by omega))
          obtain ⟨q', n', held', same⟩ := exists_holder (Nat.pos_of_ne_zero this)
          refine ⟨q', n', held', ?_⟩
          rw [inv.sameChunk q' n' q m (back q' n' held').2 found same, has]
        · exact ⟨q, n, by rw [Lib.Table.get?_remove, if_neg self, held], has⟩
      · rintro ⟨q, n, held, has⟩
        exact ⟨q, n, (back q n held).2, has⟩
  · intro c
    rw [mfreed, registered, nextChunk]
    split
    · rename_i last
      have was : h.registered c = true := (inv.registered c).mpr ⟨p, m, found, last.2⟩
      have := inv.mfreed c
      rw [if_neg (fun both => by rw [was] at both; cases both.2)] at this
      rw [this, if_pos ⟨inv.chunkFresh p m c found last.2, rfl⟩]
    · exact inv.mfreed c

/-- A zero-length object may disappear without releasing its tracker, as the left side
of an assignment does. -/
theorem Inv.forget {live : Lib.Table ι ManagedPtr} {h : Heap} (inv : Inv live h) {p : ι}
    {m : ManagedPtr} (found : live.get? p = some m) (empty : m.chunk = none) :
    Inv (live.remove p) h := by
  have back : ∀ q n, (live.remove p).get? q = some n → q ≠ p ∧ live.get? q = some n :=
    fun _ _ => Lib.Table.of_get?_remove
  constructor
  · exact fun q n held => inv.nElem q n (back q n held).2
  · exact fun q n held => inv.allocated q n (back q n held).2
  · exact inv.trackerFresh
  · exact fun q n c held => inv.chunkFresh q n c (back q n held).2
  · exact fun q n q' n' held held' =>
      inv.sameChunk q n q' n' (back q n held).2 (back q' n' held').2
  · exact fun q n q' n' c held held' =>
      inv.sameTracker q n q' n' c (back q n held).2 (back q' n' held').2
  · intro t v tracked
    exact Nat.le_trans (Lib.Table.total_remove_le _ live p) (inv.atLeast t v tracked)
  · intro q n v held has tracked
    have other : m.tracker ≠ n.tracker := by
      intro same
      rw [← inv.sameChunk p m q n found (back q n held).2 same, empty] at has
      cases has
    have := holders_remove found n.tracker
    rw [if_neg other] at this
    rw [inv.exactly q n v (back q n held).2 has tracked]
    omega
  · intro c
    rw [inv.registered]
    constructor
    · rintro ⟨q, n, held, has⟩
      have self : q ≠ p := by
        rintro rfl
        rw [found] at held
        cases held
        rw [empty] at has
        cases has
      exact ⟨q, n, by rw [Lib.Table.get?_remove, if_neg self, held], has⟩
    · rintro ⟨q, n, held, has⟩
      exact ⟨q, n, (back q n held).2, has⟩
  · exact inv.mfreed

theorem addFetch_spec {h h' : Heap} {t : Nat} {v : UInt32} (tracked : h.tracker t = some v)
    (taken : addFetch h t = some h') :
    h' = { h with tracker := Function.update h.tracker t (some (v + 1)) } := by
  rw [addFetch, tracked] at taken
  exact (Option.some.inj taken).symm

theorem toNat_add_one {v : UInt32} (fits : v ≠ 0xFFFFFFFF) : (v + 1).toNat = v.toNat + 1 := by
  have small : v.toNat ≠ 4294967295 := fun same => fits (UInt32.toNat_inj.mp same)
  have bound := v.toNat_lt
  rw [UInt32.toNat_add]
  show (v.toNat + 1) % 2 ^ 32 = _
  omega

/-- An object appears that shares the tracker of `m`: the copy constructor, and the second
half of an assignment. The object `m` is alive, or it is a zero-length one that an
assignment to itself is about to restore. -/
theorem Inv.adopt {live : Lib.Table ι ManagedPtr} {h h' : Heap} (inv : Inv live h) {p : ι}
    {m : ManagedPtr} {v : UInt32} (absent : live.get? p = none)
    (nElem : m.nElem = 0 ↔ m.chunk = none) (tracked : h.tracker m.tracker = some v)
    (fits : v ≠ 0xFFFFFFFF)
    (same : ∀ q n, live.get? q = some n → n.tracker = m.tracker → n.chunk = m.chunk)
    (alive : m.chunk.isSome → ∃ q, live.get? q = some m)
    (taken : addFetch h m.tracker = some h') : Inv (live.put p m) h' := by
  have is : ∀ q n, (live.put p m).get? q = some n →
      (q = p ∧ n = m) ∨ (q ≠ p ∧ live.get? q = some n) := by
    intro q n held
    rw [Lib.Table.get?_put] at held
    split at held
    · cases held
      exact .inl ⟨‹_›, rfl⟩
    · exact .inr ⟨‹_›, held⟩
  have others : ∀ q n, live.get? q = some n → (live.put p m).get? q = some n := by
    intro q n held
    rw [Lib.Table.get?_put, if_neg, held]
    rintro rfl
    rw [absent] at held
    cases held
  rw [addFetch_spec tracked taken]
  have raised := toNat_add_one fits
  constructor
  · intro q n held
    rcases is q n held with ⟨rfl, rfl⟩ | ⟨_, held⟩
    · exact nElem
    · exact inv.nElem q n held
  · intro q n held
    show ∃ w, Function.update h.tracker m.tracker (some (v + 1)) n.tracker = some w
    rw [Function.update_apply]
    split
    · exact ⟨_, rfl⟩
    · rename_i other
      rcases is q n held with ⟨rfl, rfl⟩ | ⟨_, held⟩
      · exact absurd rfl other
      · exact inv.allocated q n held
  · intro t w at'
    replace at' : Function.update h.tracker m.tracker (some (v + 1)) t = some w := at'
    rw [Function.update_apply] at at'
    split at at'
    · rename_i self
      rw [self]
      exact inv.trackerFresh _ v tracked
    · exact inv.trackerFresh t w at'
  · intro q n c held has
    rcases is q n held with ⟨rfl, rfl⟩ | ⟨_, held⟩
    · obtain ⟨q', held'⟩ := alive (by rw [has]; rfl)
      exact inv.chunkFresh q' n c held' has
    · exact inv.chunkFresh q n c held has
  · intro q n q' n' held held' tracker
    rcases is q n held with ⟨rfl, rfl⟩ | ⟨_, old⟩ <;>
      rcases is q' n' held' with ⟨rfl, rfl⟩ | ⟨_, old'⟩
    · rfl
    · exact (same q' n' old' tracker.symm).symm
    · exact same q n old tracker
    · exact inv.sameChunk q n q' n' old old' tracker
  · intro q n q' n' c held held' has has'
    rcases is q n held with ⟨rfl, rfl⟩ | ⟨_, old⟩ <;>
      rcases is q' n' held' with ⟨rfl, rfl⟩ | ⟨_, old'⟩
    · rfl
    · obtain ⟨r, heldR⟩ := alive (by rw [has]; rfl)
      exact inv.sameTracker r n q' n' c heldR old' has has'
    · obtain ⟨r, heldR⟩ := alive (by rw [has']; rfl)
      exact inv.sameTracker q n r n' c old heldR has has'
    · exact inv.sameTracker q n q' n' c old old' has has'
  · intro t w at'
    replace at' : Function.update h.tracker m.tracker (some (v + 1)) t = some w := at'
    rw [Function.update_apply] at at'
    rw [holders_put absent]
    split at at'
    · rename_i self
      cases at'
      have := inv.atLeast _ v tracked
      rw [self, if_pos rfl, raised]
      omega
    · rename_i other
      rw [if_neg (Ne.symm other), Nat.zero_add]
      exact inv.atLeast t w at'
  · intro q n w held has at'
    replace at' : Function.update h.tracker m.tracker (some (v + 1)) n.tracker = some w := at'
    rw [Function.update_apply] at at'
    rw [holders_put absent]
    split at at'
    · rename_i self
      cases at'
      have chunks : n.chunk = m.chunk := by
        rcases is q n held with ⟨_, rfl⟩ | ⟨_, held⟩
        · rfl
        · exact same q n held self
      obtain ⟨r, heldR⟩ := alive (chunks ▸ has)
      have := inv.exactly r m v heldR (chunks ▸ has) tracked
      rw [self, if_pos rfl, raised]
      omega
    · rename_i other
      rw [if_neg (Ne.symm other), Nat.zero_add]
      rcases is q n held with ⟨rfl, rfl⟩ | ⟨_, held⟩
      · exact absurd rfl other
      · exact inv.exactly q n w held has at'
  · intro c
    rw [inv.registered]
    constructor
    · rintro ⟨q, n, held, has⟩
      exact ⟨q, n, others q n held, has⟩
    · rintro ⟨q, n, held, has⟩
      rcases is q n held with ⟨rfl, rfl⟩ | ⟨_, held⟩
      · obtain ⟨r, heldR⟩ := alive (by rw [has]; rfl)
        exact ⟨r, n, heldR, has⟩
      · exact ⟨q, n, held, has⟩
  · exact inv.mfreed

/-- What the constructor writes where. -/
theorem construct_spec (h : Heap) (n : UInt32) :
    (construct h n).1 = ⟨if n = 0 then none else some h.nextChunk, h.nextTracker, n⟩ ∧
      (construct h n).2.nextTracker = h.nextTracker + 1 ∧
      (construct h n).2.nextChunk = (if n = 0 then h.nextChunk else h.nextChunk + 1) ∧
      (∀ t, (construct h n).2.tracker t = if t = h.nextTracker then some 1 else h.tracker t) ∧
      (∀ c, (construct h n).2.registered c =
        if n ≠ 0 ∧ c = h.nextChunk then true else h.registered c) ∧
      (construct h n).2.mfreed = h.mfreed := by
  by_cases zero : n = 0
  · simp [construct, zero, Function.update_apply]
  · simp [construct, zero, Function.update_apply]

/-- The constructor. -/
theorem Inv.construct {live : Lib.Table ι ManagedPtr} {h : Heap} (inv : Inv live h) {p : ι}
    (absent : live.get? p = none) (n : UInt32) :
    Inv (live.put p (construct h n).1) (construct h n).2 := by
  have unused : ∀ q m, live.get? q = some m → m.tracker ≠ h.nextTracker := by
    intro q m held same
    obtain ⟨v, tracked⟩ := inv.allocated q m held
    have := inv.trackerFresh _ v tracked
    omega
  have unusedChunk : ∀ q m, live.get? q = some m → m.chunk ≠ some h.nextChunk := by
    intro q m held same
    have := inv.chunkFresh q m _ held same
    omega
  have noHolders : holders live h.nextTracker = 0 :=
    Lib.Table.total_eq_zero fun q m held => if_neg (unused q m held)
  have unregistered : h.registered h.nextChunk = false := by
    refine Bool.eq_false_iff.mpr fun is => ?_
    obtain ⟨q, m, held, has⟩ := (inv.registered _).mp is
    exact unusedChunk q m held has
  have is : ∀ q m, (live.put p (Ownership.construct h n).1).get? q = some m →
      m = ⟨if n = 0 then none else some h.nextChunk, h.nextTracker, n⟩ ∨ live.get? q = some m := by
    intro q m held
    rw [Lib.Table.get?_put, (construct_spec h n).1] at held
    split at held
    · exact .inl (Option.some.inj held).symm
    · exact .inr held
  obtain ⟨new, nextTracker, nextChunk, tracker, registered, mfreed⟩ := construct_spec h n
  have newHere : (live.put p (Ownership.construct h n).1).get? p =
      some ⟨if n = 0 then none else some h.nextChunk, h.nextTracker, n⟩ := by
    rw [Lib.Table.get?_put, if_pos rfl, new]
  have others : ∀ q m, live.get? q = some m →
      (live.put p (Ownership.construct h n).1).get? q = some m := by
    intro q m held
    rw [Lib.Table.get?_put, if_neg, held]
    rintro rfl
    rw [absent] at held
    cases held
  have newChunk : ∀ {c}, (if n = 0 then none else some h.nextChunk) = some c →
      n ≠ 0 ∧ c = h.nextChunk := by
    intro c has
    split at has
    · cases has
    · exact ⟨‹_›, (Option.some.inj has).symm⟩
  constructor
  · intro q m held
    rcases is q m held with rfl | old
    · by_cases zero : n = 0 <;> simp [zero]
    · exact inv.nElem q m old
  · intro q m held
    rw [tracker]
    split
    · exact ⟨1, rfl⟩
    · rename_i other
      rcases is q m held with rfl | old
      · exact absurd rfl other
      · exact inv.allocated q m old
  · intro t v tracked
    rw [tracker] at tracked
    rw [nextTracker]
    split at tracked
    · omega
    · have := inv.trackerFresh t v tracked
      omega
  · intro q m c held has
    rw [nextChunk]
    rcases is q m held with rfl | old
    · obtain ⟨zero, rfl⟩ := newChunk has
      rw [if_neg zero]
      omega
    · have := inv.chunkFresh q m c old has
      split <;> omega
  · intro q m q' m' held held' same
    rcases is q m held with rfl | old <;> rcases is q' m' held' with rfl | old'
    · rfl
    · exact absurd same.symm (unused q' m' old')
    · exact absurd same (unused q m old)
    · exact inv.sameChunk q m q' m' old old' same
  · intro q m q' m' c held held' has has'
    rcases is q m held with rfl | old <;> rcases is q' m' held' with rfl | old'
    · rfl
    · obtain ⟨_, rfl⟩ := newChunk has
      exact absurd has' (unusedChunk q' m' old')
    · obtain ⟨_, rfl⟩ := newChunk has'
      exact absurd has (unusedChunk q m old)
    · exact inv.sameTracker q m q' m' c old old' has has'
  · intro t v tracked
    rw [tracker] at tracked
    rw [holders_put absent, new]
    split at tracked
    · rename_i self
      cases tracked
      rw [self, if_pos rfl, noHolders]
      exact Nat.le_refl 1
    · rename_i other
      rw [if_neg (Ne.symm other), Nat.zero_add]
      exact inv.atLeast t v tracked
  · intro q m v held has tracked
    rw [tracker] at tracked
    rw [holders_put absent, new]
    split at tracked
    · rename_i self
      cases tracked
      rw [self, if_pos rfl, noHolders]
      rfl
    · rename_i other
      rw [if_neg (Ne.symm other), Nat.zero_add]
      rcases is q m held with rfl | old
      · exact absurd rfl other
      · exact inv.exactly q m v old has tracked
  · intro c
    rw [registered]
    split
    · rename_i fresh
      exact ⟨fun _ => ⟨p, _, newHere, by rw [if_neg fresh.1, fresh.2]⟩, fun _ => rfl⟩
    · rename_i old
      rw [inv.registered]
      constructor
      · rintro ⟨q, m, held, has⟩
        exact ⟨q, m, others q m held, has⟩
      · rintro ⟨q, m, held, has⟩
        rcases is q m held with rfl | held
        · exact absurd (newChunk has) old
        · exact ⟨q, m, held, has⟩
  · intro c
    rw [mfreed, inv.mfreed, nextChunk, registered]
    by_cases zero : n = 0
    · simp [zero]
    · by_cases self : c = h.nextChunk
      · simp [zero, self, unregistered]
      · simp only [zero, self, ne_eq, not_false_eq_true, and_false, if_false]
        have : c < h.nextChunk + 1 ↔ c < h.nextChunk := by omega
        simp only [this]

/-! ### One operation -/

theorem adopt_eq_some {s t : State ι} {p : ι} {m : ManagedPtr} (taken : adopt s p m = some t) :
    ∃ h, addFetch s.heap m.tracker = some h ∧ t = ⟨s.live.put p m, h⟩ := by
  obtain ⟨h, fetched, rfl⟩ := Option.map_eq_some_iff.mp taken
  exact ⟨h, fetched, rfl⟩

/-- The three ways through an assignment: both sides hold one chunk, the left side
gives up its chunk, or the left side is empty. -/
theorem assign_cases {s t : State ι} {p : ι} {l r : ManagedPtr}
    (taken : assign s p l r = some t) :
    (l.chunk.isSome ∧ r.chunk = l.chunk ∧ t = s) ∨
      (l.chunk.isSome ∧ r.chunk ≠ l.chunk ∧ ∃ h h', subFetch s.heap l = some h ∧
        addFetch h r.tracker = some h' ∧ t = ⟨s.live.put p r, h'⟩) ∨
      (l.chunk = none ∧ ∃ h, addFetch s.heap r.tracker = some h ∧ t = ⟨s.live.put p r, h⟩) := by
  simp only [assign] at taken
  split at taken
  · rename_i holds
    split at taken
    · rename_i same
      cases taken
      exact .inl ⟨holds, same, rfl⟩
    · rename_i other
      obtain ⟨h, released, adopted⟩ := Option.bind_eq_some_iff.mp taken
      obtain ⟨h', fetched, rfl⟩ := adopt_eq_some adopted
      exact .inr (.inl ⟨holds, other, h, h', released, fetched, rfl⟩)
  · rename_i empty
    obtain ⟨h, fetched, rfl⟩ := adopt_eq_some taken
    exact .inr (.inr ⟨Option.not_isSome_iff_eq_none.mp empty, h, fetched, rfl⟩)

theorem inv_assign {s t : State ι} {p ref : ι} {l r : ManagedPtr} (inv : Inv s.live s.heap)
    (left : s.live.get? p = some l) (right : s.live.get? ref = some r)
    (fits : (l.chunk.isSome → r.chunk ≠ l.chunk) → s.heap.tracker r.tracker ≠ some 0xFFFFFFFF)
    (taken : assign s p l r = some t) : Inv t.live t.heap := by
  obtain ⟨v, tracked⟩ := inv.allocated ref r right
  have same : ∀ q n, (s.live.remove p).get? q = some n → n.tracker = r.tracker →
      n.chunk = r.chunk := by
    intro q n held tracker
    exact inv.sameChunk q n ref r (Lib.Table.of_get?_remove held).2 right tracker
  have alive : ref ≠ p → ∃ q, (s.live.remove p).get? q = some r := by
    intro other
    exact ⟨ref, by rw [Lib.Table.get?_remove, if_neg other, right]⟩
  have absent : (s.live.remove p).get? p = none := by
    rw [Lib.Table.get?_remove, if_pos rfl]
  rcases assign_cases taken with ⟨_, _, rfl⟩ | ⟨holds, other, h, h', released, fetched, rfl⟩ |
    ⟨empty, h, fetched, rfl⟩
  · exact inv
  · have apart : r.tracker ≠ l.tracker := fun tracker =>
      other (inv.sameChunk ref r p l right left tracker)
    have notSelf : ref ≠ p := by
      rintro rfl
      rw [left] at right
      cases right
      exact other rfl
    obtain ⟨w, atL⟩ := inv.allocated p l left
    obtain ⟨_, _, tracker, _⟩ := subFetch_spec (inv.nElem p l left) atL released
    have kept : h.tracker r.tracker = some v := by rw [tracker, if_neg apart, tracked]
    have := (inv.drop left released).adopt absent (inv.nElem ref r right) kept
      (fun last => fits (fun _ => other) (last ▸ tracked)) same (fun _ => alive notSelf) fetched
    rwa [Lib.Table.put_remove] at this
  · have := (inv.forget left empty).adopt absent (inv.nElem ref r right) tracked
      (fun last => fits (fun holds => absurd empty (Option.isSome_iff_ne_none.mp holds))
        (last ▸ tracked)) same ?_ fetched
    · rwa [Lib.Table.put_remove] at this
    · intro holds
      refine alive ?_
      rintro rfl
      rw [left] at right
      cases right
      rw [empty] at holds
      cases holds

/-- The object an operation makes, changes or destroys. -/
def Event.target : Event ι → ι
  | .construct p _ | .copy p _ | .assign p _ | .destroy p => p

/-- The other objects stay as they are. -/
theorem step_get? {s t : State ι} {e : Event ι} (taken : step s e = some t) {q : ι}
    (other : q ≠ e.target) : t.live.get? q = s.live.get? q := by
  cases e with
  | construct p n =>
      simp only [step] at taken
      split at taken
      · cases taken
        exact (Lib.Table.get?_put _ _ _ _).trans (if_neg other)
      · cases taken
  | copy p ref =>
      simp only [step] at taken
      split at taken
      · obtain ⟨r, _, adopted⟩ := Option.bind_eq_some_iff.mp taken
        obtain ⟨h, _, rfl⟩ := adopt_eq_some adopted
        exact (Lib.Table.get?_put _ _ _ _).trans (if_neg other)
      · cases taken
  | assign p ref =>
      obtain ⟨l, _, rest⟩ := Option.bind_eq_some_iff.mp taken
      obtain ⟨r, _, assigned⟩ := Option.bind_eq_some_iff.mp rest
      rcases assign_cases assigned with ⟨_, _, rfl⟩ | ⟨_, _, h, h', _, _, rfl⟩ | ⟨_, h, _, rfl⟩
      · rfl
      · exact (Lib.Table.get?_put _ _ _ _).trans (if_neg other)
      · exact (Lib.Table.get?_put _ _ _ _).trans (if_neg other)
  | destroy p =>
      obtain ⟨m, _, rest⟩ := Option.bind_eq_some_iff.mp taken
      obtain ⟨h, _, rfl⟩ := Option.map_eq_some_iff.mp rest
      exact (Lib.Table.get?_remove _ _ _).trans (if_neg other)

/-- Only a destruction ends the life of an object. -/
theorem step_get?_isSome {s t : State ι} {e : Event ι} (taken : step s e = some t) {q : ι}
    (alive : (s.live.get? q).isSome) (stays : ∀ p, e = .destroy p → q ≠ p) :
    (t.live.get? q).isSome := by
  by_cases self : q = e.target
  · subst self
    cases e with
    | construct p n =>
        simp only [step] at taken
        split at taken
        · cases taken
          rw [Event.target, Lib.Table.get?_put, if_pos rfl]
          rfl
        · cases taken
    | copy p ref =>
        simp only [step] at taken
        split at taken
        · obtain ⟨r, _, adopted⟩ := Option.bind_eq_some_iff.mp taken
          obtain ⟨h, _, rfl⟩ := adopt_eq_some adopted
          rw [Event.target, Lib.Table.get?_put, if_pos rfl]
          rfl
        · cases taken
    | assign p ref =>
        obtain ⟨l, _, rest⟩ := Option.bind_eq_some_iff.mp taken
        obtain ⟨r, _, assigned⟩ := Option.bind_eq_some_iff.mp rest
        rcases assign_cases assigned with ⟨_, _, rfl⟩ | ⟨_, _, h, h', _, _, rfl⟩ | ⟨_, h, _, rfl⟩
        · exact alive
        · rw [Event.target, Lib.Table.get?_put, if_pos rfl]
          rfl
        · rw [Event.target, Lib.Table.get?_put, if_pos rfl]
          rfl
    | destroy p => exact absurd rfl (stays p rfl)
  · rw [step_get? taken self]
    exact alive

/-- Every operation that raises no tracker past its width keeps the invariant. -/
theorem inv_step {s t : State ι} {e : Event ι} (inv : Inv s.live s.heap) (fits : TrackerFits s e)
    (taken : step s e = some t) : Inv t.live t.heap := by
  cases e with
  | construct p n =>
      simp only [step] at taken
      split at taken
      · rename_i absent
        cases taken
        exact inv.construct absent n
      · cases taken
  | copy p ref =>
      simp only [step] at taken
      split at taken
      · rename_i absent
        obtain ⟨r, right, adopted⟩ := Option.bind_eq_some_iff.mp taken
        obtain ⟨h, fetched, rfl⟩ := adopt_eq_some adopted
        obtain ⟨v, tracked⟩ := inv.allocated ref r right
        refine inv.adopt absent (inv.nElem ref r right) tracked ?_
          (fun q n held same => inv.sameChunk q n ref r held right same)
          (fun _ => ⟨ref, right⟩) fetched
        rintro rfl
        exact fits (by rw [raised, right]; exact tracked)
      · cases taken
  | assign p ref =>
      obtain ⟨l, left, rest⟩ := Option.bind_eq_some_iff.mp taken
      obtain ⟨r, right, assigned⟩ := Option.bind_eq_some_iff.mp rest
      refine inv_assign inv left right (fun other last => fits ?_) assigned
      simp only [raised, left, right, Option.bind_some]
      rw [if_neg (fun both => other both.1 both.2), last]
  | destroy p =>
      obtain ⟨m, found, rest⟩ := Option.bind_eq_some_iff.mp taken
      obtain ⟨h, released, rfl⟩ := Option.map_eq_some_iff.mp rest
      exact inv.drop found released

/-- No operation on live objects touches a deleted tracker. -/
theorem step_isSome {s : State ι} {e : Event ι} (inv : Inv s.live s.heap)
    (meaningful : Meaningful s e) : (step s e).isSome := by
  have adopts : ∀ (h : Heap) (p : ι) (r : ManagedPtr), (h.tracker r.tracker).isSome →
      (adopt ⟨s.live, h⟩ p r).isSome := by
    intro h p r allocated
    simpa [adopt, addFetch] using allocated
  have live : ∀ q n, s.live.get? q = some n → (s.heap.tracker n.tracker).isSome := by
    intro q n held
    obtain ⟨v, tracked⟩ := inv.allocated q n held
    rw [tracked]
    rfl
  cases e with
  | construct p n =>
      have absent : s.live.get? p = none := meaningful
      rw [step, if_pos absent]
      rfl
  | copy p ref =>
      obtain ⟨r, right⟩ := Option.isSome_iff_exists.mp meaningful.2
      rw [step, if_pos meaningful.1, right]
      exact adopts s.heap p r (live ref r right)
  | assign p ref =>
      obtain ⟨l, left⟩ := Option.isSome_iff_exists.mp meaningful.1
      obtain ⟨r, right⟩ := Option.isSome_iff_exists.mp meaningful.2
      obtain ⟨v, tracked⟩ := inv.allocated p l left
      simp only [step, left, right, Option.bind_some, assign]
      split
      · split
        · rfl
        · rename_i other
          cases released : subFetch s.heap l with
          | none => simp [subFetch, tracked] at released
          | some h =>
              obtain ⟨_, _, tracker, _⟩ := subFetch_spec (inv.nElem p l left) tracked released
              refine adopts h p r ?_
              rw [tracker, if_neg fun same => other (inv.sameChunk ref r p l right left same)]
              exact live ref r right
      · exact adopts s.heap p r (live ref r right)
  | destroy p =>
      obtain ⟨m, found⟩ := Option.isSome_iff_exists.mp meaningful
      simpa [step, found, subFetch] using live p m found

/-! ### Runs -/

/-- As long as no tracker is raised past its width, a chunk is registered exactly while
some live object refers to it, `mfree` has been called once on every chunk that was
handed out and is not registered and never on another, and every further operation
on live objects is defined. -/
theorem ownership (es : List (Event ι)) {s : State ι}
    (fits : Lib.Along step TrackerFits State.init es)
    (reached : Lib.run step State.init es = some s) :
    (∀ c, s.heap.registered c = true ↔ ∃ p m, s.live.get? p = some m ∧ m.chunk = some c) ∧
      (∀ c, s.heap.mfreed c = if c < s.heap.nextChunk ∧ s.heap.registered c = false then 1 else 0) ∧
      ∀ e, Meaningful s e → (step s e).isSome := by
  have inv : Inv s.live s.heap :=
    Lib.run_invariant_of_guard (fun s : State ι => Inv s.live s.heap)
      (fun _ _ _ => inv_step) es inv_empty fits reached
  exact ⟨inv.registered, inv.mfreed, fun e => step_isSome inv⟩

/-- A chunk handed from one object to another through a zero-length one. -/
def handedOver : List (Event Nat) :=
  [.construct 0 3, .construct 1 0, .assign 1 0, .assign 0 0, .copy 2 1, .destroy 0, .assign 2 2,
    .destroy 1, .construct 3 0, .assign 2 3]

theorem ownership_handedOver :
    ∃ s, Lib.run step State.init handedOver = some s ∧
      (∀ c, s.heap.registered c = true ↔ ∃ p m, s.live.get? p = some m ∧ m.chunk = some c) ∧
      s.heap.mfreed 0 = 1 := by
  refine ⟨_, rfl, (ownership handedOver (by decide) rfl).1, rfl⟩

/-- One object and `k` copies of it. -/
def copies (k : Nat) : List (Event Nat) :=
  .construct 0 1 :: (List.range k).map fun i => .copy (i + 1) 0

theorem run_copies (k : Nat) :
    ∃ s, Lib.run step State.init (copies k) = some s ∧
      (∀ i, s.live.get? i = if i ≤ k then some ⟨some 0, 0, 1⟩ else none) ∧
      s.heap.tracker 0 = some (1 + UInt32.ofNat k) := by
  induction k with
  | zero =>
      refine ⟨_, rfl, fun i => ?_, rfl⟩
      rw [Lib.Table.get?_put]
      cases i with
      | zero => rfl
      | succ i => rfl
  | succ k ih =>
      obtain ⟨s, reached, live, tracker⟩ := ih
      have absent : s.live.get? (k + 1) = none := by rw [live, if_neg (by omega)]
      have right : s.live.get? 0 = some ⟨some 0, 0, 1⟩ := by rw [live, if_pos (by omega)]
      have same : copies (k + 1) = copies k ++ [.copy (k + 1) 0] := by
        simp [copies, List.range_succ]
      refine ⟨⟨s.live.put (k + 1) ⟨some 0, 0, 1⟩,
        { s.heap with
          tracker := Function.update s.heap.tracker 0 (some (1 + UInt32.ofNat k + 1)) }⟩,
          ?_, ?_, ?_⟩
      · rw [same, Lib.run_append, reached]
        simp [Lib.run_cons, step, absent, right, adopt, addFetch, tracker]
      · intro i
        rw [Lib.Table.get?_put, live]
        by_cases here : i = k + 1
        · simp [here]
        · have : i ≤ k + 1 ↔ i ≤ k := by omega
          simp only [here, if_false, this]
      · show Function.update s.heap.tracker 0 _ 0 = _
        rw [UInt32.ofNat_add, ← UInt32.add_assoc]
        exact Function.update_self _ _ _

/-- With `2 ^ 32` copies of one object the tracker is back at one; the next destructor
frees the chunk under the remaining objects. -/
theorem copies_free_early :
    ∃ s, Lib.run step State.init (copies (2 ^ 32) ++ [.destroy 1]) = some s ∧
      s.heap.registered 0 = false ∧ s.live.get? 0 = some ⟨some 0, 0, 1⟩ := by
  obtain ⟨s, reached, live, tracker⟩ := run_copies (2 ^ 32)
  have found : s.live.get? 1 = some ⟨some 0, 0, 1⟩ := by rw [live, if_pos (by decide)]
  have one : s.heap.tracker 0 = some 1 := tracker
  rw [Lib.run_append, reached]
  simp only [Option.bind_some, Lib.run_cons, step, found, subFetch, one, Option.map_some]
  refine ⟨_, rfl, ?_, ?_⟩
  · rfl
  · show (s.live.remove 1).get? 0 = _
    rw [Lib.Table.get?_remove, live]
    rfl

end Rambrain.Ownership
