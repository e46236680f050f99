import Rambrain.ManagedPtr
import Rambrain.Lib.Nested

/-!
`managedPtr<T,dim>` of several dimensions (`managedPtr.h`).

An object of `dim` dimensions holds an array `subPtrs` of objects of one dimension less; its
leaves are `managedPtr<T,1>` objects, which share chunks through their trackers. The constructors
and the assignment fill a new array, whose default objects hold one element each, by assigning
to its entries one after the other.

Assigning one object to another makes every leaf refer to the chunk of its counterpart. The
assignment has no test for an object that is assigned to itself: it deletes `subPtrs` and then
reads the array it has just made, and it counts an `int` where the object counts an
`unsigned int` (`assign_aliases_iff`).
-/

namespace Rambrain.MultiPtr

open Ownership (ManagedPtr Heap addFetch subFetch construct)
open Lib.Nested (single leaves)

/-- `managedPtr<T,dim>` for `dim = d + 1`; the length of an array is its `n_elem`. -/
abbrev Ptr (d : Nat) : Type := Lib.Nested ManagedPtr d

/-! ### The operations -/

/-- The destructor; `delete[]` destroys the last element first. -/
def destroy : (d : Nat) → Heap → Ptr d → Option Heap
  | 0, h, m => subFetch h m
  | d + 1, h, subPtrs => List.foldrM (fun p h => destroy d h p) h subPtrs

/-- `operator=` of `managedPtr<T,1>`. -/
def assignLeaf (h : Heap) (l r : ManagedPtr) : Option (ManagedPtr × Heap) :=
  if l.chunk.isSome then
    if r.chunk = l.chunk then some (l, h)
    else (subFetch h l).bind fun h => (addFetch h r.tracker).map fun h => (r, h)
  else (addFetch h r.tracker).map fun h => (r, h)

/-- `new managedPtr<T,dim-1> [n]`, with the default constructor of an element. -/
def newEach {α : Type} (new : Heap → Option (α × Heap)) : Nat → Heap → Option (List α × Heap)
  | 0, h => some ([], h)
  | n + 1, h =>
      (new h).bind fun p => (newEach new n p.2).map fun ps => (p.1 :: ps.1, ps.2)

/-- `subPtrs[i] = ref.subPtrs[i]` for every `i`. -/
def assignEach {α : Type} (assign : Heap → α → Option α → Option (α × Heap)) :
    Heap → List α → List (Option α) → Option (List α × Heap)
  | h, p :: ps, r :: rs =>
      (assign h p r).bind fun q => (assignEach assign q.2 ps rs).map fun qs => (q.1 :: qs.1, qs.2)
  | h, _, _ => some ([], h)

/-- The elements of `ref.subPtrs` as the loop meets them. When `ref` is the object itself, they
are the elements of the new array. -/
def refs {α : Type} (ref : Option (List α)) (n : Nat) : List (Option α) :=
  match ref with
  | some qs => qs.map some
  | none => List.replicate n none

mutual

/-- The default constructor: one element in each dimension. -/
def new : (d : Nat) → Heap → Option (Ptr d × Heap)
  | 0, h => some (construct h 1)
  | d + 1, h =>
      (new d h).bind fun sub =>
        (new d sub.2).bind fun temporary =>
          (assign d temporary.2 sub.1 (some temporary.1)).bind fun sub =>
            (destroy d sub.2 temporary.1).map fun h => ([sub.1], h)

/-- `operator=`; without a `ref`, the object is assigned to itself. The loop counts an `int`: the
assignment has no result where it passes `2^31 - 1`. -/
def assign : (d : Nat) → Heap → Ptr d → Option (Ptr d) → Option (Ptr d × Heap)
  | 0, h, a, ref => assignLeaf h a (ref.getD a)
  | d + 1, h, a, ref =>
      let n := List.length (show List (Ptr d) from ref.getD a)
      (destroy (d + 1) h a).bind fun h =>
        (newEach (new d) n h).bind fun subPtrs =>
          if n < 2 ^ 31 then assignEach (assign d) subPtrs.2 subPtrs.1 (refs ref n) else none

end

/-- The copy constructor. -/
def copy (d : Nat) (h : Heap) (ref : Ptr (d + 1)) : Option (Ptr (d + 1) × Heap) :=
  (newEach (new d) (List.length (show List (Ptr d) from ref)) h).bind fun subPtrs =>
    assignEach (assign d) subPtrs.2 subPtrs.1 (refs (some ref) 0)

/-- The arrays that `operator=` reads have fewer than `2^31` elements. -/
def Counts : (d : Nat) → Ptr d → Prop
  | 0, _ => True
  | d + 1, subPtrs =>
      List.length (show List (Ptr d) from subPtrs) < 2 ^ 31 ∧
        ∀ p ∈ (show List (Ptr d) from subPtrs), Counts d p

theorem counts_single (m : ManagedPtr) : ∀ d, Counts d (single m d)
  | 0 => trivial
  | d + 1 => by
      refine ⟨(by decide : 1 < 2 ^ 31), ?_⟩
      intro p mem
      obtain rfl : p = single m d := List.mem_singleton.mp mem
      exact counts_single m d

theorem assign_eq {d : Nat} (h : Heap) (as : List (Ptr d)) (ref : Option (List (Ptr d))) :
    assign (d + 1) h as ref = (destroy (d + 1) h as).bind fun h =>
      (newEach (new d) (ref.getD as).length h).bind fun subPtrs =>
        if (ref.getD as).length < 2 ^ 31 then
          assignEach (assign d) subPtrs.2 subPtrs.1 (refs ref (ref.getD as).length)
        else none :=
  assign.eq_2 h d as ref

theorem assign_some {d : Nat} {h : Heap} (as : List (Ptr d)) {bs : List (Ptr d)}
    (few : bs.length < 2 ^ 31) :
    assign (d + 1) h as (some bs) = (destroy (d + 1) h as).bind fun h =>
      (newEach (new d) bs.length h).bind fun subPtrs =>
        assignEach (assign d) subPtrs.2 subPtrs.1 (bs.map some) := by
  refine (assign_eq h as (some bs)).trans ?_
  simp only [Option.getD_some, few, if_true, refs]
  rfl

theorem assign_none {d : Nat} {h : Heap} (as : List (Ptr d)) (few : as.length < 2 ^ 31) :
    assign (d + 1) h as none = (destroy (d + 1) h as).bind fun h =>
      (newEach (new d) as.length h).bind fun subPtrs =>
        assignEach (assign d) subPtrs.2 subPtrs.1 (List.replicate as.length none) := by
  refine (assign_eq h as none).trans ?_
  simp only [Option.getD_none, few, if_true, refs]
  rfl

/-- A result needs every loop to end before its counter overflows. -/
theorem few_of_assign {d : Nat} {h : Heap} {as : List (Ptr d)} (ref : Option (List (Ptr d)))
    {r : Ptr (d + 1) × Heap} (assigned : assign (d + 1) h as ref = some r) :
    (ref.getD as).length < 2 ^ 31 := by
  obtain ⟨_, _, assigned⟩ := Option.bind_eq_some_iff.mp ((assign_eq h as ref).symm.trans assigned)
  obtain ⟨_, _, assigned⟩ := Option.bind_eq_some_iff.mp assigned
  by_contra many
  rw [if_neg many] at assigned
  cases assigned

/-! ### What an assignment asks of the object it reads -/

theorem newEach_length {α : Type} {new : Heap → Option (α × Heap)} :
    ∀ {n : Nat} {h : Heap} {ps : List α × Heap}, newEach new n h = some ps → ps.1.length = n
  | 0, h, ps, made => by
      obtain rfl := Option.some.inj made
      rfl
  | n + 1, h, ps, made => by
      obtain ⟨p, _, rest⟩ := Option.bind_eq_some_iff.mp made
      obtain ⟨qs, each, rfl⟩ := Option.map_eq_some_iff.mp rest
      exact congrArg (· + 1) (newEach_length each)

/-- The loop assigns to every entry. -/
theorem assignEach_each {α : Type} {assign : Heap → α → Option α → Option (α × Heap)} :
    ∀ {ps bs : List α} {h : Heap} {qs : List α × Heap}, ps.length = bs.length →
      assignEach assign h ps (bs.map some) = some qs →
        ∀ b ∈ bs, ∃ h p q, assign h p (some b) = some q
  | [], [], _, _, _, _ => by simp
  | p :: ps, b :: bs, h, qs, length, assigned => by
      obtain ⟨q, first, rest⟩ := Option.bind_eq_some_iff.mp assigned
      obtain ⟨qs', each, _⟩ := Option.map_eq_some_iff.mp rest
      intro b' mem
      rcases List.mem_cons.mp mem with rfl | mem
      · exact ⟨h, p, q, first⟩
      · exact assignEach_each (Nat.succ.inj length) each b' mem

theorem counts_of_assign : ∀ {d : Nat} {h : Heap} {a b : Ptr d} {r : Ptr d × Heap},
    assign d h a (some b) = some r → Counts d b
  | 0, _, _, _, _, _ => trivial
  | d + 1, h, a, (bs : List (Ptr d)), r, assigned => by
      have few : bs.length < 2 ^ 31 := few_of_assign (some bs) assigned
      refine ⟨few, ?_⟩
      obtain ⟨_, _, assigned⟩ :=
        Option.bind_eq_some_iff.mp ((assign_some a few).symm.trans assigned)
      obtain ⟨subPtrs, made, assigned⟩ := Option.bind_eq_some_iff.mp assigned
      intro b mem
      obtain ⟨_, _, _, entry⟩ := assignEach_each (newEach_length made) assigned b mem
      exact counts_of_assign entry

/-! ### Objects just made -/

/-- Handed out from `h` on. -/
structure New (h : Heap) (m : ManagedPtr) : Prop where
  tracker : h.nextTracker ≤ m.tracker
  chunk : ∃ c, m.chunk = some c ∧ h.nextChunk ≤ c

/-- The only object of its tracker, with a chunk of its own. -/
structure Lone (h : Heap) (m : ManagedPtr) : Prop where
  tracker : h.tracker m.tracker = some 1
  trackerOld : m.tracker < h.nextTracker
  nElem : m.nElem ≠ 0
  chunk : ∃ c, m.chunk = some c ∧ c < h.nextChunk

/-- Its tracker is there. -/
structure Held (h : Heap) (m : ManagedPtr) : Prop where
  tracker : (h.tracker m.tracker).isSome
  trackerOld : m.tracker < h.nextTracker
  chunkOld : ∀ c, m.chunk = some c → c < h.nextChunk

def Apart (m r : ManagedPtr) : Prop := r.tracker ≠ m.tracker ∧ r.chunk ≠ m.chunk

/-- How often the objects in `used` raise a tracker. -/
def raises (used : List ManagedPtr) (t : Nat) : UInt32 :=
  UInt32.ofNat (used.countP fun m => m.tracker = t)

/-- What becomes of the trackers and chunks that `h` knows: those of `gone` may be given up, and
the trackers of `used` are raised. -/
structure Frame (gone used : List ManagedPtr) (h h' : Heap) : Prop where
  nextTracker : h.nextTracker ≤ h'.nextTracker
  nextChunk : h.nextChunk ≤ h'.nextChunk
  tracker : ∀ t < h.nextTracker, (∀ m ∈ gone, m.tracker ≠ t) →
    h'.tracker t = (h.tracker t).map (· + raises used t)
  registered : ∀ c < h.nextChunk, (∀ m ∈ gone, m.chunk ≠ some c) →
    h'.registered c = h.registered c

variable {h h' h'' : Heap} {m r : ManagedPtr} {gone gone' used used' : List ManagedPtr} {d : Nat}

@[simp] theorem raises_nil (t : Nat) : raises [] t = 0 := rfl

theorem raises_append (used used' : List ManagedPtr) (t : Nat) :
    raises (used ++ used') t = raises used t + raises used' t := by
  rw [raises, List.countP_append, UInt32.ofNat_add]
  rfl

theorem raises_other {t : Nat} (other : ∀ m ∈ used, m.tracker ≠ t) : raises used t = 0 := by
  have none : (used.countP fun m => m.tracker = t) = 0 :=
    List.countP_eq_zero.mpr fun m mem => by simpa using other m mem
  rw [raises, none]
  rfl

theorem Frame.refl (gone : List ManagedPtr) (h : Heap) : Frame gone [] h h where
  nextTracker := Nat.le_refl _
  nextChunk := Nat.le_refl _
  tracker t _ _ := by simp
  registered _ _ _ := rfl

theorem Frame.trans (first : Frame gone used h h') (second : Frame gone' used' h' h'') :
    Frame (gone ++ gone') (used ++ used') h h'' where
  nextTracker := Nat.le_trans first.nextTracker second.nextTracker
  nextChunk := Nat.le_trans first.nextChunk second.nextChunk
  tracker t old not := by
    have before := first.tracker t old fun m mem => not m (List.mem_append_left _ mem)
    have after := second.tracker t (Nat.lt_of_lt_of_le old first.nextTracker) fun m mem =>
      not m (List.mem_append_right _ mem)
    rw [after, before, Option.map_map, raises_append]
    congr 1
    funext v
    exact UInt32.add_assoc _ _ _
  registered c old not := by
    have before := first.registered c old fun m mem => not m (List.mem_append_left _ mem)
    have after := second.registered c (Nat.lt_of_lt_of_le old first.nextChunk) fun m mem =>
      not m (List.mem_append_right _ mem)
    exact after.trans before

/-- What has been handed out in between does not count. -/
theorem Frame.weaken (frame : Frame gone used h h') (new : ∀ m ∈ gone, m ∈ gone' ∨ New h m)
    (same : ∀ t < h.nextTracker, raises used t = raises used' t) : Frame gone' used' h h' where
  nextTracker := frame.nextTracker
  nextChunk := frame.nextChunk
  tracker t old not := by
    rw [← same t old]
    apply frame.tracker t old
    intro m mem
    rcases new m mem with mem' | new
    · exact not m mem'
    · have := new.tracker
      omega
  registered c old not := by
    apply frame.registered c old
    intro m mem
    rcases new m mem with mem' | new
    · exact not m mem'
    · obtain ⟨c', chunk, le⟩ := new.chunk
      rw [chunk]
      rintro ⟨⟩
      omega

theorem New.mono (new : New h' m) (frame : Frame gone used h h') : New h m := by
  obtain ⟨c, chunk, le⟩ := new.chunk
  exact ⟨Nat.le_trans frame.nextTracker new.tracker, c, chunk, Nat.le_trans frame.nextChunk le⟩

theorem Lone.held (lone : Lone h m) : Held h m := by
  obtain ⟨c, chunk, lt⟩ := lone.chunk
  refine ⟨by rw [lone.tracker]; rfl, lone.trackerOld, fun c' chunk' => ?_⟩
  rw [chunk] at chunk'
  cases chunk'
  exact lt

theorem New.apart (new : New h r) (held : Held h m) : Apart m r := by
  obtain ⟨c, chunk, le⟩ := new.chunk
  constructor
  · have := new.tracker
    have := held.trackerOld
    omega
  · intro same
    rw [chunk] at same
    have := held.chunkOld c same.symm
    omega

theorem Apart.symm (apart : Apart m r) : Apart r m := ⟨apart.1.symm, apart.2.symm⟩

theorem Frame.lone (frame : Frame gone used h h') (lone : Lone h m)
    (kept : ∀ g ∈ gone, Apart g m) (unused : ∀ r ∈ used, Apart m r) : Lone h' m := by
  obtain ⟨c, chunk, lt⟩ := lone.chunk
  refine ⟨?_, Nat.lt_of_lt_of_le lone.trackerOld frame.nextTracker, lone.nElem, c, chunk,
    Nat.lt_of_lt_of_le lt frame.nextChunk⟩
  rw [frame.tracker _ lone.trackerOld fun g mem => (kept g mem).1.symm, lone.tracker,
    raises_other fun r mem => (unused r mem).1]
  rfl

theorem Frame.held (frame : Frame gone used h h') (held : Held h m)
    (kept : ∀ g ∈ gone, Apart g m) : Held h' m where
  tracker := by
    rw [frame.tracker _ held.trackerOld fun g mem => (kept g mem).1.symm, Option.isSome_map]
    exact held.tracker
  trackerOld := Nat.lt_of_lt_of_le held.trackerOld frame.nextTracker
  chunkOld c chunk := Nat.lt_of_lt_of_le (held.chunkOld c chunk) frame.nextChunk

/-! ### One operation on a new object -/

/-- The destructor of the only object of a chunk. -/
theorem Lone.subFetch (lone : Lone h m) :
    ∃ h', Ownership.subFetch h m = some h' ∧ Frame [m] [] h h' ∧ h'.nextTracker = h.nextTracker ∧
      h'.nextChunk = h.nextChunk := by
  obtain ⟨c, chunk, _⟩ := lone.chunk
  have taken : ∃ h', Ownership.subFetch h m = some h' := by simp [Ownership.subFetch, lone.tracker]
  obtain ⟨h', taken⟩ := taken
  obtain ⟨nextTracker, nextChunk, tracker, registered, _⟩ :=
    Ownership.subFetch_spec (by simp [lone.nElem, chunk]) lone.tracker taken
  refine ⟨h', taken, ⟨nextTracker.ge, nextChunk.ge, fun t _ not => ?_, fun c' _ not => ?_⟩,
    nextTracker, nextChunk⟩
  · rw [tracker, if_neg (not m List.mem_cons_self).symm]
    simp
  · rw [registered, if_neg fun both => not m List.mem_cons_self both.2]

theorem destroy_single (h : Heap) (m : ManagedPtr) : ∀ d, destroy d h (single m d) = subFetch h m
  | 0 => rfl
  | d + 1 => by
      show List.foldrM (fun p h => destroy d h p) h [single m d] = _
      rw [List.foldrM_cons, List.foldrM_nil, pure_bind, destroy_single h m d]

def NewSpec (d : Nat) : Prop :=
  ∀ h, ∃ m h', new d h = some (single m d, h') ∧ Lone h' m ∧ New h m ∧ Frame [] [] h h'

def AssignSpec (d : Nat) : Prop :=
  ∀ h m b, Counts d b → Lone h m → (∀ r ∈ leaves d b, Held h r ∧ Apart m r) →
    ∃ h', assign d h (single m d) (some b) = some (b, h') ∧ Frame [m] (leaves d b) h h'

def SelfSpec (d : Nat) : Prop :=
  ∀ h m, Lone h m → ∃ m' h', assign d h (single m d) none = some (single m' d, h') ∧
    Lone h' m' ∧ (m' = m ∨ New h m') ∧ Frame [m] [] h h'

theorem newSpec_zero : NewSpec 0 := by
  intro h
  obtain ⟨_, nextTracker, nextChunk, tracker, registered, _⟩ := Ownership.construct_spec h 1
  refine ⟨⟨some h.nextChunk, h.nextTracker, 1⟩, (construct h 1).2, rfl, ?_, ?_, ?_⟩
  · constructor <;> simp [nextTracker, nextChunk, tracker]
  · exact ⟨Nat.le_refl _, h.nextChunk, rfl, Nat.le_refl _⟩
  · constructor
    · omega
    · simp [nextChunk]
    · intro t old _
      simp [tracker, Nat.ne_of_lt old]
    · intro c old _
      simp [registered, Nat.ne_of_lt old]

theorem assignSpec_zero : AssignSpec 0 := by
  intro h m (r : ManagedPtr) _ lone held
  obtain ⟨heldR, apart⟩ := held r List.mem_cons_self
  obtain ⟨c, chunk, _⟩ := lone.chunk
  obtain ⟨h', taken, frame, nextTracker, nextChunk⟩ := lone.subFetch
  have heldR' := frame.held heldR fun g mem => List.mem_singleton.mp mem ▸ apart
  obtain ⟨v, tracked⟩ := Option.isSome_iff_exists.mp heldR'.tracker
  let raised : Heap := { h' with tracker := Function.update h'.tracker r.tracker (some (v + 1)) }
  have raise : Frame [] [r] h' raised := by
    refine ⟨Nat.le_refl _, Nat.le_refl _, fun t _ _ => ?_, fun _ _ _ => rfl⟩
    by_cases same : t = r.tracker
    · subst same
      simp [raised, tracked, raises]
    · simp [raised, raises, same, Ne.symm same]
  have assigned : assignLeaf h m r = some (r, raised) := by
    simp [raised, assignLeaf, chunk, taken, addFetch, tracked,
      show r.chunk ≠ some c from chunk ▸ apart.2]
  exact ⟨raised, assigned, frame.trans raise⟩

theorem selfSpec_zero : SelfSpec 0 := by
  intro h m lone
  obtain ⟨c, chunk, _⟩ := lone.chunk
  refine ⟨m, h, ?_, lone, .inl rfl, Frame.refl _ h⟩
  show assignLeaf h m m = some (m, h)
  simp [assignLeaf, chunk]

/-- Several new objects are apart from each other. -/
theorem newEach_spec (spec : NewSpec d) (n : Nat) : ∀ h, ∃ (ms : List ManagedPtr) (h' : Heap),
    newEach (new d) n h = some (ms.map fun m => single m d, h') ∧ ms.length = n ∧
      (∀ m ∈ ms, Lone h' m ∧ New h m) ∧ ms.Pairwise Apart ∧ Frame [] [] h h' := by
  induction n with
  | zero => exact fun h => ⟨[], h, rfl, rfl, by simp, .nil, Frame.refl _ h⟩
  | succ n ih =>
      intro h
      obtain ⟨m, h₁, made, lone, new, first⟩ := spec h
      obtain ⟨ms, h₂, each, length, news, apart, rest⟩ := ih h₁
      have mApart : ∀ r ∈ ms, Apart m r := fun r mem => (news r mem).2.apart lone.held
      refine ⟨m :: ms, h₂, by simp [newEach, made, each], by simp [length], ?_,
        apart.cons mApart, first.trans rest⟩
      intro r mem
      rcases List.mem_cons.mp mem with rfl | mem
      · exact ⟨rest.lone lone (by simp) (by simp), new⟩
      · exact ⟨(news r mem).1, (news r mem).2.mono first⟩

theorem assignEach_spec (spec : AssignSpec d) (ms : List ManagedPtr) :
    ∀ (bs : List (Ptr d)) (h : Heap), ms.length = bs.length → (∀ b ∈ bs, Counts d b) →
      (∀ m ∈ ms, Lone h m) → ms.Pairwise Apart →
      (∀ r ∈ bs.flatMap (leaves d), Held h r ∧ ∀ m ∈ ms, Apart m r) →
      ∃ h', assignEach (assign d) h (ms.map fun m => single m d) (bs.map some) = some (bs, h') ∧
        Frame ms (bs.flatMap (leaves d)) h h' := by
  induction ms with
  | nil =>
      intro bs h length _ _ _ _
      obtain rfl := List.eq_nil_of_length_eq_zero length.symm
      exact ⟨h, rfl, Frame.refl _ h⟩
  | cons m ms ih =>
      intro bs h length counts lones apart held
      obtain ⟨b, bs, rfl⟩ := List.exists_cons_of_length_eq_add_one length.symm
      obtain ⟨mApart, apart⟩ := List.pairwise_cons.mp apart
      have here : ∀ r ∈ leaves d b, r ∈ (b :: bs).flatMap (leaves d) := fun r mem =>
        List.mem_flatMap.mpr ⟨b, List.mem_cons_self, mem⟩
      have there : ∀ r ∈ bs.flatMap (leaves d), r ∈ (b :: bs).flatMap (leaves d) := fun r mem =>
        List.mem_append_right _ mem
      obtain ⟨h₁, assigned, first⟩ := spec h m b (counts b List.mem_cons_self)
        (lones m List.mem_cons_self) fun r mem =>
        ⟨(held r (here r mem)).1, (held r (here r mem)).2 m List.mem_cons_self⟩
      have lones' : ∀ m' ∈ ms, Lone h₁ m' := by
        intro m' mem
        apply first.lone (lones m' (List.mem_cons_of_mem _ mem))
        · intro g memG
          obtain rfl := List.mem_singleton.mp memG
          exact mApart m' mem
        · exact fun r memR => (held r (here r memR)).2 m' (List.mem_cons_of_mem _ mem)
      have held' : ∀ r ∈ bs.flatMap (leaves d), Held h₁ r ∧ ∀ m ∈ ms, Apart m r := by
        intro r mem
        obtain ⟨heldR, apartR⟩ := held r (there r mem)
        refine ⟨first.held heldR fun g memG => ?_, fun m' mem' =>
          apartR m' (List.mem_cons_of_mem _ mem')⟩
        exact apartR g (List.mem_singleton.mp memG ▸ List.mem_cons_self)
      obtain ⟨h₂, each, rest⟩ := ih bs h₁ (by simpa using length)
        (fun c mem => counts c (List.mem_cons_of_mem b mem)) lones' apart held'
      exact ⟨h₂, by simp [assignEach, assigned, each], first.trans rest⟩

/-- The same with every new object assigned to itself. -/
theorem selfEach_spec (spec : SelfSpec d) (ms : List ManagedPtr) :
    ∀ h, (∀ m ∈ ms, Lone h m) → ms.Pairwise Apart → ∃ (ms' : List ManagedPtr) (h' : Heap),
      assignEach (assign d) h (ms.map fun m => single m d) (List.replicate ms.length none) =
          some (ms'.map fun m => single m d, h') ∧
        ms'.length = ms.length ∧ (∀ m' ∈ ms', Lone h' m' ∧ (m' ∈ ms ∨ New h m')) ∧
        Frame ms [] h h' := by
  induction ms with
  | nil => exact fun h _ _ => ⟨[], h, rfl, rfl, by simp, Frame.refl _ h⟩
  | cons m ms ih =>
      intro h lones apart
      obtain ⟨mApart, apart⟩ := List.pairwise_cons.mp apart
      obtain ⟨m', h₁, assigned, lone, new, first⟩ := spec h m (lones m List.mem_cons_self)
      have lones' : ∀ r ∈ ms, Lone h₁ r := fun r mem =>
        first.lone (lones r (List.mem_cons_of_mem _ mem))
          (fun g memG => List.mem_singleton.mp memG ▸ mApart r mem) (by simp)
      obtain ⟨ms', h₂, each, length, news, rest⟩ := ih h₁ lones' apart
      have kept : ∀ g ∈ ms, Apart g m' := by
        intro g mem
        rcases new with rfl | new
        · exact (mApart g mem).symm
        · exact new.apart (lones g (List.mem_cons_of_mem _ mem)).held
      refine ⟨m' :: ms', h₂, by simp [assignEach, List.replicate_succ, assigned, each],
        by simp [length], ?_, first.trans rest⟩
      intro r mem
      rcases List.mem_cons.mp mem with rfl | mem
      · refine ⟨rest.lone lone kept (by simp), ?_⟩
        rcases new with rfl | new
        · exact .inl List.mem_cons_self
        · exact .inr new
      · refine ⟨(news r mem).1, ?_⟩
        rcases (news r mem).2 with old | new
        · exact .inl (List.mem_cons_of_mem _ old)
        · exact .inr (new.mono first)

/-! ### The recursion over the dimension -/

theorem newSpec_succ (newSpec : NewSpec d) (assignSpec : AssignSpec d) : NewSpec (d + 1) := by
  intro h
  obtain ⟨m, h₁, made, lone, new, first⟩ := newSpec h
  obtain ⟨r, h₂, made', lone', new', second⟩ := newSpec h₁
  have apart : Apart m r := new'.apart lone.held
  have leaf : ∀ r' ∈ leaves d (single r d), Held h₂ r' ∧ Apart m r' := by
    intro r' mem
    rw [Lib.Nested.leaves_single] at mem
    obtain rfl := List.mem_singleton.mp mem
    exact ⟨lone'.held, apart⟩
  obtain ⟨h₃, assigned, third⟩ :=
    assignSpec h₂ m (single r d) (counts_single r d) (second.lone lone (by simp) (by simp)) leaf
  rw [Lib.Nested.leaves_single] at third
  -- The temporary and the element share the tracker of the temporary.
  have two : h₃.tracker r.tracker = some 2 := by
    rw [third.tracker _ lone'.trackerOld fun g mem => List.mem_singleton.mp mem ▸ apart.1.symm,
      lone'.tracker]
    simp [raises]
  obtain ⟨c, chunk, lt⟩ := lone'.chunk
  have released : ∃ h₄, Ownership.subFetch h₃ r = some h₄ := by simp [Ownership.subFetch, two]
  obtain ⟨h₄, released⟩ := released
  obtain ⟨nextTracker, nextChunk, tracker, registered, _⟩ :=
    Ownership.subFetch_spec (by simp [lone'.nElem, chunk]) two released
  have newR : New h r := new'.mono first
  have upTo : Frame [] [] h h₃ := by
    apply ((first.trans second).trans third).weaken
    · intro g mem
      obtain rfl : g = m := by simpa using mem
      exact .inr new
    · intro t old
      have := newR.tracker
      simp [raises, show r.tracker ≠ t by omega]
  refine ⟨r, h₄, ?_, ⟨?_, ?_, lone'.nElem, c, chunk, ?_⟩, newR, ⟨?_, ?_, ?_, ?_⟩⟩
  · simp only [MultiPtr.new, made, made', assigned, destroy_single, released, Option.bind_some,
      Option.map_some]
    rfl
  · rw [tracker, if_pos rfl]
    rfl
  · rw [nextTracker]
    exact Nat.lt_of_lt_of_le lone'.trackerOld third.nextTracker
  · rw [nextChunk]
    exact Nat.lt_of_lt_of_le lt third.nextChunk
  · exact nextTracker ▸ upTo.nextTracker
  · exact nextChunk ▸ upTo.nextChunk
  · intro t old not
    have := newR.tracker
    rw [tracker, if_neg (by omega)]
    exact upTo.tracker t old not
  · intro c' old not
    rw [registered, if_neg fun both => absurd both.1 (by decide)]
    exact upTo.registered c' old not

/-- An array made anew and assigned to entry by entry. -/
theorem refill_spec (newSpec : NewSpec d) (assignSpec : AssignSpec d) (bs : List (Ptr d))
    (counts : ∀ b ∈ bs, Counts d b) (held : ∀ r ∈ bs.flatMap (leaves d), Held h r) :
    ∃ (subPtrs : List (Ptr d) × Heap) (h' : Heap),
      newEach (new d) bs.length h = some subPtrs ∧
        assignEach (assign d) subPtrs.2 subPtrs.1 (bs.map some) = some (bs, h') ∧
        Frame [] (bs.flatMap (leaves d)) h h' := by
  obtain ⟨ms, h₁, each, length, news, apart, first⟩ := newEach_spec newSpec bs.length h
  obtain ⟨h₂, assigned, second⟩ := assignEach_spec assignSpec ms bs h₁ length counts
    (fun m mem => (news m mem).1) apart fun r mem =>
      ⟨first.held (held r mem) (by simp), fun m memM => ((news m memM).2.apart (held r mem)).symm⟩
  refine ⟨_, h₂, each, assigned, (first.trans second).weaken ?_ fun _ _ => rfl⟩
  exact fun m mem => .inr (news m mem).2

theorem assignSpec_succ (newSpec : NewSpec d) (assignSpec : AssignSpec d) : AssignSpec (d + 1) := by
  intro h m (bs : List (Ptr d)) ⟨few, counts⟩ lone held
  have few : bs.length < 2 ^ 31 := few
  obtain ⟨h₁, taken, first, nextTracker, nextChunk⟩ := lone.subFetch
  obtain ⟨subPtrs, h₂, each, assigned, second⟩ := refill_spec newSpec assignSpec bs counts
    fun r mem => first.held (held r mem).1 fun g memG => List.mem_singleton.mp memG ▸ (held r mem).2
  refine ⟨h₂, ?_, first.trans second⟩
  have released : destroy (d + 1) h (single m (d + 1)) = some h₁ :=
    (destroy_single h m (d + 1)).trans taken
  apply (assign_some [single m d] few).trans
  apply (congrArg (Option.bind · _) released).trans
  exact (congrArg (Option.bind · _) each).trans assigned

theorem selfSpec_succ (newSpec : NewSpec d) (selfSpec : SelfSpec d) : SelfSpec (d + 1) := by
  intro h m lone
  obtain ⟨h₁, taken, first, nextTracker, nextChunk⟩ := lone.subFetch
  obtain ⟨ms, h₂, each, length, news, apart, second⟩ := newEach_spec newSpec 1 h₁
  obtain ⟨ms', h₃, assigned, length', news', third⟩ :=
    selfEach_spec selfSpec ms h₂ (fun m mem => (news m mem).1) apart
  obtain ⟨m', rfl⟩ := List.length_eq_one_iff.mp (length'.trans length)
  have fresh : New h₁ m' := by
    rcases (news' m' List.mem_cons_self).2 with old | new
    · exact (news m' old).2
    · exact new.mono second
  refine ⟨m', h₃, ?_, (news' m' List.mem_cons_self).1, .inr (fresh.mono first), ?_⟩
  · rw [length] at assigned
    have released : destroy (d + 1) h (single m (d + 1)) = some h₁ :=
      (destroy_single h m (d + 1)).trans taken
    apply (assign_none [single m d] (Nat.one_lt_two_pow (by decide))).trans
    apply (congrArg (Option.bind · _) released).trans
    exact (congrArg (Option.bind · _) each).trans assigned
  · apply (first.trans (second.trans third)).weaken
    · intro g mem
      rcases List.mem_append.mp mem with mem | mem
      · exact .inl mem
      · exact .inr ((news g (by simpa using mem)).2.mono first)
    · simp

theorem specs : ∀ d, NewSpec d ∧ AssignSpec d ∧ SelfSpec d
  | 0 => ⟨newSpec_zero, assignSpec_zero, selfSpec_zero⟩
  | d + 1 => by
      obtain ⟨newSpec, assignSpec, selfSpec⟩ := specs d
      exact ⟨newSpec_succ newSpec assignSpec, assignSpec_succ newSpec assignSpec,
        selfSpec_succ newSpec selfSpec⟩

/-! ### The objects alive -/

/-- The one-dimensional objects alive are `l`, and the trackers count them. -/
def Counted (l : Multiset ManagedPtr) (h : Heap) : Prop :=
  ∃ live : Lib.Table Nat ManagedPtr, live.values = l ∧ Ownership.Inv live h

theorem counted_of_run {es : List (Ownership.Event Nat)} {s : Ownership.State Nat}
    (fits : Lib.Along Ownership.step Ownership.TrackerFits .init es)
    (reached : Lib.run Ownership.step .init es = some s) : Counted s.live.values s.heap :=
  ⟨s.live, rfl, Lib.run_invariant_of_guard
    (fun s : Ownership.State Nat => Ownership.Inv s.live s.heap) (fun _ _ _ => Ownership.inv_step)
    es Ownership.inv_empty fits reached⟩

variable {l : Multiset ManagedPtr}

theorem Counted.held (counted : Counted l h) (mem : m ∈ l) :
    Held h m ∧ ∀ c, m.chunk = some c → h.registered c = true := by
  obtain ⟨live, rfl, inv⟩ := counted
  obtain ⟨i, found⟩ := Lib.Table.exists_of_mem_values mem
  obtain ⟨v, tracked⟩ := inv.allocated i m found
  refine ⟨⟨by rw [tracked]; rfl, inv.trackerFresh _ v tracked,
    fun c => inv.chunkFresh i m c found⟩, ?_⟩
  exact fun c chunk => (inv.registered c).mpr ⟨i, m, found, chunk⟩

theorem Counted.drop (counted : Counted (m ::ₘ l) h) :
    ∃ h', subFetch h m = some h' ∧ Counted l h' ∧ h'.nextChunk = h.nextChunk := by
  obtain ⟨live, values, inv⟩ := counted
  obtain ⟨i, found⟩ := Lib.Table.exists_of_mem_values (values ▸ Multiset.mem_cons_self m l)
  obtain ⟨v, tracked⟩ := inv.allocated i m found
  have taken : ∃ h', subFetch h m = some h' := by simp [subFetch, tracked]
  obtain ⟨h', taken⟩ := taken
  have nextChunk := (Ownership.subFetch_spec (inv.nElem i m found) tracked taken).2.1
  refine ⟨h', taken, ⟨live.remove i, ?_, inv.drop found taken⟩, nextChunk⟩
  exact (Multiset.cons_inj_right m).mp ((Lib.Table.values_remove found).trans values)

/-- The destructor takes the leaves away. -/
theorem destroy_counted : ∀ (d : Nat) (p : Ptr d) {l : Multiset ManagedPtr} {h : Heap},
    Counted (↑(leaves d p) + l) h →
      ∃ h', destroy d h p = some h' ∧ Counted l h' ∧ h'.nextChunk = h.nextChunk
  | 0, (m : ManagedPtr), l, h, counted => counted.drop
  | d + 1, (ps : List (Ptr d)), l, h, counted => by
      show ∃ h', List.foldrM (fun p h => destroy d h p) h ps = some h' ∧ _
      replace counted : Counted (↑(ps.flatMap (leaves d)) + l) h := counted
      induction ps generalizing l with
      | nil => exact ⟨h, rfl, by simpa using counted, rfl⟩
      | cons p ps ih =>
          have order : (↑((p :: ps).flatMap (leaves d)) + l : Multiset ManagedPtr) =
              ↑(ps.flatMap (leaves d)) + (↑(leaves d p) + l) := by
            rw [List.flatMap_cons, ← Multiset.coe_add, add_assoc, add_left_comm]
          rw [order] at counted
          obtain ⟨h₁, rest, counted₁, next₁⟩ := ih _ counted
          obtain ⟨h₂, last, counted₂, next₂⟩ := destroy_counted d p counted₁
          refine ⟨h₂, ?_, counted₂, next₂.trans next₁⟩
          rw [List.foldrM_cons, rest]
          exact last

/-! ### Assignment -/

/-- The object has the extents of `target`, its leaves refer to the chunks of the leaves of
`target`, and these are registered. -/
structure Aliases {d : Nat} (target a : Ptr d) (h : Heap) : Prop where
  same : Lib.Nested.map (fun m => (m.chunk, m.nElem)) d a =
    Lib.Nested.map (fun m => (m.chunk, m.nElem)) d target
  registered : ∀ m ∈ leaves d target, ∀ c, m.chunk = some c → h.registered c = true

/-- Reading the array of another object. -/
theorem refill_aliases (b : Ptr (d + 1)) {others : Multiset ManagedPtr}
    (counts : ∀ p ∈ (show List (Ptr d) from b), Counts d p)
    (counted : Counted (↑(leaves (d + 1) b) + others) h) :
    ∃ h', copy d h b = some (b, h') ∧ Aliases b b h' := by
  obtain ⟨newSpec, assignSpec, _⟩ := specs d
  have alive : ∀ m ∈ leaves (d + 1) b,
      Held h m ∧ ∀ c, m.chunk = some c → h.registered c = true := fun m mem =>
    counted.held (Multiset.mem_add.mpr (.inl (Multiset.mem_coe.mpr mem)))
  obtain ⟨subPtrs, h', each, assigned, frame⟩ :=
    refill_spec newSpec assignSpec b counts fun m mem => (alive m mem).1
  refine ⟨h', (congrArg (Option.bind · _) each).trans assigned, rfl, fun m mem c chunk => ?_⟩
  rw [frame.registered c ((alive m mem).1.chunkOld c chunk) (by simp)]
  exact (alive m mem).2 c chunk

/-- Reading the array just made: its leaves refer to new chunks. -/
theorem assign_self (a : Ptr (d + 1)) {others : Multiset ManagedPtr}
    (few : List.length (show List (Ptr d) from a) < 2 ^ 31)
    (counted : Counted (↑(leaves (d + 1) a) + others) h) :
    ∃ (ms : List ManagedPtr) (h' : Heap),
      assign (d + 1) h a none = some (ms.map fun m => single m d, h') ∧
        ms.length = List.length (show List (Ptr d) from a) ∧
        ∀ m ∈ ms, ∀ r ∈ leaves (d + 1) a, m.chunk ≠ r.chunk := by
  obtain ⟨newSpec, _, selfSpec⟩ := specs d
  obtain ⟨h₁, destroyed, _, nextChunk⟩ := destroy_counted (d + 1) a counted
  obtain ⟨ms, h₂, each, length, news, apart, first⟩ :=
    newEach_spec newSpec (List.length (show List (Ptr d) from a)) h₁
  obtain ⟨ms', h₃, assigned, length', news', _⟩ :=
    selfEach_spec selfSpec ms h₂ (fun m mem => (news m mem).1) apart
  refine ⟨ms', h₃, ?_, length'.trans length, fun m mem r memR same => ?_⟩
  · rw [length] at assigned
    apply (assign_none a few).trans
    apply (congrArg (Option.bind · _) destroyed).trans
    exact (congrArg (Option.bind · _) each).trans assigned
  · have fresh : New h₁ m := by
      rcases (news' m mem).2 with old | new
      · exact (news m old).2
      · exact new.mono first
    obtain ⟨c, chunk, le⟩ := fresh.chunk
    have old := (counted.held (Multiset.mem_add.mpr (.inl (Multiset.mem_coe.mpr memR)))).1
    have := old.chunkOld c (same ▸ chunk)
    omega

/-- The chunks of the leaves of an alias are those of the leaves of its target. -/
theorem Aliases.leaves_map {ms : List ManagedPtr} {a : Ptr (d + 1)}
    (aliases : Aliases (d := d + 1) a (show List (Ptr d) from ms.map fun m => single m d) h) :
    ms.map (fun m => (m.chunk, m.nElem)) =
      (leaves (d + 1) a).map fun m => (m.chunk, m.nElem) := by
  let made : Ptr (d + 1) := show List (Ptr d) from ms.map fun m => single m d
  calc ms.map (fun m => (m.chunk, m.nElem))
      = (leaves (d + 1) made).map fun m => (m.chunk, m.nElem) :=
        congrArg (List.map _) (Lib.Nested.leaves_singles d ms).symm
    _ = leaves (d + 1) (Lib.Nested.map (fun m => (m.chunk, m.nElem)) (d + 1) made) :=
        (Lib.Nested.leaves_map _ _ _).symm
    _ = leaves (d + 1) (Lib.Nested.map (fun m => (m.chunk, m.nElem)) (d + 1) a) :=
        congrArg (leaves (d + 1)) aliases.same
    _ = (leaves (d + 1) a).map fun m => (m.chunk, m.nElem) := Lib.Nested.leaves_map _ _ _

/-- A construction of an object from `ref`, or an assignment. -/
inductive Operation (d : Nat) where
  | construct (ref : Ptr (d + 1))
  | assign (a ref : Ptr (d + 1))
  | assignSelf (a : Ptr (d + 1))

namespace Operation

variable {d : Nat}

def run (h : Heap) : Operation d → Option (Ptr (d + 1) × Heap)
  | construct ref => copy d h ref
  | assign a ref => MultiPtr.assign (d + 1) h a (some ref)
  | assignSelf a => MultiPtr.assign (d + 1) h a none

/-- The object that is read. -/
def ref : Operation d → Ptr (d + 1)
  | construct ref => ref
  | assign _ ref => ref
  | assignSelf a => a

/-- The one-dimensional objects of the objects that take part. -/
def alive : Operation d → List ManagedPtr
  | construct ref => leaves (d + 1) ref
  | assign a ref => leaves (d + 1) a ++ leaves (d + 1) ref
  | assignSelf a => leaves (d + 1) a

/-- An object that is assigned to itself has no elements. -/
def ReadsAnother : Operation d → Prop
  | assignSelf a => a = ([] : List (Ptr d))
  | _ => True

/-- No loop of an `operator=` overflows its counter. The loop of the copy constructor counts an
`unsigned int`. -/
def Counts : Operation d → Prop
  | construct ref => ∀ p ∈ (show List (Ptr d) from ref), MultiPtr.Counts d p
  | assign _ ref => MultiPtr.Counts (d + 1) ref
  | assignSelf a => MultiPtr.Counts (d + 1) a

end Operation

theorem copy_counts {b : Ptr (d + 1)} {r : Ptr (d + 1) × Heap} (copied : copy d h b = some r) :
    ∀ p ∈ (show List (Ptr d) from b), Counts d p := by
  obtain ⟨subPtrs, made, assigned⟩ := Option.bind_eq_some_iff.mp copied
  intro p mem
  obtain ⟨_, _, _, entry⟩ := assignEach_each (newEach_length made) assigned p mem
  exact counts_of_assign entry

/-- An object that is not empty does not alias what it was before it is assigned to itself. -/
theorem assign_self_apart {a : Ptr (d + 1)} {others : Multiset ManagedPtr}
    (few : List.length (show List (Ptr d) from a) < 2 ^ 31)
    (counted : Counted (↑(leaves (d + 1) a) + others) h) {a' : Ptr (d + 1)} {h' : Heap}
    (assigned : assign (d + 1) h a none = some (a', h')) (aliases : Aliases a a' h') :
    a = ([] : List (Ptr d)) := by
  obtain ⟨ms, _, assigned', length, other⟩ := assign_self a few counted
  obtain ⟨rfl, rfl⟩ := Prod.mk.inj (Option.some.inj (assigned.symm.trans assigned'))
  by_contra more
  have some : 0 < ms.length := by
    rw [length]
    exact List.length_pos_iff.mpr more
  obtain ⟨m, mem⟩ := List.exists_mem_of_length_pos some
  have image : (m.chunk, m.nElem) ∈ ms.map fun m => (m.chunk, m.nElem) := List.mem_map_of_mem mem
  rw [Aliases.leaves_map aliases] at image
  obtain ⟨r, memR, same⟩ := List.mem_map.mp image
  exact other m mem r memR (congrArg Prod.fst same).symm

/-- For all objects of at least two dimensions whose trackers count the objects alive, the
construction or assignment makes an alias exactly if it reads another object, or an empty one, and
no loop counts beyond an `int`. -/
theorem assign_aliases_iff (op : Operation d) {others : Multiset ManagedPtr}
    (counted : Counted (↑op.alive + others) h) :
    (∃ a' h', op.run h = some (a', h') ∧ Aliases op.ref a' h') ↔ op.ReadsAnother ∧ op.Counts := by
  cases op with
  | construct b =>
      constructor
      · rintro ⟨a', h', copied, _⟩
        exact ⟨trivial, copy_counts copied⟩
      · rintro ⟨_, counts⟩
        obtain ⟨h', copied, aliases⟩ := refill_aliases b counts counted
        exact ⟨b, h', copied, aliases⟩
  | assign a b =>
      constructor
      · rintro ⟨a', h', assigned, _⟩
        exact ⟨trivial, counts_of_assign assigned⟩
      · rintro ⟨_, few, counts⟩
        have order : (↑(leaves (d + 1) a ++ leaves (d + 1) b) + others : Multiset ManagedPtr) =
            ↑(leaves (d + 1) a) + (↑(leaves (d + 1) b) + others) := by
          rw [← Multiset.coe_add, add_assoc]
        obtain ⟨h₁, destroyed, counted₁, _⟩ :=
          destroy_counted (d + 1) a (order ▸ counted : Counted (_ + _) h)
        obtain ⟨h', copied, aliases⟩ := refill_aliases b counts counted₁
        refine ⟨b, h', ?_, aliases⟩
        apply (assign_some a few).trans
        exact (congrArg (Option.bind · _) destroyed).trans copied
  | assignSelf a =>
      constructor
      · rintro ⟨a', h', assigned, aliases⟩
        have few := few_of_assign none assigned
        obtain rfl : a = ([] : List (Ptr d)) := assign_self_apart few counted assigned aliases
        exact ⟨rfl, Nat.two_pow_pos 31, fun p mem => absurd mem List.not_mem_nil⟩
      · rintro ⟨empty, few, _⟩
        obtain rfl : a = ([] : List (Ptr d)) := empty
        obtain ⟨ms, h', assigned, length, _⟩ := assign_self _ few counted
        obtain rfl := List.eq_nil_of_length_eq_zero length
        exact ⟨_, h', assigned, rfl, fun m mem => absurd mem List.not_mem_nil⟩

/-- Two objects of one row each. -/
def twoRows : Ownership.State Nat :=
  (Lib.run Ownership.step .init [.construct 0 5, .construct 1 5]).getD .init

theorem assign_aliases_iff_twoRows :
    ∃ a' h', assign 1 twoRows.heap [⟨some 0, 0, 5⟩] (some [⟨some 1, 1, 5⟩]) = some (a', h') ∧
      Aliases (d := 1) [(⟨some 1, 1, 5⟩ : ManagedPtr)] a' h' := by
  have counted : Counted twoRows.live.values twoRows.heap := counted_of_run
    (show Lib.Along Ownership.step Ownership.TrackerFits .init
      [.construct 0 5, .construct 1 5] by decide) rfl
  have rows : twoRows.live.values = ↑[(⟨some 0, 0, 5⟩ : ManagedPtr), ⟨some 1, 1, 5⟩] + 0 := by
    decide
  rw [rows] at counted
  exact (assign_aliases_iff (d := 0)
    (.assign [(⟨some 0, 0, 5⟩ : ManagedPtr)] [(⟨some 1, 1, 5⟩ : ManagedPtr)]) counted).mpr
      ⟨trivial, by decide, fun _ _ => trivial⟩

/-- One row of five elements assigned to itself: its leaf becomes a new one of one element. -/
theorem assign_self_renews : ¬ ∀ (d : Nat) (op : Operation d) (h : Heap)
    (others : Multiset ManagedPtr), Counted (↑op.alive + others) h →
      ∃ a' h', op.run h = some (a', h') ∧ Aliases op.ref a' h' := by
  intro claim
  have counted := counted_of_run
    (show Lib.Along Ownership.step Ownership.TrackerFits .init [.construct 0 5] by decide) rfl
  obtain ⟨a', h', assigned, aliases⟩ :=
    claim 0 (.assignSelf [(⟨some 0, 0, 5⟩ : ManagedPtr)]) _ 0 counted
  have renewed := congrArg (Option.map Prod.fst) assigned
  obtain rfl : ([(⟨some 1, 1, 1⟩ : ManagedPtr)] : List ManagedPtr) = a' := Option.some.inj renewed
  have same : [((some 1 : Option Nat), (1 : UInt32))] = [(some 0, 5)] := aliases.same
  exact absurd same (by decide)

end Rambrain.MultiPtr
