import Rambrain.SwapIn

/-!
The preemptive section through the operations that move single chunks.

`InOrder s S a O` reads the ring as the section `S`, the chunk `a` at `active` and the rest `O`;
`counterActive` is not in the section, and the chunks of the section and `a` are in RAM. `touch`,
`schedulerRegister` and `schedulerDelete` are given as what they make of the three parts.
-/

namespace Rambrain.Eviction

open Lib Cyclic

/-- The ring is the section `S`, the chunk `a` at `active` and the chunks `O`. -/
structure InOrder (s : State) (S : List Nat) (a : Nat) (O : List Nat) : Prop where
  ring : Ring s.links (S ++ a :: O)
  mem : ∀ x, x ∈ S ++ a :: O ↔ x ∈ s.memChunks
  real : 0 ∉ S ++ a :: O
  active : s.active = some a
  counter : ∃ c ∈ a :: O, s.counterActive = some c
  start : s.preemptiveStart = S.head?
  loaded : ∀ x, s.preemptiveLoaded x = true ↔ x ∈ S
  bytes : s.preemptiveBytes = s.sizes S
  inRam : ∀ x ∈ S, s.separateThis x = false
  resident : s.separateThis a = false

variable {s t : State} {S O L : List Nat} {a x : Nat}

theorem InOrder.wellFormed (order : InOrder s S a O) : WellFormed s (S ++ a :: O) where
  ring := order.ring
  mem := order.mem
  active := ⟨a, by simp, order.active⟩
  counter := by
    obtain ⟨c, mem, is⟩ := order.counter
    exact ⟨c, List.mem_append_right S mem, is⟩
  real := order.real

theorem InOrder.isSection (order : InOrder s S a O) : Section s (S ++ a :: O) S where
  start := order.start
  ring := ⟨a, O, order.active, .refl _⟩
  loaded := order.loaded
  bytes := order.bytes
  inRam := order.inRam

/-- A section on a ring that is well formed, with `counterActive` behind it. -/
theorem InOrder.of (wf : WellFormed t L) (isSection : Section t L S)
    (counter : ∀ c, t.counterActive = some c → c ∉ S)
    (resident : ∀ a, t.active = some a → t.separateThis a = false) : ∃ a O, InOrder t S a O := by
  obtain ⟨a, O, isActive, rotated⟩ := isSection.ring
  refine ⟨a, O, ?_⟩
  constructor
  case ring => exact ring_of_isRotated wf.ring rotated
  case mem =>
    intro x
    rw [rotated.mem_iff]
    exact wf.mem x
  case real => exact fun mem => wf.real (rotated.mem_iff.mp mem)
  case active => exact isActive
  case counter =>
    obtain ⟨c, memC, isCounter⟩ := wf.counter
    have mem := rotated.mem_iff.mpr memC
    exact ⟨c, (List.mem_append.mp mem).resolve_left (counter c isCounter), isCounter⟩
  case start => exact isSection.start
  case loaded => exact isSection.loaded
  case bytes => exact isSection.bytes
  case inRam => exact isSection.inRam
  case resident => exact resident a isActive

/-- What the section needs of the chunks. -/
theorem InOrder.congr (order : InOrder s S a O) {chunk : Nat → Chunk}
    (sizes : ∀ x, (chunk x).size = (s.chunk x).size)
    (stored : ∀ x, ({ s with chunk := chunk } : State).separateThis x = s.separateThis x) :
    InOrder { s with chunk := chunk } S a O := by
  constructor
  case ring => exact order.ring
  case mem => exact order.mem
  case real => exact order.real
  case active => exact order.active
  case counter => exact order.counter
  case start => exact order.start
  case loaded => exact order.loaded
  case bytes =>
    have same : ({ s with chunk := chunk } : State).sizes S = s.sizes S := by
      simp only [State.sizes, sizes]
    rw [same]
    exact order.bytes
  case inRam =>
    intro x mem
    rw [stored]
    exact order.inRam x mem
  case resident =>
    rw [stored]
    exact order.resident

/-- The ring as the three operations read it, from `active` on. -/
theorem InOrder.reads {s : Scheduler} (order : InOrder s.toPreemptive S a O) :
    Reads s (a :: O ++ S) where
  ring := order.ring.rotate
  active := order.active
  counter := by
    obtain ⟨c, mem, is⟩ := order.counter
    exact .inr ⟨c, List.mem_append_left S mem, is⟩

theorem InOrder.nodup (order : InOrder s S a O) : (S ++ a :: O).Nodup := order.ring.nodup

theorem InOrder.apart (order : InOrder s S a O) (mem : x ∈ a :: O) : x ∉ S := by
  intro inS
  exact (List.nodup_append.mp order.nodup).2.2 x inS x mem rfl

/-- The section without one of its chunks. -/
theorem InOrder.sizes_split (order : InOrder s S a O) {S1 S2 : List Nat} (isS : S = S1 ++ x :: S2) :
    s.preemptiveBytes - (s.chunk x).size = s.sizes (S1 ++ S2) := by
  have all : s.sizes S = (s.chunk x).size + s.sizes (S1 ++ S2) := by
    rw [isS]
    simp only [State.sizes, List.map_append, List.map_cons, List.sum_append, List.sum_cons]
    omega
  rw [order.bytes, all]
  push_cast
  omega

/-- `preemptiveStart` moves on when its chunk leaves the section. -/
theorem InOrder.startAfter (order : InOrder s S a O) {S1 S2 : List Nat} (isS : S = S1 ++ x :: S2) :
    s.startAfter x = (S1 ++ S2).head? := by
  have nodup := order.nodup
  unfold State.startAfter
  rw [order.start, order.active, isS]
  cases S1 with
  | nil =>
      have ring := order.ring
      rw [isS, List.append_assoc] at ring
      cases S2 with
      | nil =>
          have next : s.links.next x = a := ring.joined.1
          simp [next]
      | cons y S2 =>
          have next : s.links.next x = y := by
            have front : Ring s.links ([] ++ x :: y :: (S2 ++ a :: O)) := ring
            exact front.joined.1
          have ne : y ≠ a := by
            rintro rfl
            exact order.apart List.mem_cons_self (by simp [isS])
          simp [next, ne]
  | cons y S1 =>
      have ne : y ≠ x := by
        rintro rfl
        rw [isS] at nodup
        simp at nodup
      simp [ne]

theorem InOrder.startStays (order : InOrder s S a O) (out : x ∉ S) :
    s.startAfter x = s.preemptiveStart := by
  unfold State.startAfter
  rw [if_neg]
  intro is
  rw [order.start] at is
  exact out (List.mem_of_head? is)

/-- The chunk before one of the rest is not in the section. -/
theorem InOrder.prev_mem (order : InOrder s S a O) (mem : x ∈ O) : s.links.prev x ∈ a :: O := by
  obtain ⟨O1, O2, rfl⟩ := List.append_of_mem mem
  obtain ⟨init, y, is⟩ := exists_concat (List.cons_ne_nil a O1)
  have ring := order.ring
  have split : S ++ a :: (O1 ++ x :: O2) = (S ++ init) ++ y :: x :: O2 := by
    have front : a :: (O1 ++ x :: O2) = init ++ y :: x :: O2 := by
      rw [← List.cons_append, is, List.append_assoc]
      rfl
    rw [front, List.append_assoc]
  rw [split] at ring
  rw [ring.joined.2, ← List.cons_append, is]
  simp

/-- The three parts of the ring without the chunk `x`. -/
structure Without (s : State) (S O : List Nat) (a x : Nat) (S' O' : List Nat) : Prop where
  split : (a :: O ++ S).erase x = O' ++ S'
  start : s.startAfter x = S'.head?
  mem : ∀ y, y ∈ S' ↔ y ∈ S ∧ y ≠ x
  bytes : (if s.preemptiveLoaded x then s.preemptiveBytes - (s.chunk x).size
    else s.preemptiveBytes) = s.sizes S'

theorem InOrder.loaded_false (order : InOrder s S a O) (out : x ∉ S) :
    s.preemptiveLoaded x = false := by
  rw [← Bool.not_eq_true, order.loaded]
  exact out

/-- A chunk that is not in the section. -/
theorem InOrder.without_rest (order : InOrder s S a O) {O1 O2 : List Nat}
    (isO : a :: O = O1 ++ x :: O2) : Without s S O a x S (O1 ++ O2) := by
  have out : x ∉ S := order.apart (isO ▸ by simp)
  constructor
  case split =>
    have outO : x ∉ O1 := by
      have nodup := (List.nodup_append.mp order.nodup).2.1
      rw [isO] at nodup
      intro mem
      exact (List.nodup_append.mp nodup).2.2 x mem x List.mem_cons_self rfl
    rw [isO, List.append_assoc, List.erase_append_right _ outO, List.cons_append,
      List.erase_cons_head, List.append_assoc]
  case start => exact (order.startStays out).trans order.start
  case mem =>
    intro y
    refine ⟨fun mem => ⟨mem, ?_⟩, And.left⟩
    rintro rfl
    exact out mem
  case bytes =>
    rw [order.loaded_false out]
    exact order.bytes

/-- A chunk of the section. -/
theorem InOrder.without_section (order : InOrder s S a O) {S1 S2 : List Nat}
    (isS : S = S1 ++ x :: S2) : Without s S O a x (S1 ++ S2) (a :: O) := by
  have nodup := order.nodup
  have inS : x ∈ S := isS ▸ by simp
  have outS : x ∉ S1 ++ S2 := by
    have nodupS := (List.nodup_append.mp nodup).1
    rw [isS] at nodupS
    exact (List.nodup_cons.mp (List.nodup_middle.mp nodupS)).1
  constructor
  case split =>
    have outO : x ∉ a :: O := fun mem => order.apart mem inS
    have out1 : x ∉ S1 := fun mem => outS (List.mem_append_left S2 mem)
    rw [List.erase_append_right _ outO, isS, List.erase_append_right _ out1, List.erase_cons_head]
  case start => exact order.startAfter isS
  case mem =>
    intro y
    rw [isS]
    constructor
    · intro mem
      refine ⟨?_, ?_⟩
      · rcases List.mem_append.mp mem with mem | mem
        · exact List.mem_append_left _ mem
        · exact List.mem_append_right S1 (List.mem_cons_of_mem x mem)
      · rintro rfl
        exact outS mem
    · rintro ⟨mem, ne⟩
      simp only [List.mem_append, List.mem_cons, ne, false_or] at mem ⊢
      exact mem
  case bytes =>
    rw [(order.loaded x).mpr inS]
    exact order.sizes_split isS

theorem InOrder.without (order : InOrder s S a O) (mem : x ∈ S ++ a :: O) :
    ∃ S' O', Without s S O a x S' O' ∧ (x = a → S' = S ∧ O' = O) ∧
      (x ≠ a → ∃ O'', O' = a :: O'') := by
  rcases List.mem_append.mp mem with inS | inO
  · obtain ⟨S1, S2, isS⟩ := List.append_of_mem inS
    refine ⟨_, _, order.without_section isS, ?_, fun _ => ⟨O, rfl⟩⟩
    rintro rfl
    exact absurd inS (order.apart List.mem_cons_self)
  · obtain ⟨O1, O2, isO⟩ := List.append_of_mem inO
    have nodup := (List.nodup_append.mp order.nodup).2.1
    cases O1 with
    | nil =>
        obtain ⟨rfl, rfl⟩ := List.cons.inj isO
        exact ⟨S, O, order.without_rest isO, fun _ => ⟨rfl, rfl⟩, fun ne => absurd rfl ne⟩
    | cons b O1 =>
        obtain ⟨rfl, rfl⟩ := List.cons.inj isO
        refine ⟨S, a :: O1 ++ O2, order.without_rest isO, ?_, fun _ => ⟨O1 ++ O2, rfl⟩⟩
        rintro rfl
        exact absurd (by simp) (List.nodup_cons.mp nodup).1

/-! ### `touch` -/

theorem touch_fields (s : Scheduler) (x : Nat) :
    (s.touch x).memChunks = s.memChunks ∧ (s.touch x).chunk = s.chunk ∧
      (s.touch x).preemptiveStart = s.startAfter x ∧
      (∀ y, (s.touch x).preemptiveLoaded y = (s.preemptiveLoaded y && decide (y ≠ x))) ∧
      (s.touch x).preemptiveBytes =
        if s.preemptiveLoaded x then s.preemptiveBytes - (s.chunk x).size
        else s.preemptiveBytes := by
  refine ⟨?_, ?_, rfl, ?_, ?_⟩
  · simp [Scheduler.touch]
  · simp [Scheduler.touch]
  · intro y
    unfold Scheduler.touch
    cases isLoaded : s.preemptiveLoaded x
    · by_cases here : y = x
      · simp [here, isLoaded]
      · simp [here]
    · by_cases here : y = x
      · simp [here, State.unflag]
      · simp [here, State.unflag]
  · unfold Scheduler.touch
    cases isLoaded : s.preemptiveLoaded x
    · simp
    · simp [State.unflag]

/-- `touch` takes the chunk out of the section, or out of the rest, and brings it to `active`. -/
theorem InOrder.touch {s : Scheduler} (order : InOrder s.toPreemptive S a O)
    (mem : x ∈ S ++ a :: O) (inRam : s.separateThis x = false) :
    ∃ S' O', InOrder (s.touch x).toPreemptive S' x O' := by
  obtain ⟨memChunks, chunk, start, loaded, bytes⟩ := touch_fields s x
  have stored : ∀ y, (s.touch x).separateThis y = s.separateThis y := by
    intro y
    unfold Cyclic.State.separateThis Cyclic.State.status
    rw [chunk]
  have onRing : x ∈ a :: O ++ S := by
    simp only [List.mem_append] at mem ⊢
    exact mem.symm
  obtain ⟨S', O', without, -⟩ := order.without mem
  obtain ⟨⟨ring, active, counter⟩, moved⟩ := order.reads.touch onRing
  have same : ∀ y, y ∈ S' ++ x :: O' ↔ y ∈ S ++ a :: O := by
    intro y
    have perm := List.perm_cons_erase onRing
    rw [without.split] at perm
    have turned : (S' ++ x :: O').Perm (x :: (O' ++ S')) := List.perm_append_comm
    exact ((turned.trans perm.symm).trans List.perm_append_comm).mem_iff
  rw [without.split] at ring counter
  refine ⟨S', O', ?_⟩
  constructor
  case ring =>
    have front : Ring (s.touch x).links (x :: O' ++ S') := ring
    exact front.rotate
  case mem =>
    intro y
    rw [same, memChunks]
    exact order.mem y
  case real => exact fun zero => order.real ((same 0).mp zero)
  case active => exact active
  case counter =>
    obtain ⟨c, memC, isC⟩ := counter.resolve_left fun empty => by simp at empty
    obtain ⟨d, memD, isD⟩ := order.counter
    have out : c ∉ S := by
      rw [isC] at moved
      split_ifs at moved with away
      · -- `counterActive` was at the chunk, which is not at the front
        have inO : x ∈ O := by
          have here : d = x := Option.some.inj (isD.symm.trans away.1)
          have ne : x ≠ a := fun eq => away.2 (eq ▸ order.active)
          exact (List.mem_cons.mp (here ▸ memD)).resolve_left ne
        rw [Option.some.inj moved]
        exact order.apart (order.prev_mem inO)
      · have here : c = d := Option.some.inj (moved.trans isD)
        exact here ▸ order.apart memD
    have out' : c ∉ S' := fun inS => out ((without.mem c).mp inS).1
    exact ⟨c, by simpa [out'] using memC, isC⟩
  case start => exact start.trans without.start
  case loaded =>
    intro y
    rw [loaded, Bool.and_eq_true, order.loaded, decide_eq_true_eq]
    exact (without.mem y).symm
  case bytes =>
    have sizes : (s.touch x).sizes S' = s.sizes S' := by
      unfold State.sizes
      rw [chunk]
    rw [sizes, bytes]
    exact without.bytes
  case inRam =>
    intro y inS
    rw [stored]
    exact order.inRam y ((without.mem y).mp inS).1
  case resident =>
    rw [stored]
    exact inRam

/-! ### `schedulerRegister` and `schedulerDelete` -/

/-- No chunk is registered. -/
structure Blank (s : State) : Prop where
  memChunks : s.memChunks = ∅
  active : s.active = none
  counter : s.counterActive = none
  start : s.preemptiveStart = none
  loaded : ∀ x, s.preemptiveLoaded x = false
  bytes : s.preemptiveBytes = 0

/-- A new chunk comes to `active`; the section stays. -/
theorem InOrder.register {s : Scheduler} (order : InOrder s.toPreemptive S a O)
    (out : x ∉ S ++ a :: O) (real : x ≠ 0) {chunk : Nat → Chunk} {memoryUsed memIDPace : Nat}
    (others : ∀ y, y ≠ x → chunk y = s.chunk y)
    (fresh : ({ s with chunk := chunk } : Scheduler).separateThis x = false) :
    InOrder (({ s with chunk, memoryUsed, memIDPace, memChunks := insert x s.memChunks } :
      Scheduler).schedulerRegister x).toPreemptive S x (a :: O) := by
  have outRing : x ∉ a :: O ++ S := fun mem => out (List.perm_append_comm.mem_iff.mp mem)
  have turned : (S ++ x :: a :: O).Perm (x :: (S ++ a :: O)) := List.perm_middle
  have ne : ∀ y ∈ S ++ a :: O, y ≠ x := by
    rintro y mem rfl
    exact out mem
  have stored : ∀ y ∈ S ++ a :: O,
      ({ s with chunk := chunk } : Scheduler).separateThis y = s.separateThis y := by
    intro y mem
    unfold Cyclic.State.separateThis Cyclic.State.status
    rw [show ({ s with chunk := chunk } : Scheduler).chunk y = s.chunk y from others y (ne y mem)]
  generalize isU : ({ s with chunk, memoryUsed, memIDPace, memChunks := insert x s.memChunks } :
    Scheduler) = u
  have reads : Reads u (a :: O ++ S) := by
    rw [← isU]
    exact ⟨order.reads.ring, order.reads.active, order.reads.counter⟩
  obtain ⟨ring, active, _, counter⟩ := register_ring reads.ring reads.active outRing
  have same : (u.schedulerRegister x).chunk = chunk ∧
      (u.schedulerRegister x).memChunks = insert x s.memChunks := by
    rw [← isU]
    simp only [Scheduler.schedulerRegister, State.schedulerRegister,
      Cyclic.State.schedulerRegister, Cyclic.State.tick, order.active]
    exact ⟨trivial, trivial⟩
  have separate : ∀ y, (u.schedulerRegister x).separateThis y =
      ({ s with chunk := chunk } : Scheduler).separateThis y := by
    intro y
    unfold Cyclic.State.separateThis Cyclic.State.status
    rw [same.1]
  constructor
  case ring =>
    have front : Ring (u.schedulerRegister x).links (x :: a :: O ++ S) := ring
    exact front.rotate
  case mem =>
    intro y
    rw [same.2, Finset.mem_insert, ← order.mem, turned.mem_iff, List.mem_cons]
  case real =>
    intro zero
    rcases List.mem_cons.mp (turned.mem_iff.mp zero) with here | mem
    · exact real here.symm
    · exact order.real mem
  case active => exact active
  case counter =>
    obtain ⟨c, memC, isC⟩ := order.counter
    refine ⟨c, List.mem_cons_of_mem x memC, ?_⟩
    have inRam : ({ s with chunk := chunk } : Scheduler).separateThis a = false := by
      rw [stored a (by simp)]
      exact order.resident
    have statusU : u.status a = ({ s with chunk := chunk } : Scheduler).status a := by
      rw [← isU]
      rfl
    have is := counter a rfl
    simp only [Cyclic.State.separateThis, ← statusU, decide_eq_false_iff_not, not_or] at inRam
    rw [if_neg fun both => both.2.elim inRam.2 inRam.1] at is
    exact is.trans (by rw [← isU]; exact isC)
  case start =>
    rw [← isU]
    exact order.start
  case loaded =>
    intro y
    rw [← isU]
    exact order.loaded y
  case bytes =>
    have sizes : (u.schedulerRegister x).sizes S = s.sizes S := by
      unfold State.sizes
      rw [same.1]
      congr 1
      apply List.map_congr_left
      intro y mem
      rw [others y (ne y (List.mem_append_left _ mem))]
    have bytes : (u.schedulerRegister x).preemptiveBytes = s.preemptiveBytes := by
      rw [← isU]
      rfl
    rw [sizes, bytes]
    exact order.bytes
  case inRam =>
    intro y mem
    rw [separate, stored y (List.mem_append_left _ mem)]
    exact order.inRam y mem
  case resident =>
    rw [separate]
    exact fresh

/-- The first chunk. -/
theorem Blank.register {s : Scheduler} (blank : Blank s.toPreemptive) (real : x ≠ 0)
    {chunk : Nat → Chunk} {memoryUsed memIDPace : Nat}
    (fresh : ({ s with chunk := chunk } : Scheduler).separateThis x = false) :
    InOrder (({ s with chunk, memoryUsed, memIDPace, memChunks := insert x s.memChunks } :
      Scheduler).schedulerRegister x).toPreemptive [] x [] := by
  generalize isU : ({ s with chunk, memoryUsed, memIDPace, memChunks := insert x s.memChunks } :
    Scheduler) = u
  have activeU : u.active = ([] : List Nat).head? := by
    rw [← isU]
    exact blank.active
  have nothing : Ring u.links [] := ⟨List.nodup_nil, path_nil⟩
  obtain ⟨ring, active, alone, _⟩ := register_ring nothing activeU (List.not_mem_nil (a := x))
  have same : (u.schedulerRegister x).chunk = chunk ∧
      (u.schedulerRegister x).memChunks = insert x s.memChunks := by
    rw [← isU]
    simp only [Scheduler.schedulerRegister, State.schedulerRegister,
      Cyclic.State.schedulerRegister, Cyclic.State.tick, blank.active]
    exact ⟨trivial, trivial⟩
  constructor
  case ring => exact ring
  case mem =>
    intro y
    rw [same.2, blank.memChunks]
    simp
  case real => simpa using real.symm
  case active => exact active
  case counter => exact ⟨x, List.mem_cons_self, alone rfl⟩
  case start =>
    rw [← isU]
    exact blank.start
  case loaded =>
    intro y
    rw [← isU]
    change s.preemptiveLoaded y = true ↔ y ∈ []
    simp [blank.loaded y]
  case bytes =>
    rw [← isU]
    exact blank.bytes
  case inRam =>
    intro y mem
    cases mem
  case resident =>
    unfold Cyclic.State.separateThis Cyclic.State.status at fresh ⊢
    rw [same.1]
    exact fresh

/-- What is left when a chunk is deleted: `active` moves on to a chunk in RAM, and if it was the
last one in RAM before the section, there is no section. -/
def State.leaves (s : State) (id : Nat) : Prop :=
  s.active = some id →
    (s.preemptiveStart = none ∨ s.counterActive ≠ some id) ∧
      (s.links.next id = id ∨ s.separateThis (s.links.next id) = false)

theorem delete_fields (s : Scheduler) (x : Nat)
    (unflagged : s.separateThis x = true → s.preemptiveLoaded x = false) :
    (s.schedulerDelete x).chunk = s.chunk ∧
      (s.schedulerDelete x).preemptiveStart = s.startAfter x ∧
      (∀ y, (s.schedulerDelete x).preemptiveLoaded y =
        (s.preemptiveLoaded y && decide (y ≠ x))) ∧
      (s.schedulerDelete x).preemptiveBytes =
        if s.preemptiveLoaded x then s.preemptiveBytes - (s.chunk x).size
        else s.preemptiveBytes := by
  have chunk : (s.schedulerDelete x).chunk = s.chunk := by
    simp only [Scheduler.schedulerDelete, State.schedulerDelete, Cyclic.State.schedulerDelete]
    split <;> rfl
  refine ⟨chunk, rfl, ?_⟩
  simp only [Scheduler.schedulerDelete, State.schedulerDelete]
  by_cases stored : s.status x = .swapped ∨ s.status x = .swapout
  · have isFalse : s.preemptiveLoaded x = false := by
      apply unflagged
      simp only [Cyclic.State.separateThis, decide_eq_true_eq]
      exact stored.symm
    rw [if_pos stored, isFalse]
    refine ⟨fun y => ?_, rfl⟩
    by_cases here : y = x
    · simp [here, isFalse]
    · simp [here]
  · rw [if_neg stored]
    cases isLoaded : s.preemptiveLoaded x
    · refine ⟨fun y => ?_, by simp⟩
      by_cases here : y = x
      · simp [here, isLoaded]
      · simp [here]
    · refine ⟨fun y => ?_, by simp [State.unflag]⟩
      by_cases here : y = x
      · simp [here, State.unflag]
      · simp [here, State.unflag]

/-- `schedulerDelete` takes the chunk out of the part it is in. -/
theorem InOrder.delete {s : Scheduler} (order : InOrder s.toPreemptive S a O)
    (mem : x ∈ S ++ a :: O) (leaves : s.leaves x) (memoryUsed : Nat) :
    let t : Scheduler := { s.schedulerDelete x with memoryUsed, memChunks := s.memChunks.erase x }
    Blank t.toPreemptive ∨ ∃ S' a' O', InOrder t.toPreemptive S' a' O' := by
  intro t
  obtain ⟨chunk, start, loaded, bytes⟩ := delete_fields s x (by
    intro stored
    apply order.loaded_false
    intro inS
    rw [order.inRam x inS] at stored
    cases stored)
  have onRing : x ∈ a :: O ++ S := by
    simp only [List.mem_append] at mem ⊢
    exact mem.symm
  obtain ⟨S', O', without, isFront, others⟩ := order.without mem
  obtain ⟨⟨ring, active, counter⟩, moved⟩ := order.reads.delete onRing
  have more : (a :: O ++ S).erase x ≠ [] → a :: O ++ S ≠ [x] := by
    rintro nonempty alone
    rw [alone, List.erase_cons_head] at nonempty
    exact nonempty rfl
  rw [without.split] at ring active counter more
  have members : ∀ y, y ∈ O' ++ S' ↔ y ∈ s.memChunks.erase x := by
    intro y
    rw [← without.split, Finset.mem_erase, ← order.mem, order.ring.rotate.nodup.mem_erase_iff,
      List.perm_append_comm.mem_iff]
  have sizes : t.sizes S' = s.sizes S' := by
    unfold State.sizes
    rw [show t.chunk = s.chunk from chunk]
  have isLoaded : ∀ y, t.preemptiveLoaded y = true ↔ y ∈ S' := by
    intro y
    rw [show t.preemptiveLoaded y = _ from loaded y, Bool.and_eq_true, order.loaded,
      decide_eq_true_eq]
    exact (without.mem y).symm
  have isBytes : t.preemptiveBytes = t.sizes S' := by
    rw [sizes]
    exact bytes.trans without.bytes
  have stored : ∀ y, t.separateThis y = s.separateThis y := by
    intro y
    unfold Cyclic.State.separateThis Cyclic.State.status
    rw [show t.chunk = s.chunk from chunk]
  cases isO : O' with
  | nil =>
      left
      have here : x = a := by
        by_contra ne
        obtain ⟨O'', is⟩ := others ne
        rw [isO] at is
        cases is
      obtain ⟨rfl, rfl⟩ := isFront here
      subst here
      -- the last chunk is deleted
      have isEmpty : S' = [] := by
        obtain ⟨c, memC, isC⟩ := order.counter
        rw [isO, List.mem_singleton] at memC
        have start := (leaves order.active).1.resolve_right fun ne => ne (memC ▸ isC)
        rw [order.start] at start
        exact List.head?_eq_none_iff.mp start
      rw [isO, isEmpty] at active counter members
      rw [isEmpty] at isLoaded isBytes
      constructor
      case memChunks =>
        apply Finset.eq_empty_of_forall_notMem
        intro y inL
        simpa using (members y).mpr inL
      case active => exact active
      case counter => exact counter.elim And.right fun ⟨c, memC, _⟩ => by cases memC
      case start => exact (start.trans without.start).trans (by rw [isEmpty]; rfl)
      case loaded =>
        intro y
        rw [← Bool.not_eq_true, isLoaded]
        exact List.not_mem_nil
      case bytes => exact isBytes
  | cons b O'' =>
      right
      rw [isO] at ring active counter members more
      refine ⟨S', b, O'', ?_⟩
      constructor
      case ring =>
        have front : Ring t.links (b :: O'' ++ S') := ring
        exact front.rotate
      case mem =>
        intro y
        exact List.perm_append_comm.mem_iff.trans (members y)
      case real =>
        intro zero
        have inL := (members 0).mp (List.perm_append_comm.mem_iff.mp zero)
        exact order.real ((order.mem 0).mpr (Finset.mem_of_mem_erase inL))
      case active => exact active
      case counter =>
        obtain ⟨c, memC, isC⟩ := counter.resolve_left fun empty => by simp at empty
        obtain ⟨d, memD, isD⟩ := order.counter
        have is := moved (more (by simp))
        have out : c ∉ S' := by
          rw [isC] at is
          split_ifs at is with onIt
          · by_cases here : x = a
            · obtain ⟨rfl, _⟩ := isFront here
              have start := (leaves (here ▸ order.active)).1.resolve_right fun ne => ne onIt
              rw [order.start] at start
              rw [List.head?_eq_none_iff.mp start]
              exact List.not_mem_nil
            · have inO : x ∈ O := by
                have same : d = x := Option.some.inj (isD.symm.trans onIt)
                exact (List.mem_cons.mp (same ▸ memD)).resolve_left here
              rw [Option.some.inj is]
              exact fun inS => order.apart (order.prev_mem inO) ((without.mem _).mp inS).1
          · have same : c = d := Option.some.inj (is.trans isD)
            exact fun inS => order.apart (same ▸ memD) ((without.mem c).mp inS).1
        refine ⟨c, ?_, isC⟩
        simpa [out] using memC
      case start => exact start.trans without.start
      case loaded => exact isLoaded
      case bytes => exact isBytes
      case inRam =>
        intro y inS
        rw [stored]
        exact order.inRam y ((without.mem y).mp inS).1
      case resident =>
        rw [stored]
        by_cases here : x = a
        · obtain ⟨_, rfl⟩ := isFront here
          have ringS := order.ring
          rw [isO] at ringS
          have next : s.links.next a = b := ringS.joined.1
          have nodup := (List.nodup_append.mp ringS.nodup).2.1
          have ne : b ≠ a := by
            rintro rfl
            exact absurd List.mem_cons_self (List.nodup_cons.mp nodup).1
          have resident := (leaves (here ▸ order.active)).2
          rw [here, next] at resident
          exact resident.resolve_left ne
        · obtain ⟨_, is⟩ := others here
          rw [isO] at is
          rw [(List.cons.inj is).1]
          exact order.resident

/-! ### Uses and transfers -/

/-- `MEM_SWAPOUT` or `MEM_SWAPPED`. -/
def isStored (status : MemoryStatus) : Bool := status = .swapout ∨ status = .swapped

theorem InOrder.setChunk (order : InOrder s S a O) (c : ManagedMemoryChunk)
    (same : isStored c.status = isStored (s.status x)) :
    InOrder { s with toState := s.toState.setChunk x c } S a O := by
  apply order.congr
  · intro y
    by_cases here : y = x
    · simp [here]
    · simp [here]
  · intro y
    by_cases here : y = x
    · subst here
      simpa [Cyclic.State.separateThis, Cyclic.State.status, isStored] using same
    · have same : (s.toState.setChunk x c).chunk y = s.chunk y := Function.update_of_ne here _ _
      exact congrArg (fun d : Chunk => decide (d.status = .swapout ∨ d.status = .swapped)) same

theorem setUse_stored (c : ManagedMemoryChunk) (writeAccess : Bool) :
    isStored (setUse c writeAccess).1.status = isStored c.status ∧
      ((setUse c writeAccess).2 = .returned true →
        isStored (setUse c writeAccess).1.status = false) := by
  obtain ⟨status, useCnt⟩ := c
  cases status <;> cases writeAccess <;>
    simp [setUse, usePrepared, prepareUse, prepareUseSwapout, waitForSwapout, waitForSwapin,
      useSwapin, useAllocated, useInuse, isStored, MemoryStatus.hasFlag, MemoryStatus.code]

theorem resumeUse_stored (c : ManagedMemoryChunk) (writeAccess : Bool) (pause : Pause)
    (swapInResult : Bool) :
    isStored (resumeUse c writeAccess pause swapInResult).1.status = isStored c.status ∧
      ((resumeUse c writeAccess pause swapInResult).2 = .returned true →
        isStored (resumeUse c writeAccess pause swapInResult).1.status = false) := by
  obtain ⟨status, useCnt⟩ := c
  cases pause <;> cases status <;> cases writeAccess <;> cases swapInResult <;>
    simp [resumeUse, usePrepared, prepareUseSwapout, waitForSwapout, waitForSwapin, useSwapin,
      useAllocated, useInuse, isStored, MemoryStatus.hasFlag, MemoryStatus.code]

theorem unsetUse_stored {c d : ManagedMemoryChunk} {n : UInt32} (ok : unsetUse c n = .ok d) :
    isStored d.status = isStored c.status := by
  obtain ⟨_, _, _, status⟩ := unsetUse_ok ok
  rw [status]
  split
  case isTrue both =>
    rcases (MemoryStatus.hasFlag_inuseRead c.status).mp both.1 with is | is | is | is <;>
      rw [is] <;> rfl
  case isFalse => rfl

theorem complete_stored {c d : ManagedMemoryChunk} (taken : SwapEvent.complete.apply c = some d) :
    isStored d.status = isStored c.status := by
  obtain ⟨status, useCnt⟩ := c
  cases status <;> simp only [SwapEvent.apply, Option.some.injEq, reduceCtorEq] at taken
  · rw [← taken]
    by_cases unused : useCnt = 0
    · simp [unused, isStored]
    · simp [unused, isStored]
  · rw [← taken]
    rfl

/-! ### `decay` and `swapIn` -/

variable {takes : Nat → Option Taken} {p : List Nat}

/-- `decay` takes its chunks out of the section and moves neither pointer. -/
theorem InOrder.decay (order : InOrder s S a O) {freeSwap bytes : Nat}
    (isP : s.decayPicks ⟨s.preemptiveBytes.toNat, bytes, freeSwap⟩ 0 S = p)
    (all : ∀ x ∈ p, (takes x).isSome = true) (is : s.decay takes freeSwap bytes = some t) :
    ∃ a O, InOrder t (S.filter fun x => x ∉ p) a O := by
  have inRam : ∀ a, s.active = some a → s.separateThis a = false := by
    intro b isB
    cases isB.symm.trans order.active
    exact order.resident
  obtain ⟨u, L', isU, result, isSection⟩ :=
    order.isSection.decay order.wellFormed inRam freeSwap bytes
    isP all
  cases is.symm.trans isU
  have pointers := order.isSection.decay_pointers order.wellFormed isP all is
  have sub : ∀ x ∈ p, x ∈ S := by
    intro x mem
    rw [← isP] at mem
    exact (List.mem_filter.mp ((decayPicks_sublist s _ S 0).subset mem)).1
  apply InOrder.of result.wellFormed isSection
  · intro c isC mem
    obtain ⟨d, memD, isD⟩ := order.counter
    rw [pointers.2.1, isD] at isC
    cases isC
    exact order.apart memD (List.mem_filter.mp mem).1
  · intro b isB
    rw [pointers.1, order.active] at isB
    cases isB
    have out : a ∉ p := fun mem => order.apart List.mem_cons_self (sub a mem)
    have resident := order.resident
    unfold Cyclic.State.separateThis Cyclic.State.status at resident ⊢
    rw [result.others a out]
    exact resident

/-- `swapIn` puts the chunk to `active`, and what is loaded with it at the end of the section. -/
theorem InOrder.readIn {s t : Scheduler} (order : InOrder s.toPreemptive S a O)
    {takes : Nat → Option Arrival} {maxPreemptive targetReadinVol oldBorder chunk : Nat}
    {v : List Nat} (demand : Demand s.toPreemptive (S ++ a :: O)
      (s.readLimits maxPreemptive targetReadinVol) oldBorder chunk v p)
    (all : ∀ x ∈ chunk :: p, (takes x).isSome = true)
    (away : ∀ c, s.counterActive = some c → c ∉ chunk :: p)
    (is : s.readIn takes maxPreemptive targetReadinVol oldBorder chunk = some t) :
    ∃ O', InOrder t.toPreemptive (S ++ p.reverse) chunk O' := by
  obtain ⟨u, L', isU, loads, isSection⟩ := demand.loads order.wellFormed order.isSection all
  cases is.symm.trans isU
  have resident : t.separateThis chunk = false := by
    have arrived := (loads.loaded chunk List.mem_cons_self).2.2
    simp only [Cyclic.State.separateThis, decide_eq_false_iff_not]
    rcases arrived with is | is
    · rw [is]
      decide
    · rw [is]
      decide
  have inOrder : ∃ b O', InOrder t.toPreemptive (S ++ p.reverse) b O' := by
    apply InOrder.of loads.wellFormed isSection
    · intro c isC mem
      obtain ⟨d, memD, isD⟩ := order.counter
      have out := away d isD
      have ne : s.counterActive ≠ some chunk := by
        rw [isD]
        rintro is
        cases is
        exact out List.mem_cons_self
      have once := (List.nodup_cons.mp loads.nodup).1
      have notS : chunk ∉ S := by
        intro inS
        have stored := order.inRam chunk inS
        simp [Cyclic.State.separateThis, demand.swapped] at stored
      rcases loads.counter ne with stays | moved
      · cases isC.symm.trans (stays.trans isD)
        rcases List.mem_append.mp mem with inS | inP
        · exact order.apart memD inS
        · exact out (List.mem_cons_of_mem chunk (List.mem_reverse.mp inP))
      · cases isC.symm.trans moved
        rcases List.mem_append.mp mem with inS | inP
        · exact notS inS
        · exact once (List.mem_reverse.mp inP)
    · intro b isB
      cases isB.symm.trans loads.front.2
      exact resident
  obtain ⟨b, O', inOrder⟩ := inOrder
  cases inOrder.active.symm.trans loads.front.2
  exact ⟨O', inOrder⟩

end Rambrain.Eviction
