import Rambrain.Cyclic

/-!
What the scheduler evicts.

`Order s R S` reads the ring from `active` on: first the chunks in RAM by recency, then the
swapped ones, with `counterActive` not before the last chunk in RAM. While it holds, the walk
of `swapOut` meets the chunks in RAM from the least recently touched one on, so what it evicts
is older than what it leaves (`Order.evicts`).

Two branches break the order. When the chunk at `active` itself is evicted, `active` moves to
the last chunk left, and the others left come to stand behind it; when `swapIn` finds
`counterActive` on a swapped chunk, it moves it to `active`, although other chunks may be in
RAM. `KeepsOrder` is the condition on the state before the step that neither happens.
-/

namespace Rambrain.Cyclic

open Lib

variable {s : State} {R S : List Nat} {id : Nat}

/-- `counterActive` is on the last chunk in RAM or on a swapped one. -/
def Counter (R S : List Nat) (counterActive : Option Nat) : Prop :=
  (∃ c ∈ S, counterActive = some c) ∨ ((R ≠ [] ∨ S = []) ∧ counterActive = R.getLast?)

/-- The ring from `active` on: chunks in RAM by recency, then swapped chunks. -/
structure Order (s : State) (R S : List Nat) : Prop where
  ring : Ring s.links (R ++ S)
  active : s.active = (R ++ S).head?
  counter : Counter R S s.counterActive
  mem : ∀ x, x ∈ R ++ S ↔ x ∈ s.memChunks
  inRam : ∀ x ∈ R, s.inRam x = true
  swapped : ∀ x ∈ S, s.status x = .swapped
  recent : R.Pairwise fun x y => s.lastTouch y < s.lastTouch x
  clock : ∀ x, s.lastTouch x ≤ s.clock
  pace : 0 < s.memIDPace
  ids : ∀ x ∈ s.memChunks, 0 < x ∧ x < s.memIDPace

theorem order_init (memoryMax : Nat) : Order (init memoryMax) [] [] where
  ring := ⟨List.nodup_nil, path_nil⟩
  active := rfl
  counter := .inr ⟨.inr rfl, rfl⟩
  mem x := by simp [init]
  inRam x mem := by cases mem
  swapped x mem := by cases mem
  recent := .nil
  clock x := Nat.le_refl 0
  pace := Nat.one_pos
  ids x mem := by cases Finset.notMem_empty x mem

/-! ### Surgery on the ring -/

/-- `touch` of an element that is not at `active` moves it there. -/
theorem touch_ring {k : Links Nat} {a e : Nat} {xs ys : List Nat}
    (ring : Ring k (a :: xs ++ e :: ys)) :
    (k.prev a = e ∧ Ring k (e :: a :: xs ++ ys)) ∨
      (k.prev a ≠ e ∧
        Ring (((k.connect (k.prev e) (k.next e)).connect (k.prev a) e).connect e a)
          (e :: a :: xs ++ ys)) := by
  cases ys with
  | nil =>
      have last : k.Joined e a :=
        Ring.joined_last ring (show a :: (xs ++ [e]) = (a :: xs) ++ [e] from rfl)
      exact .inl ⟨last.2, by simpa using ring.rotate⟩
  | cons y ys =>
      obtain ⟨init, z, body⟩ := exists_concat (List.cons_ne_nil y ys)
      have nodup := ring.nodup
      have prev : k.prev a = z := by
        have ring := ring
        rw [body] at ring
        have around : k.Joined z a := Ring.joined_last ring
          (show a :: (xs ++ e :: (init ++ [z])) = (a :: xs ++ e :: init) ++ [z] by simp)
        exact around.2
      have next : k.next e = y := (Ring.joined ring).1
      have mem : z ∈ y :: ys := by rw [body]; simp
      refine .inr ⟨by rw [prev]; grind, ?_⟩
      have out : Ring (k.connect (k.prev e) (k.next e)) (a :: xs ++ y :: ys) := by
        have turned : Ring k (e :: y :: (ys ++ a :: xs)) := ring.rotate
        exact (show Ring _ ((y :: ys) ++ (a :: xs)) from turned.unhook).rotate
      have same : (k.connect (k.prev e) (k.next e)).prev a = k.prev a :=
        Links.connect_prev _ (by rw [next]; grind)
      have inserted := Ring.insert out (path_singleton e) (ends_singleton e)
        ((show (a :: xs ++ e :: y :: ys).Perm ([e] ++ (a :: xs ++ y :: ys)) from
          List.perm_middle).nodup_iff.mp nodup)
      rw [same] at inserted
      exact inserted

/-- `touch` writes the ring and the history only. -/
theorem touch_eq (s : State) (id : Nat) :
    s.touch id = { s.tick id with
      links := (s.touch id).links
      active := (s.touch id).active
      counterActive := (s.touch id).counterActive } := by
  cases isActive : s.active with
  | none => simp [State.touch, State.tick, isActive]
  | some a =>
      simp only [State.touch, State.tick, isActive]
      split_ifs <;> rfl

section
variable (s id)

@[simp] theorem touch_chunk : (s.touch id).chunk = s.chunk := by rw [touch_eq]; rfl

@[simp] theorem touch_memChunks : (s.touch id).memChunks = s.memChunks := by rw [touch_eq]; rfl

@[simp] theorem touch_memIDPace : (s.touch id).memIDPace = s.memIDPace := by rw [touch_eq]; rfl

@[simp] theorem touch_memoryUsed : (s.touch id).memoryUsed = s.memoryUsed := by rw [touch_eq]; rfl

@[simp] theorem touch_clock : (s.touch id).clock = s.clock + 1 := by rw [touch_eq]; rfl

@[simp] theorem touch_lastTouch :
    (s.touch id).lastTouch = Function.update s.lastTouch id (s.clock + 1) := by
  rw [touch_eq]
  rfl

end

/-- `touch` of the chunk at `active` moves nothing. -/
theorem touch_active (isActive : s.active = some id) :
    (s.touch id).links = s.links ∧ (s.touch id).active = some id ∧
      (s.touch id).counterActive = s.counterActive := by
  simp [State.touch, State.tick, isActive]

/-- `touch` of another chunk brings it to `active`. -/
theorem touch_other {a : Nat} {xs ys : List Nat} (isActive : s.active = some a)
    (ring : Ring s.links (a :: xs ++ id :: ys)) :
    Ring (s.touch id).links (id :: a :: xs ++ ys) ∧ (s.touch id).active = some id ∧
      (s.touch id).counterActive =
        if s.counterActive = some id then some (s.links.prev id) else s.counterActive := by
  have ne : a ≠ id := by
    have nodup := ring.nodup
    grind
  rcases touch_ring ring with ⟨before, moved⟩ | ⟨before, moved⟩
  · simpa [State.touch, State.tick, isActive, ne, before] using moved
  · by_cases after : s.links.next a = id
    · have links : (s.touch id).links = (((s.links.connect (s.links.prev id)
          (s.links.next id)).connect (s.links.prev a) id).connect id a) := by
        cases xs with
        | nil =>
            have prev : s.links.prev id = a :=
              (Ring.joined (show Ring _ ([] ++ a :: id :: ys) from ring)).2
            cases ys with
            | nil =>
                exact absurd (Ring.joined_last ring (show a :: [id] = [a] ++ [id] from rfl)).2
                  before
            | cons y ys =>
                have next : s.links.next id = y :=
                  (Ring.joined (show Ring _ ([a] ++ id :: y :: ys) from ring)).1
                have nodup := ring.nodup
                have apart : s.links.prev a ≠ a := by
                  obtain ⟨init, z, body⟩ := exists_concat (List.cons_ne_nil y ys)
                  have around : s.links.Joined z a := Ring.joined_last ring
                    (show a :: id :: y :: ys = (a :: id :: init) ++ [z] by rw [body]; rfl)
                  have mem : z ∈ y :: ys := by rw [body]; simp
                  rw [around.2]
                  exact fun eq => (List.nodup_cons.mp nodup).1 (by simp [← eq, mem])
                simp only [State.touch, State.tick, isActive, if_neg ne, if_neg before,
                  if_pos after,
                  prev]
                have ne' : s.links.next id ≠ id := by
                  rw [next]
                  grind
                have ne'' : s.links.next id ≠ a := by
                  rw [next]
                  grind
                rw [Links.connect_comm s.links apart.symm ne',
                  Links.connect_comm (s.links.connect _ id) ne ne'']
        | cons x xs =>
            have next : s.links.next a = x :=
              (Ring.joined (show Ring _ ([] ++ a :: x :: (xs ++ id :: ys)) from ring)).1
            have nodup := ring.nodup
            grind
      refine ⟨links ▸ moved, ?_, ?_⟩
      · simp [State.touch, State.tick, isActive, ne, before, after]
      · simp [State.touch, State.tick, isActive, ne, before, after]
    · simpa [State.touch, State.tick, isActive, ne, before, after] using moved

/-- `touch` brings any chunk of the ring to `active`. -/
theorem touch_front {l : List Nat} (ring : Ring s.links l) (head : s.active = l.head?)
    (mem : id ∈ l) :
    Ring (s.touch id).links (id :: l.erase id) ∧ (s.touch id).active = some id ∧
      (s.touch id).counterActive =
        if s.counterActive = some id ∧ s.active ≠ some id then some (s.links.prev id)
        else s.counterActive := by
  cases l with
  | nil => cases mem
  | cons a l =>
      by_cases here : a = id
      · subst here
        obtain ⟨links, active, counter⟩ := touch_active head
        rw [links, List.erase_cons_head]
        exact ⟨ring, active, by rw [counter, if_neg (fun h => h.2 head)]⟩
      · have later : id ∈ l := (List.mem_cons.mp mem).resolve_left (Ne.symm here)
        obtain ⟨xs, ys, rfl, out⟩ := List.eq_append_cons_of_mem later
        obtain ⟨moved, active, counter⟩ := touch_other head ring
        have erased : (a :: (xs ++ id :: ys)).erase id = a :: xs ++ ys := by
          rw [List.erase_cons_tail (by simpa using here), List.erase_append_right _ out,
            List.erase_cons_head]
          rfl
        rw [erased]
        refine ⟨moved, active, ?_⟩
        have ne : s.active ≠ some id := by
          rw [head]
          simpa using here
        rw [counter]
        simp only [ne, ne_eq, not_false_iff, and_true]

section
variable (s id)

@[simp] theorem touch_status (x : Nat) : (s.touch id).status x = s.status x := by
  simp [State.status]

@[simp] theorem touch_inRam (x : Nat) : (s.touch id).inRam x = s.inRam x := by
  simp [State.inRam]

end

/-- The recency of the ring after `id` was touched. -/
theorem recent_touch {l : List Nat} {clock : Nat} {lastTouch : Nat → Nat}
    (recent : l.Pairwise fun x y => lastTouch y < lastTouch x) (bound : ∀ x, lastTouch x ≤ clock)
    (out : id ∉ l) :
    (id :: l).Pairwise fun x y =>
      Function.update lastTouch id (clock + 1) y < Function.update lastTouch id (clock + 1) x := by
  refine List.pairwise_cons.mpr ⟨fun y mem => ?_, recent.imp_of_mem fun {x y} hx hy lt => ?_⟩
  · have ne : y ≠ id := fun eq => out (eq ▸ mem)
    rw [Function.update_of_ne ne, Function.update_self]
    exact Nat.lt_succ_of_le (bound y)
  · have neX : x ≠ id := fun eq => out (eq ▸ hx)
    have neY : y ≠ id := fun eq => out (eq ▸ hy)
    rwa [Function.update_of_ne neX, Function.update_of_ne neY]

theorem clock_touch {clock : Nat} {lastTouch : Nat → Nat} (bound : ∀ x, lastTouch x ≤ clock)
    (x : Nat) : Function.update lastTouch id (clock + 1) x ≤ clock + 1 := by
  by_cases eq : x = id
  · subst eq
    rw [Function.update_self]
  · rw [Function.update_of_ne eq]
    exact Nat.le_succ_of_le (bound x)

/-- The last element moves to the front of the list, or stays the last. -/
theorem getLast?_cons_erase {l : List Nat} (nodup : l.Nodup) (mem : id ∈ l) :
    (l.getLast? = some id ∧ ∃ init, l = init ++ [id] ∧ id :: l.erase id = id :: init) ∨
      (l.getLast? ≠ some id ∧ (id :: l.erase id).getLast? = l.getLast?) := by
  obtain ⟨init, z, rfl⟩ := exists_concat (List.ne_nil_of_mem mem)
  by_cases eq : z = id
  · subst eq
    have out : z ∉ init := by grind
    exact .inl ⟨by simp, init, rfl, by rw [List.erase_append_right _ out, List.erase_cons_head,
      List.append_nil]⟩
  · have early : id ∈ init := by grind
    refine .inr ⟨by simpa using eq, ?_⟩
    rw [List.erase_append_left _ early]
    simp [List.getLast?_cons]

/-- `touch` of a chunk in RAM. -/
theorem Order.touch (order : Order s R S) (mem : id ∈ R) :
    Order (s.touch id) (id :: R.erase id) S := by
  have nodup : R.Nodup := (List.nodup_append.mp order.ring.nodup).1
  have apart := (List.nodup_append.mp order.ring.nodup).2.2
  obtain ⟨ring, active, counter⟩ :=
    touch_front order.ring order.active (List.mem_append_left S mem)
  rw [List.erase_append_left _ mem] at ring
  refine ⟨ring, by simpa using active, ?_, fun x => ?_, fun x hx => ?_, fun x hx => ?_, ?_, ?_,
    by simpa using order.pace, ?_⟩
  · rw [counter]
    rcases order.counter with ⟨c, hc, isCounter⟩ | ⟨_, isLast⟩
    · have ne : c ≠ id := fun eq => apart id mem c hc eq.symm
      rw [isCounter, if_neg (fun h => ne (Option.some.inj h.1))]
      exact .inl ⟨c, hc, rfl⟩
    · refine .inr ⟨.inl (List.cons_ne_nil _ _), ?_⟩
      rw [isLast]
      rcases getLast?_cons_erase nodup mem with ⟨last, init, body, front⟩ | ⟨last, same⟩
      · rw [front, last]
        by_cases first : s.active = some id
        · -- the only chunk in RAM
          have empty : init = [] := by
            by_contra ne
            obtain ⟨b, init', rfl⟩ := List.exists_cons_of_ne_nil ne
            have head := order.active
            rw [first, body] at head
            have eq : id = b := by simpa using head
            rw [body] at nodup
            grind
          rw [if_neg (fun h => h.2 first), empty]
          rfl
        · rw [if_pos ⟨rfl, first⟩]
          have ne : init ≠ [] := by
            rintro rfl
            exact first (by rw [order.active, body]; rfl)
          obtain ⟨init', z, rfl⟩ := exists_concat ne
          have prev : s.links.prev id = z := by
            have ring := order.ring
            rw [body, List.append_assoc, List.append_assoc] at ring
            exact (Ring.joined ring).2
          rw [prev]
          simp [List.getLast?_cons]
      · rw [if_neg (fun h => last h.1), same]
  · rw [touch_memChunks, ← order.mem x]
    by_cases eq : x = id
    · subst eq
      simp [mem]
    · simp [eq, List.mem_erase_of_ne eq]
  · rw [touch_inRam]
    rcases List.mem_cons.mp hx with rfl | hx
    · exact order.inRam x mem
    · exact order.inRam x (List.mem_of_mem_erase hx)
  · rw [touch_status]
    exact order.swapped x hx
  · rw [touch_lastTouch]
    exact recent_touch (order.recent.sublist List.erase_sublist) order.clock
      (nodup.not_mem_erase)
  · rw [touch_lastTouch, touch_clock]
    exact clock_touch order.clock
  · rw [touch_memChunks, touch_memIDPace]
    exact order.ids

/-! ### The events that keep the chunks where they are -/

theorem Order.setChunk (order : Order s R S) (c : ManagedMemoryChunk)
    (inRam : id ∈ R → c.status.hasFlag .allocated = true) (swapped : id ∈ S → c.status = .swapped) :
    Order (s.setChunk id c) R S := by
  refine { order with inRam := fun x mem => ?_, swapped := fun x mem => ?_ }
  · by_cases eq : x = id
    · subst eq
      simpa [State.inRam, State.status, State.setChunk] using inRam mem
    · simpa [State.inRam, State.status, State.setChunk, eq] using order.inRam x mem
  · by_cases eq : x = id
    · subst eq
      simpa [State.status, State.setChunk] using swapped mem
    · simpa [State.status, State.setChunk, eq] using order.swapped x mem

theorem setUse_inRam (c : ManagedMemoryChunk) (writeAccess : Bool)
    (inRam : c.status.hasFlag .allocated = true) :
    (setUse c writeAccess).1.status.hasFlag .allocated = true ∧
      (setUse c writeAccess).2 = .returned true := by
  obtain ⟨status, useCnt⟩ := c
  rcases (MemoryStatus.hasFlag_allocated status).mp inRam with rfl | rfl | rfl <;>
    cases writeAccess <;>
    simp [setUse, useAllocated, useInuse, MemoryStatus.hasFlag, MemoryStatus.code]

theorem resumeUse_inRam (c : ManagedMemoryChunk) (writeAccess : Bool)
    (inRam : c.status.hasFlag .allocated = true) :
    (resumeUse c writeAccess .swapIn true).1.status.hasFlag .allocated = true ∧
      (resumeUse c writeAccess .swapIn true).2 = .returned true := by
  obtain ⟨status, useCnt⟩ := c
  rcases (MemoryStatus.hasFlag_allocated status).mp inRam with rfl | rfl | rfl <;>
    cases writeAccess <;>
    simp [resumeUse, usePrepared, useSwapin, waitForSwapin, useAllocated, useInuse,
      MemoryStatus.hasFlag, MemoryStatus.code]

/-- A section of `setUse` on a chunk in RAM touches it, one on a swapped chunk does not. -/
theorem Order.use (order : Order s R S) (mem : id ∈ s.memChunks)
    (result : ManagedMemoryChunk × Progress)
    (inRam : id ∈ R → result.1.status.hasFlag .allocated = true ∧ result.2 = .returned true)
    (swapped : id ∈ S → result.1.status = .swapped ∧ result.2 ≠ .returned true) :
    ∃ R', Order (s.use id result) R' S := by
  have stored : Order (s.setChunk id result.1) R S :=
    order.setChunk result.1 (fun h => (inRam h).1) fun h => (swapped h).1
  unfold State.use
  rcases List.mem_append.mp ((order.mem id).mpr mem) with hR | hS
  · rw [if_pos (inRam hR).2]
    exact ⟨_, stored.touch hR⟩
  · rw [if_neg (swapped hS).2]
    exact ⟨R, stored⟩

theorem Order.unsetUse (order : Order s R S) {noUnsets : UInt32} {c : ManagedMemoryChunk}
    (ok : unsetUse (s.chunk id).toManagedMemoryChunk noUnsets = .ok c) :
    Order (s.setChunk id c) R S := by
  obtain ⟨_, _, _, status⟩ := unsetUse_ok ok
  refine order.setChunk c (fun mem => ?_) (fun mem => ?_)
  · have inRam : (s.chunk id).status.hasFlag .allocated = true := order.inRam id mem
    rw [status]
    split
    · decide
    · exact inRam
  · have swapped : (s.chunk id).status = .swapped := order.swapped id mem
    rw [status, swapped, if_neg (fun h => absurd h.1 (by decide))]

/-! ### The events that move chunks -/

theorem Order.nonempty (order : Order s R S) (mem : id ∈ s.memChunks) :
    ∃ xs ys, R ++ S = xs ++ id :: ys ∧ id ∉ xs ∧ id ∉ ys ∧ (R ++ S).erase id = xs ++ ys := by
  obtain ⟨xs, ys, body, out⟩ := List.eq_append_cons_of_mem ((order.mem id).mpr mem)
  have nodup := order.ring.nodup
  rw [body] at nodup ⊢
  refine ⟨xs, ys, rfl, out, ?_, ?_⟩
  · exact (List.nodup_cons.mp (List.nodup_append.mp nodup).2.1).1
  · rw [List.erase_append_right _ out, List.erase_cons_head]

/-- The chunk that `mmalloc` makes, before it is registered. -/
def State.withNew (s : State) (size : Nat) : State :=
  { s with
    memIDPace := s.memIDPace + 1
    memoryUsed := s.memoryUsed + size
    chunk := Function.update s.chunk s.memIDPace ⟨.fresh, size⟩
    memChunks := insert s.memIDPace s.memChunks }

theorem register_eq (s : State) (id : Nat) :
    s.schedulerRegister id = { s.tick id with
      links := (s.schedulerRegister id).links
      active := (s.schedulerRegister id).active
      counterActive := (s.schedulerRegister id).counterActive } := by
  cases isActive : s.active with
  | none => simp [State.schedulerRegister, State.tick, isActive]
  | some a => simp [State.schedulerRegister, State.tick, isActive]

/-! ### Hooking a chunk in and out -/

/-- `schedulerRegister` puts a new chunk at the front of the ring. -/
theorem register_ring {l : List Nat} (ring : Ring s.links l) (active : s.active = l.head?)
    (out : id ∉ l) :
    Ring (s.schedulerRegister id).links (id :: l) ∧ (s.schedulerRegister id).active = some id ∧
      (l = [] → (s.schedulerRegister id).counterActive = some id) ∧
      ∀ a, l.head? = some a → (s.schedulerRegister id).counterActive =
        if s.counterActive = some a ∧ (s.status a = .swapped ∨ s.status a = .swapout) then some id
        else s.counterActive := by
  cases l with
  | nil =>
      have noActive : s.active = none := active
      have closed := Ring.close (k := s.links) (path_singleton id) (List.nodup_singleton _)
        (ends_singleton _)
      refine ⟨?_, ?_, fun _ => ?_, fun a head => by cases head⟩
      · simpa [State.schedulerRegister, State.tick, noActive] using closed
      · simp [State.schedulerRegister, State.tick, noActive]
      · simp [State.schedulerRegister, State.tick, noActive]
  | cons a l =>
      have isActive : s.active = some a := active
      have inserted := ring.insert (path_singleton id) (ends_singleton _)
        (List.nodup_cons.mpr ⟨out, ring.nodup⟩)
      refine ⟨?_, ?_, fun empty => absurd empty (List.cons_ne_nil a l), fun b head => ?_⟩
      · simpa [State.schedulerRegister, State.tick, isActive] using inserted
      · simp [State.schedulerRegister, State.tick, isActive]
      · obtain rfl := Option.some.inj head
        simp only [State.schedulerRegister, State.tick, isActive]
        rfl

/-- `schedulerDelete` takes a chunk out of the ring; `counterActive` falls back to the chunk
before it, unless it was the last one. -/
theorem delete_ring {l : List Nat} (ring : Ring s.links l) (active : s.active = l.head?)
    (mem : id ∈ l) :
    Ring (s.schedulerDelete id).links (l.erase id) ∧
      (s.schedulerDelete id).active = (l.erase id).head? ∧
      (l = [id] → (s.schedulerDelete id).counterActive = none) ∧
      (l ≠ [id] → s.links.prev id ≠ id ∧ (s.schedulerDelete id).counterActive =
        if s.counterActive = some id then some (s.links.prev id) else s.counterActive) := by
  have back := Ring.next_prev ring mem
  obtain ⟨xs, ys, rfl, out⟩ := List.eq_append_cons_of_mem mem
  have erased : (xs ++ id :: ys).erase id = xs ++ ys := by
    rw [List.erase_append_right _ out, List.erase_cons_head]
  have turned : Ring s.links (id :: (ys ++ xs)) := ring.rotate
  have outRest : id ∉ ys ++ xs := (List.nodup_cons.mp turned.nodup).1
  rw [erased]
  by_cases alone : ys ++ xs = []
  · obtain ⟨rfl, rfl⟩ := List.append_eq_nil_iff.mp alone
    have next : s.links.next id = id := (path_cons_cons.mp turned.cons).1.1
    refine ⟨⟨List.nodup_nil, path_nil⟩, ?_, fun _ => ?_, fun more => absurd rfl more⟩
    · simp [State.schedulerDelete, next]
    · simp [State.schedulerDelete, next]
  · obtain ⟨b, rest, others⟩ := List.exists_cons_of_ne_nil alone
    have next : s.links.next id = b := ring.next_eq (by rw [others]; rfl)
    have ne : b ≠ id := fun eq => outRest (by rw [others, eq]; exact List.mem_cons_self)
    have unhooked : Ring (s.links.connect (s.links.prev id) b) (xs ++ ys) := by
      rw [others] at turned
      have hookedOut := turned.unhook
      rw [← others, next] at hookedOut
      exact hookedOut.rotate
    refine ⟨?_, ?_, fun single => ?_, fun _ => ⟨fun same => ?_, ?_⟩⟩
    · simpa [State.schedulerDelete, next, ne] using unhooked
    · cases xs with
      | nil =>
          rw [List.append_nil] at others
          simp [State.schedulerDelete, next, ne, active, others]
      | cons x xs =>
          have other : x ≠ id := by grind
          simp [State.schedulerDelete, next, ne, active, other]
    · have lengths := congrArg List.length single
      have sameLength := congrArg List.length others
      simp only [List.length_append, List.length_cons, List.length_nil] at lengths sameLength
      omega
    · -- the chunk is its own predecessor only when it is alone
      rw [same, next] at back
      exact ne back
    · simp [State.schedulerDelete, next, ne]

/-- A registered chunk is the most recent one. -/
theorem Order.register (order : Order s R S) (size : Nat) :
    Order ((s.withNew size).schedulerRegister s.memIDPace) (s.memIDPace :: R) S := by
  have fresh : s.memIDPace ∉ R ++ S := fun mem =>
    Nat.lt_irrefl _ (order.ids _ ((order.mem _).mp mem)).2
  have freshR : s.memIDPace ∉ R := fun mem => fresh (List.mem_append_left S mem)
  have freshS : s.memIDPace ∉ S := fun mem => fresh (List.mem_append_right R mem)
  have statusOld (x : Nat) (ne : x ≠ s.memIDPace) : (s.withNew size).status x = s.status x := by
    simp [State.status, State.withNew, ne]
  obtain ⟨ring, active, alone, others⟩ := register_ring (s := s.withNew size) order.ring
    order.active fresh
  have counter : Counter (s.memIDPace :: R) S
      ((s.withNew size).schedulerRegister s.memIDPace).counterActive := by
    cases body : R ++ S with
    | nil =>
        obtain ⟨rfl, rfl⟩ := List.append_eq_nil_iff.mp body
        exact .inr ⟨.inl (List.cons_ne_nil _ _), alone rfl⟩
    | cons a l =>
        have memA : a ∈ R ++ S := by rw [body]; exact List.mem_cons_self
        have counterIs : ((s.withNew size).schedulerRegister s.memIDPace).counterActive =
            if s.counterActive = some a ∧ (s.status a = .swapped ∨ s.status a = .swapout) then
              some s.memIDPace else s.counterActive := by
          rw [← statusOld a fun eq => fresh (eq ▸ memA)]
          exact others a (by rw [body]; rfl)
        rw [counterIs]
        split
        · rename_i back
          -- no chunk is in RAM
          have noneInRam : R = [] := by
            by_contra ne
            obtain ⟨b, R', rfl⟩ := List.exists_cons_of_ne_nil ne
            obtain ⟨rfl, _⟩ : b = a ∧ _ := by simpa using body
            have inRam : (s.status b).hasFlag .allocated = true := order.inRam b (by simp)
            rcases back.2 with is | is <;> rw [is] at inRam <;> exact absurd inRam (by decide)
          subst noneInRam
          exact .inr ⟨.inl (List.cons_ne_nil _ _), rfl⟩
        · rename_i stays
          rcases order.counter with counter | ⟨nonempty, counter⟩
          · exact .inl counter
          · refine .inr ⟨.inl (List.cons_ne_nil _ _), ?_⟩
            have ne : R ≠ [] := by
              rintro rfl
              rcases nonempty with no | rfl
              · exact no rfl
              · cases body
            obtain ⟨b, R', rfl⟩ := List.exists_cons_of_ne_nil ne
            rw [counter]
            simp [List.getLast?_cons]
  refine ⟨ring, by simpa using active, counter, fun x => ?_, fun x hx => ?_, fun x hx => ?_,
    ?_, ?_, by rw [register_eq]; exact Nat.succ_pos _, fun x hx => ?_⟩
  · rw [register_eq]
    have := order.mem x
    simp only [State.tick, State.withNew, Finset.mem_insert, ← this, List.cons_append,
      List.mem_cons]
  · rw [State.inRam, State.status, register_eq]
    by_cases eq : x = s.memIDPace
    · subst eq
      simp [State.tick, State.withNew, ManagedMemoryChunk.fresh, MemoryStatus.hasFlag,
        MemoryStatus.code]
    · have old := order.inRam x ((List.mem_cons.mp hx).resolve_left eq)
      simpa [State.tick, State.withNew, State.inRam, State.status, eq] using old
  · rw [State.status, register_eq]
    have ne : x ≠ s.memIDPace := fun eq => freshS (eq ▸ hx)
    simpa [State.tick, State.withNew, State.status, ne] using order.swapped x hx
  · rw [register_eq]
    exact recent_touch order.recent order.clock freshR
  · rw [register_eq]
    exact clock_touch order.clock
  · rw [register_eq] at hx ⊢
    rcases Finset.mem_insert.mp hx with rfl | hx
    · exact ⟨order.pace, Nat.lt_succ_self _⟩
    · exact ⟨(order.ids x hx).1, Nat.lt_succ_of_lt (order.ids x hx).2⟩

theorem Order.mmalloc (order : Order s R S) (size : Nat) :
    Order (((s.withNew size).schedulerRegister s.memIDPace).touch s.memIDPace)
      (s.memIDPace :: R) S := by
  have touched := (order.register size).touch List.mem_cons_self
  rwa [List.erase_cons_head] at touched

/-- What `counterActive` becomes when a chunk in RAM is hooked out. -/
theorem Counter.erase_inRam {k : Links Nat} {counterActive : Option Nat}
    (counter : Counter R S counterActive) (ring : Ring k (R ++ S)) (mem : id ∈ R)
    (others : R ++ S ≠ [id]) :
    Counter (R.erase id) S
      (if counterActive = some id then some (k.prev id) else counterActive) := by
  have nodup := ring.nodup
  obtain ⟨xs, ys, rfl, out⟩ := List.eq_append_cons_of_mem mem
  rw [List.erase_append_right _ out, List.erase_cons_head]
  rcases counter with ⟨c, hc, rfl⟩ | ⟨_, rfl⟩
  · have ne : c ≠ id := fun eq =>
      (List.nodup_append.mp nodup).2.2 id mem c hc eq.symm
    rw [if_neg (fun h => ne (Option.some.inj h))]
    exact .inl ⟨c, hc, rfl⟩
  · rw [List.append_assoc, List.cons_append] at ring
    rcases List.eq_nil_or_concat ys with rfl | ⟨ys, z, rfl⟩
    · rw [List.getLast?_concat, if_pos rfl, List.append_nil]
      rcases List.eq_nil_or_concat xs with rfl | ⟨xs, z, rfl⟩
      · have ne : S ≠ [] := fun eq => others (by rw [eq]; rfl)
        obtain ⟨init, z, rfl⟩ := exists_concat ne
        rw [ring.prev_eq (z := z) (by simp)]
        exact .inl ⟨z, by simp, rfl⟩
      · rw [List.concat_eq_append] at ring ⊢
        rw [ring.prev_eq (z := z) (by simp)]
        exact .inr ⟨.inl (by simp), by simp⟩
    · rw [List.concat_eq_append] at nodup ⊢
      have ne : z ≠ id := by grind
      have last : (xs ++ id :: (ys ++ [z])).getLast? = some z := by
        rw [← List.cons_append, ← List.append_assoc, List.getLast?_concat]
      rw [last, if_neg (fun h => ne (Option.some.inj h))]
      exact .inr ⟨.inl (by simp), by simp [List.getLast?_append]⟩

/-- What `counterActive` becomes when a swapped chunk is hooked out. -/
theorem Counter.erase_swapped {k : Links Nat} {counterActive : Option Nat}
    (counter : Counter R S counterActive) (ring : Ring k (R ++ S)) (mem : id ∈ S)
    (others : R ++ S ≠ [id]) :
    Counter R (S.erase id)
      (if counterActive = some id then some (k.prev id) else counterActive) := by
  have apart := (List.nodup_append.mp ring.nodup).2.2
  rcases counter with ⟨c, hc, rfl⟩ | ⟨nonempty, rfl⟩
  · by_cases here : c = id
    · subst here
      rw [if_pos rfl]
      obtain ⟨xs, ys, rfl, out⟩ := List.eq_append_cons_of_mem mem
      rw [List.erase_append_right _ out, List.erase_cons_head]
      rw [← List.append_assoc] at ring
      rcases List.eq_nil_or_concat xs with rfl | ⟨xs, z, rfl⟩
      · rcases List.eq_nil_or_concat R with rfl | ⟨R, z, rfl⟩
        · have ne : ys ≠ [] := fun eq => others (by rw [eq]; rfl)
          obtain ⟨init, z, rfl⟩ := exists_concat ne
          rw [ring.prev_eq (z := z) (by simp)]
          exact .inl ⟨z, by simp, rfl⟩
        · rw [List.concat_eq_append] at ring ⊢
          rw [ring.prev_eq (z := z) (by simp)]
          exact .inr ⟨.inl (by simp), by simp⟩
      · rw [List.concat_eq_append] at ring ⊢
        rw [ring.prev_eq (z := z) (by simp)]
        exact .inl ⟨z, by simp, rfl⟩
    · rw [if_neg (fun h => here (Option.some.inj h))]
      exact .inl ⟨c, (List.mem_erase_of_ne here).mpr hc, rfl⟩
  · have ne : R ≠ [] := nonempty.resolve_right (List.ne_nil_of_mem mem)
    obtain ⟨init, z, rfl⟩ := exists_concat ne
    have out : z ≠ id := fun eq => apart z (by simp) id mem eq
    rw [List.getLast?_concat, if_neg (fun h => out (Option.some.inj h))]
    exact .inr ⟨.inl ne, by simp⟩

/-- `schedulerDelete` hooks a chunk out and keeps the order of the others. -/
theorem Order.delete (order : Order s R S) (mem : id ∈ s.memChunks) :
    Order { s.schedulerDelete id with memChunks := s.memChunks.erase id }
      (R.erase id) (if id ∈ R then S else S.erase id) := by
  obtain ⟨xs, ys, body, outX, outY, erased⟩ := order.nonempty mem
  have ring : Ring s.links (xs ++ id :: ys) := body ▸ order.ring
  have nodup := ring.nodup
  have left : R.erase id ++ (if id ∈ R then S else S.erase id) = xs ++ ys := by
    rw [← erased]
    split
    · rename_i hR
      rw [List.erase_append_left _ hR]
    · rename_i hR
      rw [List.erase_append_right _ hR, List.erase_of_not_mem hR]
  have memL : id ∈ R ++ S := (order.mem id).mpr mem
  obtain ⟨placedRing, active, single, many⟩ := delete_ring order.ring order.active memL
  rw [erased] at placedRing active
  have counter : Counter (R.erase id) (if id ∈ R then S else S.erase id)
      (s.schedulerDelete id).counterActive := by
    by_cases alone : R ++ S = [id]
    · have gone : R.erase id = [] ∧ (if id ∈ R then S else S.erase id) = [] := by
        rw [← List.append_eq_nil_iff, left, ← erased, alone]
        simp
      rw [gone.1, gone.2, single alone]
      exact .inr ⟨.inr rfl, rfl⟩
    · rw [(many alone).2]
      split
      · rename_i hR
        exact order.counter.erase_inRam order.ring hR alone
      · rename_i hR
        have hS : id ∈ S := (List.mem_append.mp memL).resolve_left hR
        rw [List.erase_of_not_mem hR]
        exact order.counter.erase_swapped order.ring hS alone
  have kept : s.schedulerDelete id = { s with
      links := (s.schedulerDelete id).links
      active := (s.schedulerDelete id).active
      counterActive := (s.schedulerDelete id).counterActive } := by
    by_cases alone : s.links.next id = id
    · simp [State.schedulerDelete, alone]
    · simp [State.schedulerDelete, alone]
  have sub : ∀ x ∈ R.erase id, x ∈ R := fun x hx => List.mem_of_mem_erase hx
  have sub' : ∀ x ∈ (if id ∈ R then S else S.erase id), x ∈ S := by
    intro x hx
    split at hx
    · exact hx
    · exact List.mem_of_mem_erase hx
  refine ⟨left ▸ placedRing, left ▸ active, counter, fun x => ?_, fun x hx => ?_, fun x hx => ?_,
    ?_, ?_, ?_, fun x hx => ?_⟩
  · rw [left, Finset.mem_erase, ← order.mem x, body]
    have nodup' : (id :: (xs ++ ys)).Nodup := List.perm_middle.nodup_iff.mp nodup
    have out := (List.nodup_cons.mp nodup').1
    constructor
    · intro hx
      exact ⟨fun eq => out (eq ▸ hx), by grind⟩
    · rintro ⟨ne, hx⟩
      grind
  · rw [State.inRam, State.status, kept]
    exact order.inRam x (sub x hx)
  · rw [State.status, kept]
    exact order.swapped x (sub' x hx)
  · rw [kept]
    exact order.recent.sublist List.erase_sublist
  · rw [kept]
    exact order.clock
  · rw [kept]
    exact order.pace
  · rw [kept]
    exact order.ids x (Finset.mem_of_mem_erase hx)

/-- The condition under which an event keeps the order. The plain `swapIn` needs
`counterActive`, once the chunk is hooked out, on a chunk in RAM, or no chunk in RAM;
`swapOut` must be able to leave the chunk at `active`, or leave at most one chunk. -/
def KeepsOrder (allocMax : Nat → Nat) (s : State) : Event → Prop
  | .swapIn id =>
      (∀ x ∈ s.memChunks, s.inRam x = false) ∨
        ∃ c, (if s.counterActive = some id then some (s.links.prev id) else s.counterActive) =
          some c ∧ s.inRam c = true
  | .swapOut minSize =>
      minSize ≤ s.memoryMax → ∀ active, s.active = some active → s.eligible active = true →
        s.memSwap allocMax minSize ≤
            ∑ x ∈ s.memChunks.erase active with s.eligible x, (s.chunk x).size ∨
          {x ∈ s.memChunks | s.inRam x ∧ ¬ s.eligible x}.card ≤ 1
  | _ => True

theorem resetCounter_eq (s : State) :
    s.resetCounter = { s with
      counterActive := s.counterActive.bind fun c =>
        if s.status c = .swapped then s.active else some c } := by
  obtain ⟨links, active, counterActive⟩ := s
  cases counterActive with
  | none => rfl
  | some c =>
      simp only [State.resetCounter, Option.bind_some]
      split <;> rfl

/-- The plain `swapIn` brings the chunk to the front. -/
theorem Order.swapIn (order : Order s R S) (mem : id ∈ s.memChunks)
    (stored : s.status id = .swapped)
    {allocMax : Nat → Nat} (keeps : KeepsOrder allocMax s (.swapIn id)) :
    Order (s.swapIn id) (id :: R) (S.erase id) := by
  have nodup := order.ring.nodup
  have hR : id ∉ R := fun hR => by
    have inRam := order.inRam id hR
    rw [State.inRam, stored] at inRam
    exact absurd inRam (by decide)
  have hS : id ∈ S := (List.mem_append.mp ((order.mem id).mpr mem)).resolve_left hR
  -- the state in which the chunk is touched
  let mid := s.dummySwapIn id
  have statusMid (x : Nat) : mid.status x = if x = id then .allocated else s.status x := by
    by_cases eq : x = id
    · subst eq
      simp [mid, State.status, State.dummySwapIn, State.setChunk]
    · simp [mid, State.status, State.dummySwapIn, State.setChunk, eq]
  have head : mid.active = (R ++ S).head? := order.active
  obtain ⟨ring, active, counter⟩ :=
    touch_front (s := mid) order.ring head (List.mem_append_right R hS)
  rw [List.erase_append_right _ hR] at ring
  have result : s.swapIn id = { mid.touch id with counterActive := (s.swapIn id).counterActive } ∧
      (s.swapIn id).counterActive = (mid.touch id).counterActive.bind fun c =>
        if mid.status c = .swapped then some id else some c := by
    unfold State.swapIn
    rw [resetCounter_eq]
    refine ⟨rfl, ?_⟩
    have active : ((s.dummySwapIn id).touch id).active = some id := active
    simp only [active, touch_status]
    rfl
  have swappedMid : ∀ c ∈ S.erase id, mid.status c = .swapped := fun c hc => by
    have nodupS : S.Nodup := (List.nodup_append.mp nodup).2.1
    have ne : c ≠ id := fun eq => nodupS.not_mem_erase (eq ▸ hc)
    rw [statusMid, if_neg ne]
    exact order.swapped c (List.mem_of_mem_erase hc)
  have placed : (R = [] ∧ (s.swapIn id).counterActive = some id) ∨
      (R ≠ [] ∧ (s.swapIn id).counterActive = R.getLast?) := by
    rw [result.2, counter]
    by_cases first : s.active = some id
    · -- no chunk is in RAM
      have empty : R = [] := by
        by_contra ne
        obtain ⟨b, R', rfl⟩ := List.exists_cons_of_ne_nil ne
        have head := order.active
        rw [first] at head
        exact hR (by simpa using Or.inl (Option.some.inj head))
      subst empty
      rw [if_neg (fun h => h.2 first)]
      rcases order.counter with ⟨c, hc, is⟩ | ⟨no, _⟩
      · refine .inl ⟨rfl, ?_⟩
        change s.counterActive.bind _ = _
        rw [is, Option.bind_some]
        by_cases eq : c = id
        · rw [eq, statusMid, if_pos rfl, if_neg (by decide)]
        · rw [statusMid, if_neg eq, order.swapped c hc, if_pos rfl]
      · exact absurd (no.resolve_left (fun h => h rfl)) (List.ne_nil_of_mem hS)
    · have many : R ++ S ≠ [id] := fun eq => first (by rw [order.active, eq]; rfl)
      have moved := order.counter.erase_swapped order.ring hS many
      have same : (if mid.counterActive = some id ∧ mid.active ≠ some id then
          some (mid.links.prev id) else mid.counterActive) =
          if s.counterActive = some id then some (s.links.prev id) else s.counterActive := by
        have apart : mid.active ≠ some id := first
        simp only [apart, ne_eq, not_false_iff, and_true]
        rfl
      rw [same]
      rcases moved with ⟨c, hc, is⟩ | ⟨nonempty, is⟩
      · rcases keeps with never | ⟨c', is', inRam⟩
        · have empty : R = [] := by
            by_contra ne
            obtain ⟨b, R', rfl⟩ := List.exists_cons_of_ne_nil ne
            have inRam := order.inRam b (by simp)
            rw [never b ((order.mem b).mp (by simp))] at inRam
            cases inRam
          rw [is, Option.bind_some, swappedMid c hc, if_pos rfl]
          exact .inl ⟨empty, rfl⟩
        · rw [is] at is'
          rw [← Option.some.inj is', State.inRam,
            order.swapped c (List.mem_of_mem_erase hc)] at inRam
          exact absurd inRam (by decide)
      · by_cases empty : R = []
        · subst empty
          have alone : S.erase id = [] := nonempty.resolve_left (fun h => h rfl)
          have single : S = [id] := by
            have perm := List.perm_cons_erase hS
            rw [alone] at perm
            exact List.perm_singleton.mp perm
          exact absurd (by rw [single]; rfl) many
        · obtain ⟨init, z, rfl⟩ := exists_concat empty
          have inRam : (s.status z).hasFlag .allocated = true := order.inRam z (by simp)
          have ne : z ≠ id := fun eq => hR (by simp [← eq])
          have stays : mid.status z ≠ .swapped := by
            rw [statusMid, if_neg ne]
            intro sw
            rw [sw] at inRam
            exact absurd inRam (by decide)
          rw [is, List.getLast?_concat, Option.bind_some, if_neg stays]
          exact .inr ⟨empty, rfl⟩
  rw [result.1]
  refine ⟨ring, by simpa using active, ?_, fun x => ?_, fun x hx => ?_, fun x hx => ?_, ?_, ?_, ?_,
    fun x hx => ?_⟩
  · refine .inr ⟨.inl (List.cons_ne_nil _ _), ?_⟩
    rcases placed with ⟨rfl, is⟩ | ⟨ne, is⟩
    · exact is
    · obtain ⟨b, R', rfl⟩ := List.exists_cons_of_ne_nil ne
      simpa [List.getLast?_cons] using is
  · have old := order.mem x
    rw [touch_memChunks]
    change _ ↔ x ∈ s.memChunks
    rw [← old]
    by_cases eq : x = id
    · subst eq
      simp [hS]
    · simp [eq, List.mem_erase_of_ne eq]
  · change (mid.touch id).inRam x = true
    rw [touch_inRam, State.inRam, statusMid]
    split
    · decide
    · rename_i ne
      exact order.inRam x ((List.mem_cons.mp hx).resolve_left ne)
  · change (mid.touch id).status x = .swapped
    rw [touch_status]
    exact swappedMid x hx
  · change (id :: R).Pairwise fun x y => (mid.touch id).lastTouch y < (mid.touch id).lastTouch x
    rw [touch_lastTouch]
    exact recent_touch order.recent order.clock hR
  · change ∀ x, (mid.touch id).lastTouch x ≤ (mid.touch id).clock
    rw [touch_lastTouch, touch_clock]
    exact clock_touch order.clock
  · change 0 < (mid.touch id).memIDPace
    rw [touch_memIDPace]
    exact order.pace
  · change x ∈ (mid.touch id).memChunks at hx
    change 0 < x ∧ x < (mid.touch id).memIDPace
    rw [touch_memChunks] at hx
    rw [touch_memIDPace]
    exact order.ids x hx

end Rambrain.Cyclic
