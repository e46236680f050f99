import Rambrain.SwapOut
import Mathlib.Data.List.Iterate
import Mathlib.Data.List.Rotate

/-!
`cyclicManagedMemory::swapOut` with preemptive loading, over any swap.

`Cyclic.State` is extended by what the scheduler knows of preemptively loaded chunks. The swap
is what it answers in the one call: the free space at each of the questions `swapOut` asks, and
what becomes of each chunk of the list. An exception of the swap is not an answer: it leaves the
call where the swap has come to in its list (`thrownAt`).

The two rounds choose the same chunks (`countUnload_spec`, `collectUnload_spec`): the `picks`
of the ring read backwards from `counterActive`. Flags, `preemptiveBytes` and `active` change
in the second round, before the swap is asked, so a call that fails afterwards has changed them
(`fruitless_iff`). What the surgery does to the ring is `Cyclic.reorder_spec`; from it,
`swapOut_result` says what a whole call does.
-/

namespace Rambrain.Eviction

open Lib Cyclic

/-- What the swap makes of a chunk it takes: it is stored already, or the write is scheduled. -/
inductive Taken where
  | swapped
  | swapout
  deriving DecidableEq

def Taken.status : Taken → MemoryStatus
  | swapped => .swapped
  | swapout => .swapout

/-- The answers of the swap in one call. -/
structure Swap where
  getFreeSwap : Nat
  /-- The free swap after `cleanupCachedElements`. -/
  cleaned : Nat
  extendSwapByPolicy : Bool
  /-- The free swap after `extendSwapByPolicy`. -/
  extended : Nat
  /-- What `swapOut` of the list makes of a chunk; `none` when it refuses it. -/
  takes : Nat → Option Taken

/-- `swap_free`, or `none` for `ERR_SWAPFULL`. -/
def Swap.swapFree (swap : Swap) (minSize : Nat) : Option Nat :=
  if minSize ≤ swap.getFreeSwap then some swap.getFreeSwap
  else if minSize ≤ swap.cleaned then some swap.cleaned
  else if swap.extendSwapByPolicy then some swap.extended
  else none

/-- The scheduler with preemptive loading. -/
structure State extends Cyclic.State where
  preemptiveStart : Option Nat
  preemptiveLoaded : Nat → Bool
  preemptiveBytes : Int

/-- What the second round works on. -/
structure Round where
  fromPos : Nat
  unloadSize2 : Nat
  unloadlist : List Nat
  active : Nat
  preemptiveLoaded : Nat → Bool
  preemptiveBytes : Int
  resetPreemptiveStart : Bool

/-- What the swap has taken of the list when an exception at its `n`-th chunk leaves it. That chunk
is among them when its write was to be scheduled (`ftruncate` fails), and is not when no place was
found for it (`pfmalloc` throws). -/
def Round.takesUpTo (r : Round) (takes : Nat → Option Taken) (n id : Nat) : Option Taken :=
  if id ∈ r.unloadlist.take (n + 1) then takes id else none

namespace State

variable (s : State)

/-- `mem_swap`; `allocMax` is the product of its argument with `swapOutFrac`. -/
def memSwap (allocMax : Nat → Nat) (swapFree minSize : Nat) : Nat :=
  let memSwapMin := s.memoryUsed - allocMax s.memoryMax
  let memSwap := if memSwapMin < minSize then minSize else memSwapMin
  if swapFree < memSwap then minSize else memSwap

/-- The chunk is eligible and there is room for it after `unloadSize` bytes. -/
def selects (swapFree unloadSize id : Nat) : Bool :=
  s.eligible id ∧ unloadSize + (s.chunk id).size ≤ swapFree

/-- The first round: the bytes and the number of chunks to unload. -/
def countUnload (swapFree memSwap : Nat) : Nat → Nat → Nat → Nat → Nat × Nat
  | 0, _, unloadSize, unload => (unloadSize, unload)
  | left + 1, countPos, unloadSize, unload =>
      if unloadSize < memSwap then
        if s.selects swapFree unloadSize countPos then
          countUnload swapFree memSwap left (s.links.prev countPos)
            (unloadSize + (s.chunk countPos).size) (unload + 1)
        else countUnload swapFree memSwap left (s.links.prev countPos) unloadSize unload
      else (unloadSize, unload)

/-- The second round takes the chunk at `fromPos`. -/
def take (r : Round) : Round :=
  let size := (s.chunk r.fromPos).size
  { r with
    unloadSize2 := r.unloadSize2 + size
    unloadlist := r.unloadlist ++ [r.fromPos]
    preemptiveLoaded :=
      if r.preemptiveLoaded r.fromPos then Function.update r.preemptiveLoaded r.fromPos false
      else r.preemptiveLoaded
    preemptiveBytes :=
      if r.preemptiveLoaded r.fromPos then r.preemptiveBytes - size else r.preemptiveBytes
    resetPreemptiveStart := r.resetPreemptiveStart || s.preemptiveStart = some r.fromPos
    active := if r.active = r.fromPos then s.links.prev r.active else r.active }

def collectUnload (swapFree unloadSize : Nat) : Nat → Round → Round
  | 0, r => r
  | left + 1, r =>
      if r.unloadSize2 < unloadSize then
        let taken := if s.selects swapFree r.unloadSize2 r.fromPos then s.take r else r
        collectUnload swapFree unloadSize left { taken with fromPos := s.links.prev r.fromPos }
      else r

/-- The second round from its start. -/
def secondRound (swapFree unloadSize active counterActive : Nat) : Round :=
  s.collectUnload swapFree unloadSize s.memChunks.card
    ⟨counterActive, 0, [], active, s.preemptiveLoaded, s.preemptiveBytes, false⟩

/-- The bytes of the chunks of a list. -/
def sizes (l : List Nat) : Nat := (l.map fun id => (s.chunk id).size).sum

/-- `swap->swapOut ( unloadlist, unload )`; a chunk that is stored at once is no longer counted
in `memory_used`. -/
def unload (takes : Nat → Option Taken) (r : Round) : State :=
  { s with
    chunk := fun id =>
      match if id ∈ r.unloadlist then takes id else none with
      | some taken => { s.chunk id with status := taken.status }
      | none => s.chunk id
    memoryUsed := s.memoryUsed - s.sizes (r.unloadlist.filter fun id => takes id = some .swapped)
    active := some r.active
    preemptiveLoaded := r.preemptiveLoaded
    preemptiveBytes := r.preemptiveBytes }

/-- From `fromPos = fromPos->next` on: an `active` that is preemptively loaded moves on. -/
def reorder (fromPos counterActive active : Nat) : Option State :=
  (s.toState.reorder fromPos counterActive active).map fun t =>
    { s with
      toState := if s.preemptiveLoaded active then { t with active := some (t.links.next active) }
        else t }

/-- `while ( cur->prev->chunk->preemptiveLoaded ) cur = cur->prev;` -/
def preemptiveFrom : Nat → Nat → Option Nat
  | 0, _ => none
  | left + 1, cur =>
      if s.preemptiveLoaded (s.links.prev cur) then preemptiveFrom left (s.links.prev cur)
      else some cur

/-- The rare case that the chunk at `preemptiveStart` was chosen. -/
def resetStart : Option State :=
  match s.active with
  | some active =>
      (s.preemptiveFrom s.memChunks.card active).map fun cur =>
        { s with preemptiveStart := if cur = active then none else some cur }
  | none => none

/-- The rounds behind which the swap is asked, when the call comes to it. -/
def asked (swap : Swap) (allocMax : Nat → Nat) (minSize : Nat) : Option Round :=
  match s.active, s.counterActive, swap.swapFree minSize with
  | some active, some counterActive, some swapFree =>
      let memSwap := s.memSwap allocMax swapFree minSize
      let (unloadSize, unload) :=
        s.countUnload swapFree memSwap s.memChunks.card counterActive 0 0
      let r := s.secondRound swapFree unloadSize active counterActive
      if s.memoryMax < minSize ∨ unloadSize = 0 ∨ r.unloadlist.length ≠ unload then none
      else some r
  | _, _, _ => none

/-- An exception of the swap at the `n`-th chunk of the list leaves the call. The flags and
`active` have changed by then, the ring and `counterActive` have not. -/
def thrownAt (n : Nat) (swap : Swap) (allocMax : Nat → Nat) (minSize : Nat) : Option State :=
  (s.asked swap allocMax minSize).map fun r => s.unload (r.takesUpTo swap.takes n) r

/-- `swapOut` from the call of the swap on. -/
def afterRounds (takes : Nat → Option Taken) (minSize memSwap counterActive : Nat) (r : Round) :
    Option (SwapErrorCode × State) :=
  let realUnloaded := s.sizes (r.unloadlist.filter fun id => (takes id).isSome)
  let t := s.unload takes r
  if ¬ memSwap ≤ realUnloaded ∧ realUnloaded = 0 then some (.notEnoughCandidates, t)
  else
    (t.reorder r.fromPos counterActive r.active).bind fun t =>
      (if r.resetPreemptiveStart then t.resetStart else some t).map fun t =>
        (if memSwap ≤ realUnloaded ∨ minSize ≤ realUnloaded then .success
          else .notEnoughCandidates, t)

/-- `none` where the code throws, or reads entries of `unloadlist` that it has not set. -/
def swapOut (swap : Swap) (allocMax : Nat → Nat) (minSize : Nat) :
    Option (SwapErrorCode × State) :=
  match s.active, s.counterActive with
  | some active, some counterActive =>
      if s.memoryMax < minSize then some (.moreThanTotalRam, s)
      else
        match swap.swapFree minSize with
        | none => some (.swapFull, s)
        | some swapFree =>
            let memSwap := s.memSwap allocMax swapFree minSize
            let (unloadSize, unload) :=
              s.countUnload swapFree memSwap s.memChunks.card counterActive 0 0
            if unloadSize = 0 then some (.notEnoughCandidates, s)
            else
              let r := s.secondRound swapFree unloadSize active counterActive
              if r.unloadlist.length = unload then
                s.afterRounds swap.takes minSize memSwap counterActive r
              else none
  | _, _ => none

end State

variable {s t : State} {swap : Swap} {allocMax : Nat → Nat} {minSize swapFree target : Nat}

/-! ### The two rounds -/

/-- The chunks that a round takes off the list: it has taken `size` bytes so far and stops at
`target`. -/
def State.picks (s : State) (swapFree target : Nat) : Nat → List Nat → List Nat
  | _, [] => []
  | size, id :: l =>
      if size < target then
        if s.selects swapFree size id then
          id :: picks s swapFree target (size + (s.chunk id).size) l
        else picks s swapFree target size l
      else []

@[simp] theorem sizes_nil (s : State) : s.sizes [] = 0 := rfl

@[simp] theorem sizes_cons (s : State) (id : Nat) (l : List Nat) :
    s.sizes (id :: l) = (s.chunk id).size + s.sizes l := by
  simp [State.sizes]

theorem sizes_eq_zero {l : List Nat} (positive : ∀ x ∈ l, 0 < (s.chunk x).size)
    (zero : s.sizes l = 0) : l = [] := by
  cases l with
  | nil => rfl
  | cons x l =>
      have pos := positive x List.mem_cons_self
      rw [sizes_cons] at zero
      omega

theorem picks_sublist (swapFree target : Nat) : ∀ (l : List Nat) (size : Nat),
    (s.picks swapFree target size l).Sublist l
  | [], _ => .slnil
  | id :: l, size => by
      rw [State.picks]
      split_ifs
      · exact (picks_sublist swapFree target l _).cons_cons id
      · exact (picks_sublist swapFree target l _).cons id
      · exact List.nil_sublist _

theorem picks_eligible (swapFree target : Nat) : ∀ (l : List Nat) (size : Nat),
    ∀ x ∈ s.picks swapFree target size l, s.eligible x = true
  | [], _ => fun _ mem => by cases mem
  | id :: l, size => by
      intro x mem
      rw [State.picks] at mem
      split_ifs at mem with more selects
      · rcases List.mem_cons.mp mem with rfl | mem
        · simp only [State.selects, decide_eq_true_eq] at selects
          exact selects.1
        · exact picks_eligible swapFree target l _ x mem
      · exact picks_eligible swapFree target l _ x mem
      · cases mem

/-- A round with nothing to reach takes nothing. -/
theorem picks_zero (l : List Nat) (size : Nat) : s.picks swapFree 0 size l = [] := by
  cases l <;> simp [State.picks]

/-- The first round sums up and counts what it picks. -/
theorem countUnload_spec (s : State) (swapFree memSwap : Nat) {z : Nat} :
    ∀ (w : List Nat) {p size n : Nat}, Walks s.links p w z →
      s.countUnload swapFree memSwap w.length p size n =
        (size + s.sizes (s.picks swapFree memSwap size w),
          n + (s.picks swapFree memSwap size w).length) := by
  intro w
  induction w with
  | nil =>
      intro p size n walks
      rfl
  | cons x w ih =>
      intro p size n walks
      obtain ⟨rfl, walks⟩ := walks
      rw [List.length_cons, State.countUnload, State.picks]
      split_ifs
      · rw [ih walks, sizes_cons, List.length_cons]
        congr 1 <;> omega
      · exact ih walks
      · rfl

/-- The second round aims at the sum of the first and picks the same chunks, up to chunks of
no bytes at the end. -/
theorem picks_again (s : State) (swapFree memSwap total : Nat) :
    ∀ (l : List Nat) {size : Nat}, total = size + s.sizes (s.picks swapFree memSwap size l) →
      s.picks swapFree total size l <+: s.picks swapFree memSwap size l ∧
      ((∀ x ∈ l, 0 < (s.chunk x).size) →
        s.picks swapFree total size l = s.picks swapFree memSwap size l) := by
  intro l
  induction l with
  | nil =>
      intro size _
      exact ⟨List.prefix_rfl, fun _ => rfl⟩
  | cons x l ih =>
      intro size is
      simp only [State.picks] at is ⊢
      by_cases more : size < memSwap
      · by_cases selects : s.selects swapFree size x = true
        · simp only [if_pos more, if_pos selects] at is ⊢
          rw [sizes_cons, ← Nat.add_assoc] at is
          obtain ⟨before, same⟩ := ih is
          by_cases less : size < total
          · rw [if_pos less]
            refine ⟨List.cons_prefix_cons.mpr ⟨rfl, before⟩, fun positive => ?_⟩
            rw [same fun y mem => positive y (List.mem_cons_of_mem x mem)]
          · rw [if_neg less]
            refine ⟨List.nil_prefix, fun positive => ?_⟩
            have pos := positive x List.mem_cons_self
            omega
        · simp only [if_pos more, if_neg selects] at is ⊢
          obtain ⟨before, same⟩ := ih is
          by_cases less : size < total
          · rw [if_pos less]
            exact ⟨before, fun positive => same fun y mem =>
              positive y (List.mem_cons_of_mem x mem)⟩
          · rw [if_neg less]
            refine ⟨List.nil_prefix, fun positive => (sizes_eq_zero (s := s) (fun y mem => ?_)
              (by omega)).symm⟩
            exact positive y (List.mem_cons_of_mem x
              ((picks_sublist swapFree memSwap l size).subset mem))
      · simp only [if_neg more] at is ⊢
        rw [sizes_nil, Nat.add_zero] at is
        rw [if_neg (by omega)]
        exact ⟨List.prefix_rfl, fun _ => rfl⟩

/-- What the second round has done between `r` and `r'`, where it has taken the chunks `p`. -/
structure Collected (s : State) (r r' : Round) (p : List Nat) : Prop where
  list : r'.unloadlist = r.unloadlist ++ p
  loaded : ∀ x, r'.preemptiveLoaded x = (r.preemptiveLoaded x && decide (x ∉ p))
  bytes : p.Nodup →
    r'.preemptiveBytes = r.preemptiveBytes - s.sizes (p.filter r.preemptiveLoaded)
  reset : r'.resetPreemptiveStart = true ↔
    r.resetPreemptiveStart = true ∨ ∃ x ∈ p, s.preemptiveStart = some x
  stays : r.active ∉ p → r'.active = r.active

theorem Collected.refl (s : State) (r : Round) : Collected s r r [] where
  list := (List.append_nil _).symm
  loaded x := by simp
  bytes _ := by simp
  reset := by simp
  stays _ := rfl

theorem take_loaded (s : State) (r : Round) (x : Nat) :
    (s.take r).preemptiveLoaded x = (r.preemptiveLoaded x && decide (x ≠ r.fromPos)) := by
  simp only [State.take]
  by_cases eq : x = r.fromPos
  · subst eq
    cases loaded : r.preemptiveLoaded r.fromPos <;> simp [loaded]
  · cases loaded : r.preemptiveLoaded r.fromPos <;> simp [eq]

theorem Collected.take {r r' : Round} {p : List Nat} {q : Nat}
    (rest : Collected s { s.take r with fromPos := q } r' p) :
    Collected s r r' (r.fromPos :: p) where
  list := by
    rw [rest.list]
    simp [State.take]
  loaded x := by
    have now : r'.preemptiveLoaded x = ((s.take r).preemptiveLoaded x && decide (x ∉ p)) :=
      rest.loaded x
    rw [now, take_loaded, Bool.and_assoc]
    by_cases eq : x = r.fromPos <;> by_cases mem : x ∈ p <;> simp [eq, mem]
  bytes nodup := by
    obtain ⟨out, nodup⟩ := List.nodup_cons.mp nodup
    have same : p.filter (s.take r).preemptiveLoaded = p.filter r.preemptiveLoaded := by
      refine List.filter_congr fun x mem => ?_
      have ne : x ≠ r.fromPos := fun eq => out (eq ▸ mem)
      rw [take_loaded, decide_eq_true ne, Bool.and_true]
    have now : r'.preemptiveBytes =
        (s.take r).preemptiveBytes - s.sizes (p.filter (s.take r).preemptiveLoaded) :=
      rest.bytes nodup
    rw [now, same]
    cases loaded : r.preemptiveLoaded r.fromPos
    · simp [State.take, loaded]
    · simp only [State.take, loaded, if_true, List.filter_cons_of_pos loaded, sizes_cons]
      omega
  reset := by
    have now : r'.resetPreemptiveStart = true ↔
        (s.take r).resetPreemptiveStart = true ∨ ∃ x ∈ p, s.preemptiveStart = some x := rest.reset
    rw [now]
    simp only [State.take, Bool.or_eq_true, decide_eq_true_eq, List.mem_cons, or_and_right,
      exists_or, exists_eq_left, or_assoc]
  stays out := by
    simp only [List.mem_cons, not_or] at out
    obtain ⟨ne, out⟩ := out
    have same : (s.take r).active = r.active := by simp [State.take, ne]
    have now : (s.take r).active ∉ p → r'.active = (s.take r).active := rest.stays
    rw [now (same ▸ out), same]

theorem Collected.pass {r r' : Round} {p : List Nat} {q : Nat}
    (rest : Collected s { r with fromPos := q } r' p) : Collected s r r' p :=
  ⟨rest.list, rest.loaded, rest.bytes, rest.reset, rest.stays⟩

/-- The second round picks like the first one, and stops behind the last chunk it takes. -/
theorem collectUnload_spec (s : State) (swapFree total : Nat) {z : Nat} :
    ∀ (w : List Nat) {r : Round}, Walks s.links r.fromPos w z →
      ∃ w1 w2, w = w1 ++ w2 ∧
        Walks s.links r.fromPos w1 (s.collectUnload swapFree total w.length r).fromPos ∧
        (s.picks swapFree total r.unloadSize2 w).Sublist w1 ∧
        (total = r.unloadSize2 + s.sizes (s.picks swapFree total r.unloadSize2 w) →
          w1.getLast? = (s.picks swapFree total r.unloadSize2 w).getLast?) ∧
        Collected s r (s.collectUnload swapFree total w.length r)
          (s.picks swapFree total r.unloadSize2 w) := by
  intro w
  induction w with
  | nil =>
      intro r walks
      exact ⟨[], [], rfl, rfl, .slnil, fun _ => rfl, .refl s r⟩
  | cons x w ih =>
      intro r walks
      obtain ⟨rfl, walks⟩ := walks
      rw [List.length_cons, State.collectUnload, State.picks]
      by_cases more : r.unloadSize2 < total
      · by_cases selects : s.selects swapFree r.unloadSize2 r.fromPos = true
        · simp only [if_pos more, if_pos selects]
          obtain ⟨w1, w2, body, walked, sub, stops, collected⟩ :=
            ih (r := { s.take r with fromPos := s.links.prev r.fromPos }) walks
          refine ⟨r.fromPos :: w1, w2, by rw [body]; rfl, ⟨rfl, walked⟩, sub.cons_cons _,
            fun sum => ?_, collected.take⟩
          rw [sizes_cons, ← Nat.add_assoc] at sum
          rw [List.getLast?_cons, stops sum]
          exact List.getLast?_cons.symm
        · simp only [if_pos more, if_neg selects]
          obtain ⟨w1, w2, body, walked, sub, stops, collected⟩ :=
            ih (r := { r with fromPos := s.links.prev r.fromPos }) walks
          refine ⟨r.fromPos :: w1, w2, by rw [body]; rfl, ⟨rfl, walked⟩, sub.cons _,
            fun sum => ?_, collected.pass⟩
          -- bytes are missing, so a chunk is still to come
          have later : w1 ≠ [] := by
            rintro rfl
            rw [List.sublist_nil.mp sub, sizes_nil] at sum
            exact absurd sum (Nat.ne_of_gt more)
          rw [List.getLast?_cons_of_ne_nil later]
          exact stops sum
      · simp only [if_neg more]
        exact ⟨[], r.fromPos :: w, rfl, rfl, .slnil, fun _ => rfl, .refl s r⟩

/-- `active` goes with the walk as long as every chunk it comes to is taken. -/
theorem collectUnload_moving (s : State) (swapFree total : Nat) {z : Nat} :
    ∀ (w : List Nat) {r : Round}, Walks s.links r.fromPos w z → w.Nodup → r.active = r.fromPos →
      (s.picks swapFree total r.unloadSize2 w = w ∧
        (s.collectUnload swapFree total w.length r).active = z) ∨
      (s.picks swapFree total r.unloadSize2 w ≠ w ∧
        (s.collectUnload swapFree total w.length r).active ∈ w) := by
  intro w
  induction w with
  | nil =>
      intro r walks nodup stays
      exact .inl ⟨rfl, stays.trans walks⟩
  | cons x w ih =>
      intro r walks nodup stays
      obtain ⟨rfl, walks⟩ := walks
      obtain ⟨out, nodup⟩ := List.nodup_cons.mp nodup
      rw [List.length_cons, State.collectUnload, State.picks]
      by_cases more : r.unloadSize2 < total
      · by_cases selects : s.selects swapFree r.unloadSize2 r.fromPos = true
        · simp only [if_pos more, if_pos selects]
          rcases ih (r := { s.take r with fromPos := s.links.prev r.fromPos }) walks nodup
            (by simp [State.take, stays]) with ⟨all, ending⟩ | ⟨picked, mem⟩
          · exact .inl ⟨congrArg (r.fromPos :: ·) all, ending⟩
          · exact .inr ⟨fun eq => picked (List.cons.inj eq).2, List.mem_cons_of_mem _ mem⟩
        · simp only [if_pos more, if_neg selects]
          obtain ⟨w1, w2, body, walked, sub, -, collected⟩ := collectUnload_spec s swapFree total w
            (r := { r with fromPos := s.links.prev r.fromPos }) walks
          have passed : r.fromPos ∉ s.picks swapFree total r.unloadSize2 w :=
            fun mem => out ((picks_sublist swapFree total w _).subset mem)
          refine .inr ⟨fun eq => passed (eq ▸ List.mem_cons_self), ?_⟩
          rw [collected.stays (show r.active ∉ _ from stays ▸ passed)]
          exact stays ▸ List.mem_cons_self
      · simp only [if_neg more]
        exact .inr ⟨(List.cons_ne_nil _ _).symm, stays ▸ List.mem_cons_self⟩

/-- Where `active` is after the second round has taken its chunk: behind it in the walk, or at
the end when everything from it on was taken. -/
theorem collectUnload_moved (s : State) (swapFree total : Nat) {z : Nat} :
    ∀ (w : List Nat) {r : Round}, Walks s.links r.fromPos w z → w.Nodup →
      r.active ∈ s.picks swapFree total r.unloadSize2 w →
      ∃ u v q v', w = u ++ r.active :: v ∧
        s.picks swapFree total r.unloadSize2 w = q ++ r.active :: v' ∧
        ((v' = v ∧ (s.collectUnload swapFree total w.length r).active = z) ∨
          (v' ≠ v ∧ (s.collectUnload swapFree total w.length r).active ∈ v)) := by
  intro w
  induction w with
  | nil =>
      intro r walks nodup mem
      cases mem
  | cons x w ih =>
      intro r walks nodup mem
      obtain ⟨rfl, walks⟩ := walks
      obtain ⟨out, nodup⟩ := List.nodup_cons.mp nodup
      rw [List.length_cons, State.collectUnload]
      rw [State.picks] at mem ⊢
      by_cases more : r.unloadSize2 < total
      · by_cases selects : s.selects swapFree r.unloadSize2 r.fromPos = true
        · simp only [if_pos more, if_pos selects] at mem ⊢
          by_cases here : r.active = r.fromPos
          · refine ⟨[], w, [], _, by rw [here]; rfl, by rw [here]; rfl, ?_⟩
            exact collectUnload_moving s swapFree total w
              (r := { s.take r with fromPos := s.links.prev r.fromPos }) walks nodup
              (by simp [State.take, here])
          · have same : (s.take r).active = r.active := by simp [State.take, here]
            obtain ⟨u, v, q, v', body, picked, moves⟩ :=
              ih (r := { s.take r with fromPos := s.links.prev r.fromPos }) walks nodup
                (same ▸ (List.mem_cons.mp mem).resolve_left here)
            simp only [same] at body picked
            exact ⟨r.fromPos :: u, v, r.fromPos :: q, v', by rw [body]; rfl,
              congrArg (r.fromPos :: ·) picked, moves⟩
        · simp only [if_pos more, if_neg selects] at mem ⊢
          obtain ⟨u, v, q, v', body, picked, moves⟩ :=
            ih (r := { r with fromPos := s.links.prev r.fromPos }) walks nodup mem
          exact ⟨r.fromPos :: u, v, q, v', by rw [body]; rfl, picked, moves⟩
      · rw [if_neg more] at mem
        cases mem

/-! ### What a call chooses -/

/-- The ring holds each registered chunk once, with `active` and `counterActive` on it. -/
structure WellFormed (s : State) (L : List Nat) : Prop where
  ring : Ring s.links L
  mem : ∀ x, x ∈ L ↔ x ∈ s.memChunks
  active : ∃ a ∈ L, s.active = some a
  counter : ∃ c ∈ L, s.counterActive = some c
  real : 0 ∉ L

/-- The chunks the second round takes, none when the call ends before it. -/
def State.chosen (s : State) (swap : Swap) (allocMax : Nat → Nat) (minSize : Nat) : List Nat :=
  match s.counterActive, swap.swapFree minSize with
  | some counterActive, some swapFree =>
      let picks := s.picks swapFree (s.memSwap allocMax swapFree minSize) 0
        (List.iterate s.links.prev counterActive s.memChunks.card)
      if s.memoryMax < minSize ∨ s.sizes picks = 0 then [] else picks
  | _, _ => []

/-- The call has come through its rounds: the second one has walked the `arc` of the ring from
`counterActive` back to the last of the chunks `p`, which it has taken. -/
structure Rounds (s : State) (L p : List Nat) (active counterActive : Nat) (rest arc : List Nat)
    (r : Round) : Prop where
  isActive : s.active = some active
  isCounter : s.counterActive = some counterActive
  rotated : (rest ++ arc).IsRotated L
  ring : Ring s.links (rest ++ arc)
  last : arc.getLast? = some counterActive
  first : arc.head? = p.getLast?
  walked : Walks s.links counterActive arc.reverse r.fromPos
  picked : p.Sublist arc.reverse
  eligible : ∀ x ∈ p, s.eligible x = true
  bytes : s.sizes p ≠ 0
  collected : Collected s
    ⟨counterActive, 0, [], active, s.preemptiveLoaded, s.preemptiveBytes, false⟩ r p
  onRing : r.active ∈ L
  unmoved : r.active = active ↔ (active ∈ p → counterActive = active ∧ ∀ x ∈ L, x ∈ p)

theorem iterate_of_walks {k : Links Nat} {p z : Nat} {w : List Nat} (walks : Walks k p w z) :
    List.iterate k.prev p w.length = w := by
  induction w generalizing p with
  | nil => rfl
  | cons x w ih =>
      obtain ⟨rfl, walks⟩ := walks
      rw [List.length_cons, List.iterate, ih walks]

theorem WellFormed.length {L : List Nat} (wf : WellFormed s L) : L.length = s.memChunks.card := by
  have same : L.toFinset = s.memChunks := by
    ext x
    rw [List.mem_toFinset]
    exact wf.mem x
  rw [← same, List.toFinset_card_of_nodup wf.ring.nodup]

/-- The ring can be read so that it ends at any of its chunks. -/
theorem exists_rotated {L : List Nat} {k : Links Nat} {c : Nat} (ring : Ring k L) (mem : c ∈ L) :
    ∃ B, B.IsRotated L ∧ Ring k B ∧ B.getLast? = some c := by
  obtain ⟨xs, ys, rfl⟩ := List.append_of_mem mem
  have body : xs ++ c :: ys = (xs ++ [c]) ++ ys := by simp
  rw [body] at ring ⊢
  exact ⟨ys ++ (xs ++ [c]), List.isRotated_append, ring.rotate, by simp⟩

/-- The ring as `counterActive` walks it: once around, back to where it began. -/
theorem WellFormed.walk {L : List Nat} {c : Nat} (wf : WellFormed s L) (mem : c ∈ L) :
    ∃ B, B.IsRotated L ∧ Ring s.links B ∧ B.getLast? = some c ∧ Walks s.links c B.reverse c ∧
      s.memChunks.card = B.reverse.length := by
  obtain ⟨B, rotated, ring, last⟩ := exists_rotated wf.ring mem
  obtain ⟨z, zIs, walk, -⟩ :=
    Ring.walks (show Lib.Ring s.links (B ++ []) by simpa using ring) last
  obtain rfl : z = c := by simpa using zIs
  refine ⟨B, rotated, ring, last, walk, ?_⟩
  rw [← wf.length, List.length_reverse, rotated.perm.length_eq]

/-- `active` is back where it was only when the walk began at it and took the whole ring. -/
theorem active_unmoved {w p u v q v' : List Nat} {a b c : Nat} (nodup : w.Nodup)
    (head : w.head? = some c) (sub : p.Sublist w) (body : w = u ++ a :: v)
    (picked : p = q ++ a :: v') (moves : (v' = v ∧ b = c) ∨ (v' ≠ v ∧ b ∈ v)) :
    b = a ↔ (c = a ∧ ∀ x ∈ w, x ∈ p) := by
  have first : c = a → u = [] := by
    rintro rfl
    cases u with
    | nil => rfl
    | cons x u =>
        subst body
        obtain rfl : x = c := by simpa using head
        exact absurd (by simp) (List.nodup_cons.mp nodup).1
  have outV : a ∉ v := by
    rw [body] at nodup
    exact (List.nodup_cons.mp (List.nodup_append.mp nodup).2.1).1
  constructor
  · rintro rfl
    rcases moves with ⟨rfl, rfl⟩ | ⟨_, mem⟩
    · refine ⟨rfl, fun x mem => ?_⟩
      rw [first rfl] at body
      rw [picked]
      exact List.mem_append_right q (by rw [body] at mem; exact mem)
    · exact absurd mem outV
  · rintro ⟨rfl, all⟩
    have same : p = w := sub.eq_of_length_le (nodup.subperm all).length_le
    have empty : q = [] := by
      have whole : q ++ c :: v' = c :: v := by rw [← picked, same, body, first rfl]; rfl
      cases q with
      | nil => rfl
      | cons x q =>
          obtain ⟨rfl, tail⟩ := List.cons.inj whole
          exact absurd (tail ▸ List.mem_append_right q List.mem_cons_self) outV
    have tails : v' = v := by
      have whole : q ++ c :: v' = c :: v := by rw [← picked, same, body, first rfl]; rfl
      rw [empty] at whole
      exact (List.cons.inj whole).2
    rcases moves with ⟨_, is⟩ | ⟨ne, _⟩
    · exact is
    · exact absurd tails ne

/-- The second round along the ring `B`, which ends at `counterActive`. -/
theorem rounds_spec {L B : List Nat} {total active z : Nat} (memA : active ∈ L)
    (isActive : s.active = some active) (isCounter : s.counterActive = some z)
    (rotated : B.IsRotated L) (ring : Ring s.links B) (last : B.getLast? = some z)
    (walk : Walks s.links z B.reverse z)
    (bytes : s.sizes (s.picks swapFree total 0 B.reverse) ≠ 0)
    (sum : s.sizes (s.picks swapFree total 0 B.reverse) = total) :
    ∃ rest arc, Rounds s L (s.picks swapFree total 0 B.reverse) active z rest arc
      (s.collectUnload swapFree total B.reverse.length
        ⟨z, 0, [], active, s.preemptiveLoaded, s.preemptiveBytes, false⟩) := by
  have memB : ∀ x, x ∈ B.reverse ↔ x ∈ L := fun x => by
    rw [List.mem_reverse]
    exact rotated.mem_iff
  have nodup : B.reverse.Nodup := List.nodup_reverse.mpr ring.nodup
  have head : B.reverse.head? = some z := by rw [List.head?_reverse]; exact last
  have memZ : z ∈ L := (memB z).mp (List.mem_of_head? head)
  obtain ⟨w1, w2, body, walked, sub, stops, collected⟩ :=
    collectUnload_spec s swapFree total B.reverse
    (r := ⟨z, 0, [], active, s.preemptiveLoaded, s.preemptiveBytes, false⟩) walk
  have someW : w1 ≠ [] := by
    rintro rfl
    exact bytes (by rw [List.sublist_nil.mp sub]; rfl)
  have parts : B = w2.reverse ++ w1.reverse := by
    rw [← List.reverse_append, ← body, List.reverse_reverse]
  have lastW : w1.reverse.getLast? = some z := by
    rw [List.getLast?_reverse]
    rw [body, List.head?_append_of_ne_nil w1 someW] at head
    exact head
  refine ⟨w2.reverse, w1.reverse, isActive, isCounter, parts ▸ rotated, parts ▸ ring, lastW,
    ?_, by rw [List.reverse_reverse]; exact walked, by rw [List.reverse_reverse]; exact sub,
    picks_eligible swapFree total _ 0, bytes, collected, ?_, ?_⟩
  · rw [List.head?_reverse]
    exact stops (by rw [sum, Nat.zero_add])
  · by_cases taken : active ∈ s.picks swapFree total 0 B.reverse
    · obtain ⟨u, v, q, v', isW, picked, moves⟩ := collectUnload_moved s swapFree total B.reverse
        (r := ⟨z, 0, [], active, s.preemptiveLoaded, s.preemptiveBytes, false⟩) walk nodup taken
      rcases moves with ⟨_, is⟩ | ⟨_, mem⟩
      · rw [is]
        exact memZ
      · refine (memB _).mp ?_
        have inW : ∀ y ∈ v, y ∈ B.reverse := fun y memY => by
          rw [isW]
          exact List.mem_append_right u (List.mem_cons_of_mem active memY)
        exact inW _ mem
    · rw [collected.stays taken]
      exact memA
  · by_cases taken : active ∈ s.picks swapFree total 0 B.reverse
    · obtain ⟨u, v, q, v', isW, picked, moves⟩ := collectUnload_moved s swapFree total B.reverse
        (r := ⟨z, 0, [], active, s.preemptiveLoaded, s.preemptiveBytes, false⟩) walk nodup taken
      rw [active_unmoved nodup head (picks_sublist swapFree total _ 0) isW picked moves]
      simp only [taken, true_implies, memB]
    · simp only [taken, false_implies, iff_true]
      exact collected.stays taken

theorem secondRound_list {B : List Nat} {c : Nat} (swapFree total active : Nat)
    (walk : Walks s.links c B.reverse c) (card : s.memChunks.card = B.reverse.length) :
    (s.secondRound swapFree total active c).unloadlist = s.picks swapFree total 0 B.reverse := by
  obtain ⟨w1, w2, body, walked, sub, -, collected⟩ := collectUnload_spec s swapFree total B.reverse
    (r := ⟨c, 0, [], active, s.preemptiveLoaded, s.preemptiveBytes, false⟩) walk
  rw [State.secondRound, card]
  exact collected.list

/-- A call ends before its second round and leaves everything as it was, or comes through both
rounds; it has no result only when a chunk has no bytes. -/
theorem swapOut_cases {L : List Nat} (wf : WellFormed s L) (swap : Swap) (allocMax : Nat → Nat)
    (minSize : Nat) :
    (∃ err, err ≠ .success ∧ s.chosen swap allocMax minSize = [] ∧
      s.swapOut swap allocMax minSize = some (err, s) ∧ s.asked swap allocMax minSize = none) ∨
    (s.swapOut swap allocMax minSize = none ∧ (¬ ∀ x ∈ L, 0 < (s.chunk x).size) ∧
      s.asked swap allocMax minSize = none) ∨
    ∃ memSwap active counterActive rest arc r, minSize ≤ memSwap ∧ 0 < memSwap ∧
      Rounds s L (s.chosen swap allocMax minSize) active counterActive rest arc r ∧
      s.swapOut swap allocMax minSize =
        s.afterRounds swap.takes minSize memSwap counterActive r ∧
      s.asked swap allocMax minSize = some r := by
  obtain ⟨active, memA, isActive⟩ := wf.active
  obtain ⟨c, memC, isCounter⟩ := wf.counter
  simp only [State.swapOut, State.asked, State.chosen, isActive, isCounter]
  by_cases limit : s.memoryMax < minSize
  · refine .inl ⟨.moreThanTotalRam, by decide, ?_, if_pos limit, ?_⟩
    · cases swap.swapFree minSize <;> simp [limit]
    · cases swap.swapFree minSize <;> simp [limit]
  cases room : swap.swapFree minSize with
  | none => exact .inl ⟨.swapFull, by decide, rfl, if_neg limit, rfl⟩
  | some swapFree =>
      obtain ⟨B, rotated, ring, last, walk, card⟩ := wf.walk memC
      have memB : ∀ x, x ∈ B.reverse ↔ x ∈ L := fun x => by
        rw [List.mem_reverse]
        exact rotated.mem_iff
      have nodup : B.reverse.Nodup := List.nodup_reverse.mpr ring.nodup
      have head : B.reverse.head? = some c := by rw [List.head?_reverse]; exact last
      simp only [card, limit, if_false, false_or]
      generalize isSwap : s.memSwap allocMax swapFree minSize = memSwap
      have atLeast : minSize ≤ memSwap := by
        rw [← isSwap]
        simp only [State.memSwap]
        split_ifs <;> omega
      simp only [iterate_of_walks walk, countUnload_spec s swapFree memSwap B.reverse walk,
        Nat.zero_add]
      by_cases zero : s.sizes (s.picks swapFree memSwap 0 B.reverse) = 0
      · simp only [zero, if_true, true_or]
        exact .inl ⟨.notEnoughCandidates, by decide, trivial, rfl, trivial⟩
      · simp only [zero, if_false, false_or]
        have positive : 0 < memSwap := by
          refine Nat.pos_of_ne_zero fun is => zero ?_
          rw [is, picks_zero]
          rfl
        generalize isTotal : s.sizes (s.picks swapFree memSwap 0 B.reverse) = total at *
        obtain ⟨again, same⟩ := picks_again s swapFree memSwap total B.reverse
          (show total = 0 + s.sizes (s.picks swapFree memSwap 0 B.reverse) by
            rw [isTotal, Nat.zero_add])
        have listed := secondRound_list swapFree total active walk card
        by_cases whole : (s.secondRound swapFree total active c).unloadlist.length =
            (s.picks swapFree memSwap 0 B.reverse).length
        · simp only [ne_eq, whole, not_true_eq_false, if_false, if_true]
          rw [listed] at whole
          have picksIs := again.eq_of_length whole
          obtain ⟨rest, arc, rounds⟩ := rounds_spec memA isActive isCounter rotated ring last
            walk (show s.sizes (s.picks swapFree total 0 B.reverse) ≠ 0 by
              rw [picksIs, isTotal]
              exact zero) (by rw [picksIs, isTotal])
          rw [picksIs] at rounds
          refine .inr (.inr ⟨memSwap, active, c, rest, arc, _, atLeast, positive, rounds, ?_, ?_⟩)
          · rw [State.secondRound, card]
          · rw [State.secondRound, card]
        · simp only [ne_eq, whole, not_false_eq_true, if_false, if_true]
          refine .inr (.inl ⟨trivial, fun positive => whole ?_, trivial⟩)
          rw [listed, same fun x mem => positive x ((memB x).mp mem)]

/-! ### After the rounds -/

section
variable (takes : Nat → Option Taken) (r : Round)

/-- The chunks of the list that the swap takes. -/
def Round.taken (r : Round) (takes : Nat → Option Taken) : List Nat :=
  r.unloadlist.filter fun id => (takes id).isSome

theorem unload_others (s : State) {x : Nat} (out : x ∉ r.taken takes) :
    (s.unload takes r).chunk x = s.chunk x := by
  simp only [State.unload]
  by_cases listed : x ∈ r.unloadlist
  · cases answer : takes x with
    | none => simp [listed]
    | some taken => exact absurd (List.mem_filter.mpr ⟨listed, by simp [answer]⟩) out
  · simp [listed]

theorem unload_taken (s : State) {x : Nat} (mem : x ∈ r.taken takes) :
    (s.unload takes r).status x = .swapped ∨ (s.unload takes r).status x = .swapout := by
  obtain ⟨listed, answers⟩ := List.mem_filter.mp mem
  obtain ⟨taken, answer⟩ := Option.isSome_iff_exists.mp answers
  simp only [Cyclic.State.status, State.unload, listed, if_true, answer]
  cases taken
  · exact .inl rfl
  · exact .inr rfl

end

theorem isRotated_filter {l l' : List Nat} (rotated : l.IsRotated l') (keep : Nat → Bool) :
    (l.filter keep).IsRotated (l'.filter keep) := by
  obtain ⟨n, rfl⟩ := rotated
  obtain ⟨xs, ys, rfl, turned⟩ : ∃ xs ys, l = xs ++ ys ∧ l.rotate n = ys ++ xs :=
    ⟨l.take (n % l.length), l.drop (n % l.length), (List.take_append_drop _ _).symm,
      List.rotate_eq_drop_append_take_mod⟩
  rw [turned, List.filter_append, List.filter_append]
  exact List.isRotated_append

theorem next_mem {k : Links Nat} {L : List Nat} {a : Nat} (ring : Ring k L) (mem : a ∈ L) :
    k.next a ∈ L := by
  obtain ⟨xs, ys, rfl⟩ := List.append_of_mem mem
  have turned : Ring k (a :: (ys ++ xs)) := ring.rotate
  have path := turned.cons
  cases rest : ys ++ xs with
  | nil =>
      rw [rest] at path
      rw [(path_cons_cons.mp path).1.1]
      exact mem
  | cons b l =>
      rw [rest] at path
      rw [(path_cons_cons.mp path).1.1]
      have inRest : b ∈ ys ++ xs := rest ▸ List.mem_cons_self
      rcases List.mem_append.mp inRest with inY | inX
      · exact List.mem_append_right xs (List.mem_cons_of_mem a inY)
      · exact List.mem_append_left _ inX

/-- Going back over preemptively loaded chunks ends at the first that is not. -/
theorem preemptiveFrom_isSome {x z : Nat} (not : t.preemptiveLoaded x = false) :
    ∀ (v : List Nat) {left cur : Nat}, Walks t.links (t.links.prev cur) v z → x ∈ v →
      v.length ≤ left → (t.preemptiveFrom left cur).isSome = true := by
  intro v
  induction v with
  | nil =>
      intro left cur walks mem
      cases mem
  | cons y v ih =>
      intro left cur walks mem long
      obtain ⟨rfl, walks⟩ := walks
      cases left with
      | zero => exact absurd long (by simp)
      | succ left =>
          rw [State.preemptiveFrom]
          by_cases loaded : t.preemptiveLoaded (t.links.prev cur) = true
          · have mem : x ∈ v := (List.mem_cons.mp mem).resolve_left fun eq => by
              rw [← eq, not] at loaded
              cases loaded
            rw [if_pos loaded]
            exact ih walks mem (Nat.le_of_succ_le_succ long)
          · rw [if_neg loaded]
            rfl

theorem resetStart_isSome {L : List Nat} {a x : Nat} (ring : Ring t.links L)
    (isActive : t.active = some a) (memA : a ∈ L) (memX : x ∈ L)
    (enough : L.length ≤ t.memChunks.card) (not : t.preemptiveLoaded x = false) :
    ∃ start, t.resetStart = some { t with preemptiveStart := start } := by
  obtain ⟨B, rotated, ringB, last⟩ := exists_rotated ring memA
  obtain ⟨z, zIs, walk, -⟩ := Ring.walks (show Lib.Ring t.links (B ++ []) by simpa using ringB) last
  obtain rfl : z = a := by simpa using zIs
  obtain ⟨init, rfl⟩ := List.getLast?_eq_some_iff.mp last
  rw [List.reverse_append, List.reverse_singleton] at walk
  have around : Walks t.links (t.links.prev z) (init.reverse ++ [z]) (t.links.prev z) :=
    walk.2.append ⟨rfl, rfl⟩
  have inWalk : x ∈ init.reverse ++ [z] := by
    have inB : x ∈ init ++ [z] := rotated.mem_iff.mpr memX
    simpa using inB
  have long : (init.reverse ++ [z]).length ≤ t.memChunks.card := by
    have same := rotated.perm.length_eq
    simp only [List.length_append, List.length_reverse] at same ⊢
    omega
  obtain ⟨cur, found⟩ := Option.isSome_iff_exists.mp
    (preemptiveFrom_isSome not (init.reverse ++ [z]) around inWalk long)
  exact ⟨if cur = z then none else some cur,
    by simp only [State.resetStart, isActive, found, Option.map_some]⟩

/-- What a call has done between `s` and `t`: it has evicted the chunks `E` and leaves the ring
`L'`, in which the chunks in RAM have kept their order, and so have the others. -/
structure Result (s t : State) (L E L' : List Nat) : Prop where
  nodup : E.Nodup
  evicted : ∀ x ∈ E, x ∈ L ∧ s.status x = .allocated ∧ (s.chunk x).useCnt = 0 ∧
    (t.status x = .swapped ∨ t.status x = .swapout)
  others : ∀ x, x ∉ E → t.chunk x = s.chunk x
  wellFormed : WellFormed t L'
  same : L'.Perm L
  kept : (L'.filter fun x => !t.separateThis x).IsRotated (L.filter fun x => !t.separateThis x)
  stored : (L'.filter t.separateThis).IsRotated (L.filter t.separateThis)

theorem Result.refl {L : List Nat} (wf : WellFormed s L) : Result s s L [] L where
  nodup := .nil
  evicted x mem := by cases mem
  others x _ := rfl
  wellFormed := wf
  same := .refl L
  kept := .refl _
  stored := .refl _

/-- How the surgery has made `L'` of the ring `L` when the chunks `p` were chosen. Along the `arc`
from the last of them up to `counterActive`, what is stored goes behind what is in RAM, the chunks
that were stored before along with the evicted ones; nothing else changes its place. -/
structure Regrouped (s t : State) (L p L' rest arc : List Nat) : Prop where
  rotated : (rest ++ arc).IsRotated L
  first : arc.head? = p.getLast?
  last : arc.getLast? = s.counterActive
  order : L' = (rest ++ arc.filter fun x => !t.separateThis x) ++ arc.filter t.separateThis

variable {L p rest arc : List Nat} {active counterActive : Nat} {r : Round}
  {takes : Nat → Option Taken}

theorem Rounds.list (rounds : Rounds s L p active counterActive rest arc r) : r.unloadlist = p :=
  rounds.collected.list

theorem Rounds.mem (rounds : Rounds s L p active counterActive rest arc r) {x : Nat}
    (mem : x ∈ r.taken takes) : x ∈ arc ∧ x ∈ L ∧ s.eligible x = true := by
  have picked : x ∈ p := rounds.list ▸ (List.mem_filter.mp mem).1
  have inArc : x ∈ arc := List.mem_reverse.mp (rounds.picked.subset picked)
  exact ⟨inArc, rounds.rotated.mem_iff.mp (List.mem_append_right rest inArc),
    rounds.eligible x picked⟩

/-- The statuses after the swap, whatever has become of the ring. -/
theorem Rounds.statuses (rounds : Rounds s L p active counterActive rest arc r)
    (chunks : t.chunk = (s.unload takes r).chunk) :
    (r.taken takes).Nodup ∧
    (∀ x ∈ r.taken takes, x ∈ L ∧ s.status x = .allocated ∧ (s.chunk x).useCnt = 0 ∧
      (t.status x = .swapped ∨ t.status x = .swapout)) ∧
    ∀ x, x ∉ r.taken takes → t.chunk x = s.chunk x := by
  have nodupArc : arc.reverse.Nodup :=
    List.nodup_reverse.mpr (List.nodup_append.mp rounds.ring.nodup).2.1
  refine ⟨?_, fun x mem => ?_, fun x out => ?_⟩
  · refine List.Nodup.filter _ ?_
    rw [rounds.list]
    exact nodupArc.sublist rounds.picked
  · obtain ⟨-, inL, eligible⟩ := rounds.mem mem
    simp only [Cyclic.State.eligible, decide_eq_true_eq] at eligible
    refine ⟨inL, eligible.1, eligible.2, ?_⟩
    simp only [Cyclic.State.status, chunks]
    exact unload_taken takes r s mem
  · rw [chunks]
    exact unload_others takes r s out

/-- When the swap takes nothing of any size, the ring is as it was. -/
theorem Rounds.fruitless (rounds : Rounds s L p active counterActive rest arc r)
    (wf : WellFormed s L) : Result s (s.unload takes r) L (r.taken takes) L := by
  obtain ⟨nodup, evicted, others⟩ := rounds.statuses
    (show (s.unload takes r).chunk = (s.unload takes r).chunk from rfl)
  exact ⟨nodup, evicted, others,
    ⟨wf.ring, wf.mem, ⟨_, rounds.onRing, rfl⟩, wf.counter, wf.real⟩, .refl L, .refl _, .refl _⟩

/-- The surgery after a swap that has taken something. -/
theorem Rounds.surgery (rounds : Rounds s L p active counterActive rest arc r)
    (wf : WellFormed s L) (nonempty : r.taken takes ≠ []) :
    ∃ t L', (s.unload takes r).reorder r.fromPos counterActive r.active = some t ∧
      t.preemptiveLoaded = r.preemptiveLoaded ∧ Result s t L (r.taken takes) L' ∧
      Regrouped s t L p L' rest arc := by
  obtain ⟨first, tail, arcIs⟩ := List.exists_cons_of_ne_nil
    (show arc ≠ [] by rintro rfl; cases rounds.last)
  have arcEnds : ends arc = some (first, counterActive) :=
    ends_eq_some.mpr ⟨by rw [arcIs]; rfl, rounds.last⟩
  have mems : ∀ x, x ∈ rest ++ arc ↔ x ∈ L := fun x => rounds.rotated.mem_iff
  have prev : s.links.prev first = r.fromPos := by
    refine rounds.walked.prev_last ?_
    rw [List.getLast?_reverse, arcIs]
    rfl
  have next : s.links.next r.fromPos = first := by
    rw [← prev]
    exact rounds.ring.next_prev (by rw [arcIs]; simp)
  have enough : arc.length ≤ s.memChunks.card := by
    rw [← wf.length, ← rounds.rotated.perm.length_eq, List.length_append]
    exact Nat.le_add_left _ _
  generalize isT : s.unload takes r = t
  have chunks : t.chunk = (s.unload takes r).chunk := by rw [isT]
  have links : t.links = s.links := by rw [← isT]; rfl
  have separates : arc.filter t.separateThis ≠ [] := by
    obtain ⟨x, mem⟩ := List.exists_mem_of_ne_nil _ nonempty
    refine List.ne_nil_of_mem (List.mem_filter.mpr ⟨(rounds.mem mem).1, ?_⟩)
    have stored := unload_taken takes r s mem
    rw [isT] at stored
    simp only [Cyclic.State.separateThis, decide_eq_true_eq]
    exact stored.symm
  obtain ⟨k', c', reordered, ring', border⟩ := reorder_spec r.active
    (show Ring t.links (rest ++ (arc ++ [])) by rw [List.append_nil, links]; exact rounds.ring)
    arcEnds
    (by rw [List.append_nil]; exact fun mem => wf.real ((mems 0).mp mem))
    (by rw [← isT]; exact enough) (by rw [links]; exact next) (by rw [links]; exact prev) separates
  rw [List.append_nil] at ring'
  generalize isL' : (rest ++ arc.filter fun x => !t.separateThis x) ++ arc.filter t.separateThis =
    L' at ring'
  have same : L'.Perm (rest ++ arc) := by
    rw [← isL', List.append_assoc]
    refine List.Perm.append_left rest ?_
    exact List.perm_append_comm.trans (List.filter_append_perm t.separateThis arc)
  have memL' : ∀ x, x ∈ L' ↔ x ∈ L := fun x => same.mem_iff.trans (mems x)
  have memActive : r.active ∈ L' := (memL' _).mpr rounds.onRing
  have memCounter : c' ∈ L' := by
    rcases border with last | ⟨_, last | ⟨_, rfl⟩⟩
    · rw [← isL']
      exact List.mem_append_left _ (List.mem_of_getLast? last)
    · cases last
    · exact memActive
  obtain ⟨a', memA', result⟩ : ∃ a' ∈ L', t.reorder r.fromPos counterActive r.active =
      some { t with links := k', counterActive := some c', active := some a' } := by
    rw [State.reorder, reordered, Option.map_some]
    by_cases loaded : t.preemptiveLoaded r.active = true
    · exact ⟨k'.next r.active, next_mem ring' memActive, by rw [if_pos loaded]⟩
    · refine ⟨_, ?_, by rw [if_neg loaded]⟩
      split_ifs
      · exact memActive
      · exact memCounter
  refine ⟨_, L', result, by rw [← isT]; rfl, ?_,
    rounds.rotated, rounds.first, rounds.last.trans rounds.isCounter.symm, isL'.symm⟩
  obtain ⟨nodup, evicted, others⟩ := rounds.statuses chunks
  refine ⟨nodup, evicted, others, ⟨ring', fun x => ?_, ⟨a', memA', rfl⟩, ⟨c', memCounter, rfl⟩,
    fun zero => wf.real ((memL' 0).mp zero)⟩, same.trans rounds.rotated.perm, ?_, ?_⟩
  · rw [memL' x, wf.mem x, ← isT]
    rfl
  · -- the part that is not walked, then what the walk has left
    have order : (L'.filter fun x => !t.separateThis x) =
        (rest ++ arc).filter fun x => !t.separateThis x := by
      rw [← isL']
      simp [List.filter_append, List.filter_filter]
    exact order ▸ isRotated_filter rounds.rotated _
  · have order : L'.filter t.separateThis = (rest ++ arc).filter t.separateThis := by
      rw [← isL']
      simp [List.filter_append, List.filter_filter]
    exact order ▸ isRotated_filter rounds.rotated _

theorem Result.withStart {E L' : List Nat} (result : Result s t L E L') (start : Option Nat) :
    Result s { t with preemptiveStart := start } L E L' :=
  ⟨result.nodup, result.evicted, result.others,
    ⟨result.wellFormed.ring, result.wellFormed.mem, result.wellFormed.active,
      result.wellFormed.counter, result.wellFormed.real⟩,
    result.same, result.kept, result.stored⟩

theorem Regrouped.withStart {L' : List Nat} (regrouped : Regrouped s t L p L' rest arc)
    (start : Option Nat) : Regrouped s { t with preemptiveStart := start } L p L' rest arc :=
  ⟨regrouped.rotated, regrouped.first, regrouped.last, regrouped.order⟩

/-- Once the rounds are through, the call returns: with an error and the ring as it was when the
swap has taken no byte, else after the surgery. -/
theorem Rounds.afterRounds (rounds : Rounds s L p active counterActive rest arc r)
    (wf : WellFormed s L) {memSwap : Nat} (atLeast : minSize ≤ memSwap) (positive : 0 < memSwap)
    (takes : Nat → Option Taken) :
    (s.sizes (r.taken takes) = 0 ∧ s.afterRounds takes minSize memSwap counterActive r =
      some (.notEnoughCandidates, s.unload takes r)) ∨
    ∃ err t L', s.afterRounds takes minSize memSwap counterActive r = some (err, t) ∧
      s.sizes (r.taken takes) ≠ 0 ∧ Result s t L (r.taken takes) L' ∧
      Regrouped s t L p L' rest arc ∧
      (err = .success → minSize ≤ s.sizes (r.taken takes)) := by
  simp only [State.afterRounds]
  rw [show (r.unloadlist.filter fun id => (takes id).isSome) = r.taken takes from rfl]
  by_cases zero : s.sizes (r.taken takes) = 0
  · exact .inl ⟨zero, if_pos ⟨by omega, zero⟩⟩
  · rw [if_neg fun both => zero both.2]
    have nonempty : r.taken takes ≠ [] := by
      intro empty
      rw [empty] at zero
      exact zero rfl
    obtain ⟨t, L', reordered, loaded, result, regrouped⟩ := rounds.surgery wf nonempty
    rw [reordered, Option.bind_some]
    have enough : (if memSwap ≤ s.sizes (r.taken takes) ∨ minSize ≤ s.sizes (r.taken takes)
        then SwapErrorCode.success else .notEnoughCandidates) = .success →
        minSize ≤ s.sizes (r.taken takes) := by
      split_ifs with big
      · intro _
        omega
      · intro eq
        cases eq
    by_cases reset : r.resetPreemptiveStart = true
    · -- the chunk at `preemptiveStart` was chosen, so its flag is gone
      obtain ⟨x, mem, _⟩ : ∃ x ∈ p, s.preemptiveStart = some x := by
        simpa using rounds.collected.reset.mp reset
      have notLoaded : t.preemptiveLoaded x = false := by
        rw [loaded, rounds.collected.loaded]
        simp [mem]
      have memX : x ∈ L' := result.same.mem_iff.mpr
        (rounds.rotated.mem_iff.mp (List.mem_append_right rest
          (List.mem_reverse.mp (rounds.picked.subset mem))))
      obtain ⟨a, memA, isActive⟩ := result.wellFormed.active
      obtain ⟨start, restarted⟩ := resetStart_isSome result.wellFormed.ring isActive memA memX
        result.wellFormed.length.le notLoaded
      rw [if_pos reset, restarted, Option.map_some]
      exact .inr ⟨_, _, L', rfl, zero, result.withStart start, regrouped.withStart start, enough⟩
    · rw [if_neg reset, Option.map_some]
      exact .inr ⟨_, _, L', rfl, zero, result, regrouped, enough⟩

theorem thrownAt_rounds (wf : WellFormed s L) {swap : Swap} {allocMax : Nat → Nat} {minSize n : Nat}
    (threw : s.thrownAt n swap allocMax minSize = some t) :
    ∃ active counterActive rest arc r,
      Rounds s L (s.chosen swap allocMax minSize) active counterActive rest arc r ∧
      t = s.unload (r.takesUpTo swap.takes n) r := by
  obtain ⟨r, asked, rfl⟩ := Option.map_eq_some_iff.mp threw
  rcases swapOut_cases wf swap allocMax minSize with ⟨e, -, -, -, unasked⟩ | ⟨-, -, unasked⟩ |
    ⟨memSwap, active, counterActive, rest, arc, q, -, -, rounds, -, is⟩
  · rw [unasked] at asked
    cases asked
  · rw [unasked] at asked
    cases asked
  · rw [is] at asked
    cases asked
    exact ⟨active, counterActive, rest, arc, _, rounds, rfl⟩

/-- With no chunk of size 0 the call returns. -/
theorem swapOut_returns (wf : WellFormed s L) (swap : Swap) (allocMax : Nat → Nat) (minSize : Nat)
    (sized : ∀ x ∈ L, 0 < (s.chunk x).size) :
    (s.swapOut swap allocMax minSize).isSome = true := by
  rcases swapOut_cases wf swap allocMax minSize with ⟨e, -, -, is, -⟩ | ⟨-, unsized, -⟩ |
    ⟨memSwap, active, counterActive, rest, arc, r, atLeast, positive, rounds, is, -⟩
  · rw [is]
    rfl
  · exact absurd sized unsized
  · rcases rounds.afterRounds wf atLeast positive swap.takes with ⟨-, after⟩ |
      ⟨e, u, L', after, -⟩
    · rw [is, after]
      rfl
    · rw [is, after]
      rfl

/-- `swapOut` on a ring that is well formed: whatever it returns, it has evicted some chunks that
were resident and not in use, at least `min_size` bytes of them when it reports success; no other
chunk changes, and the ring is well formed again. Without evicted bytes the ring is as it was.
Otherwise, on the arc from the last chosen chunk up to `counterActive`, what is stored now goes
behind what is in RAM, and every other chunk keeps its place. With no chunk of size 0 the call
returns. -/
theorem swapOut_result (wf : WellFormed s L) (swap : Swap) (allocMax : Nat → Nat)
    (minSize : Nat) :
    (∀ err t, s.swapOut swap allocMax minSize = some (err, t) → ∃ E L', Result s t L E L' ∧
      (err = .success → minSize ≤ s.sizes E) ∧ (s.sizes E = 0 → L' = L) ∧
      (s.sizes E ≠ 0 → ∃ rest arc,
        Regrouped s t L (s.chosen swap allocMax minSize) L' rest arc ∧ ∀ x ∈ E, x ∈ arc)) ∧
    ((∀ x ∈ L, 0 < (s.chunk x).size) → (s.swapOut swap allocMax minSize).isSome = true) := by
  refine ⟨?_, swapOut_returns wf swap allocMax minSize⟩
  rcases swapOut_cases wf swap allocMax minSize with ⟨e, failed, -, is, -⟩ | ⟨is, -⟩ |
    ⟨memSwap, active, counterActive, rest, arc, r, atLeast, positive, rounds, is, -⟩
  · rw [is]
    intro err t eq
    cases eq
    exact ⟨[], L, .refl wf, fun success => absurd success failed, fun _ => rfl,
      fun nonzero => absurd rfl nonzero⟩
  · rw [is]
    intro err t eq
    cases eq
  · rcases rounds.afterRounds wf atLeast positive swap.takes with ⟨zero, after⟩ |
      ⟨e, u, L', after, bytes, result, regrouped, enough⟩
    · rw [is, after]
      intro err t eq
      cases eq
      exact ⟨_, L, rounds.fruitless wf, fun success => (by cases success), fun _ => rfl,
        fun nonzero => absurd zero nonzero⟩
    · rw [is, after]
      intro err t eq
      cases eq
      exact ⟨_, L', result, enough, fun zero => absurd zero bytes,
        fun _ => ⟨rest, arc, regrouped, fun x mem => (rounds.mem mem).1⟩⟩

/-- Chunks `1` and `4` can be evicted; between them `2` is stored already and `3` is in use. -/
def storedBetween : State where
  links := ⟨fun x => x % 5 + 1, fun x => if x = 1 then 5 else x - 1⟩
  active := some 5
  counterActive := some 4
  chunk := fun x => ⟨⟨if x = 2 then .swapped else if x = 3 then .allocatedInuseRead
    else .allocated, if x = 3 then 1 else 0⟩, 1⟩
  memChunks := {1, 2, 3, 4, 5}
  memIDPace := 6
  memoryUsed := 4
  memoryMax := 10
  clock := 0
  lastTouch := fun _ => 0
  preemptiveStart := none
  preemptiveLoaded := fun _ => false
  preemptiveBytes := 0

/-- A swap with room that takes every chunk. -/
def roomySwap : Swap := ⟨10, 10, false, 10, fun _ => some .swapped⟩

theorem wellFormed_storedBetween : WellFormed storedBetween [1, 2, 3, 4, 5] where
  ring := ⟨by decide, by
    simp only [List.head?_cons, Option.toList_some, List.cons_append, List.nil_append]
    exact .cons_cons ⟨rfl, rfl⟩ (.cons_cons ⟨rfl, rfl⟩ (.cons_cons ⟨rfl, rfl⟩
      (.cons_cons ⟨rfl, rfl⟩ (.cons_cons ⟨rfl, rfl⟩ (.singleton _)))))⟩
  mem x := by simp [storedBetween]
  active := ⟨5, by decide, rfl⟩
  counter := ⟨4, by decide, rfl⟩
  real := by decide

theorem swapOut_result_storedBetween :
    ∃ t, storedBetween.swapOut roomySwap id 2 = some (.success, t) ∧
      ∃ E L' rest arc, Result storedBetween t [1, 2, 3, 4, 5] E L' ∧ 2 ≤ storedBetween.sizes E ∧
        Regrouped storedBetween t [1, 2, 3, 4, 5] [4, 1] L' rest arc ∧ ∀ x ∈ E, x ∈ arc := by
  obtain ⟨all, returns⟩ := swapOut_result wellFormed_storedBetween roomySwap id 2
  obtain ⟨⟨err, t⟩, is⟩ := Option.isSome_iff_exists.mp (returns fun _ _ => Nat.one_pos)
  have success : (storedBetween.swapOut roomySwap id 2).map (fun r => r.1) = some .success := by
    decide +kernel
  obtain rfl : err = .success := by
    rw [is] at success
    exact Option.some.inj success
  obtain ⟨E, L', result, enough, -, regroups⟩ := all _ _ is
  have chosen : storedBetween.chosen roomySwap id 2 = [4, 1] := by decide +kernel
  rw [chosen] at regroups
  obtain ⟨rest, arc, regrouped, walked⟩ := regroups (by have := enough rfl; omega)
  exact ⟨t, is, E, L', rest, arc, result, enough rfl, regrouped, walked⟩

/-- A chunk that was stored before the call is moved along with the evicted ones. -/
theorem swapOut_moves_stored :
    ¬ ∀ (s t : State) (L L' : List Nat) (swap : Swap) (allocMax : Nat → Nat) (minSize : Nat)
      (err : SwapErrorCode), WellFormed s L → s.swapOut swap allocMax minSize = some (err, t) →
      L'.Perm L → Ring t.links L' →
      (L'.filter fun x => t.status x = s.status x).IsRotated
        (L.filter fun x => t.status x = s.status x) := by
  intro always
  have ran : (storedBetween.swapOut roomySwap id 2).map (fun r =>
      ([5, 3, 1, 2, 4].map r.2.links.next, [3, 1, 2, 4, 5].map r.2.links.prev,
        [1, 2, 3, 4, 5].filter fun x => r.2.status x = storedBetween.status x,
        [5, 3, 1, 2, 4].filter fun x => r.2.status x = storedBetween.status x)) =
      some ([3, 1, 2, 4, 5], [5, 3, 1, 2, 4], [2, 3, 5], [5, 3, 2]) := by
    decide +kernel
  obtain ⟨⟨err, t⟩, is, facts⟩ := Option.map_eq_some_iff.mp ran
  simp only [Prod.mk.injEq] at facts
  obtain ⟨next, prev, before, after⟩ := facts
  have ring : Ring t.links [5, 3, 1, 2, 4] := by
    refine ⟨by decide, ?_⟩
    simp only [List.map_cons, List.map_nil, List.cons.injEq, and_true] at next prev
    simp [Lib.Path, Links.Joined, next, prev]
  have moved := always storedBetween t [1, 2, 3, 4, 5] [5, 3, 1, 2, 4] roomySwap id 2 err
    wellFormed_storedBetween is (by decide) ring
  rw [before, after] at moved
  exact absurd moved (by decide)

/-! ### A call that fails -/

/-- The scheduler is as it was. -/
structure Unchanged (s t : State) : Prop where
  active : t.active = s.active
  counterActive : t.counterActive = s.counterActive
  links : t.links = s.links
  preemptiveStart : t.preemptiveStart = s.preemptiveStart
  preemptiveLoaded : t.preemptiveLoaded = s.preemptiveLoaded
  preemptiveBytes : t.preemptiveBytes = s.preemptiveBytes

/-- When the swap takes nothing, the second round has changed something exactly when it met a
flagged chunk, or the chunk at `active` without going all around. -/
theorem Rounds.unchanged_iff (rounds : Rounds s L p active counterActive rest arc r) :
    Unchanged s (s.unload takes r) ↔
      (∀ x ∈ p, s.preemptiveLoaded x = false) ∧
        (active ∈ p → counterActive = active ∧ ∀ x ∈ L, x ∈ p) := by
  constructor
  · intro unchanged
    have same : r.preemptiveLoaded = s.preemptiveLoaded := unchanged.preemptiveLoaded
    have stays : some r.active = s.active := unchanged.active
    rw [rounds.isActive] at stays
    refine ⟨fun x mem => ?_, rounds.unmoved.mp (Option.some.inj stays)⟩
    rw [← same, rounds.collected.loaded]
    simp [mem]
  · rintro ⟨unflagged, around⟩
    have loaded : r.preemptiveLoaded = s.preemptiveLoaded := by
      funext x
      rw [rounds.collected.loaded]
      by_cases mem : x ∈ p
      · simp [mem, unflagged x mem]
      · simp [mem]
    have nodup : p.Nodup := (List.nodup_reverse.mpr
      (List.nodup_append.mp rounds.ring.nodup).2.1).sublist rounds.picked
    have empty : p.filter s.preemptiveLoaded = [] :=
      List.filter_eq_nil_iff.mpr fun x mem => by simp [unflagged x mem]
    have bytes : r.preemptiveBytes = s.preemptiveBytes := by
      have is : r.preemptiveBytes = s.preemptiveBytes - s.sizes (p.filter s.preemptiveLoaded) :=
        rounds.collected.bytes nodup
      rw [is, empty]
      simp
    refine ⟨?_, rfl, rfl, rfl, loaded, bytes⟩
    rw [rounds.isActive]
    exact congrArg some (rounds.unmoved.mpr around)

/-- A chunk that the swap has taken is no longer resident. -/
theorem Result.none_taken {E L' : List Nat} (result : Result s t L E L')
    (idle : ∀ id, t.status id = s.status id) : E = [] := by
  refine List.eq_nil_iff_forall_not_mem.mpr fun x mem => ?_
  obtain ⟨-, resident, -, stored⟩ := result.evicted x mem
  rw [idle x, resident] at stored
  rcases stored with eq | eq <;> cases eq

/-- A swap that refuses every chunk changes no chunk. -/
theorem refused_status (wf : WellFormed s L) (refuses : ∀ x, swap.takes x = none)
    {err : SwapErrorCode} (ended : s.swapOut swap allocMax minSize = some (err, t)) (id : Nat) :
    t.status id = s.status id := by
  have untaken : ∀ r : Round, r.taken swap.takes = [] := fun r =>
    List.filter_eq_nil_iff.mpr fun x _ => by simp [refuses x]
  rcases swapOut_cases wf swap allocMax minSize with ⟨e, -, -, is, -⟩ | ⟨is, -⟩ |
    ⟨memSwap, active, counterActive, rest, arc, r, atLeast, positive, rounds, is, -⟩
  · rw [is] at ended
    cases ended
    rfl
  · rw [is] at ended
    cases ended
  · rcases rounds.afterRounds wf atLeast positive swap.takes with ⟨-, after⟩ |
      ⟨e, u, L', -, nonzero, -⟩
    · rw [is, after] at ended
      cases ended
      have fruitless : Result s (s.unload swap.takes r) L (r.taken swap.takes) L :=
        rounds.fruitless wf
      have same := fruitless.others id (by rw [untaken r]; simp)
      simp only [Cyclic.State.status, same]
    · exact absurd (by rw [untaken r]; rfl) nonzero

/-- A failing call of `swapOut` for which the swap moves nothing leaves the scheduler as it was
exactly when none of the chunks it chose is flagged as loaded preemptively, and the chunk at
`active` is chosen only when `counterActive` is on it and the whole ring is chosen. -/
theorem fruitless_iff (wf : WellFormed s L) {err : SwapErrorCode}
    (ended : s.swapOut swap allocMax minSize = some (err, t)) (failed : err ≠ .success)
    (idle : ∀ id, t.status id = s.status id) :
    Unchanged s t ↔
      (∀ x ∈ s.chosen swap allocMax minSize, s.preemptiveLoaded x = false) ∧
        ∀ a ∈ s.chosen swap allocMax minSize, s.active = some a →
          s.counterActive = some a ∧ ∀ x ∈ L, x ∈ s.chosen swap allocMax minSize := by
  rcases swapOut_cases wf swap allocMax minSize with ⟨e, -, empty, is, -⟩ | ⟨is, -⟩ |
    ⟨memSwap, active, counterActive, rest, arc, r, atLeast, positive, rounds, is, -⟩
  · rw [is] at ended
    cases ended
    rw [empty]
    refine ⟨fun _ => ⟨fun x mem => ?_, fun a mem => ?_⟩, fun _ => ⟨rfl, rfl, rfl, rfl, rfl, rfl⟩⟩
    · cases mem
    · cases mem
  · rw [is] at ended
    cases ended
  · rcases rounds.afterRounds wf atLeast positive swap.takes with ⟨zero, after⟩ |
      ⟨e, u, L', after, nonzero, result, enough⟩
    · rw [is, after] at ended
      cases ended
      rw [rounds.unchanged_iff, rounds.isActive, rounds.isCounter]
      refine and_congr_right fun _ => ⟨fun around a mem eq => ?_, fun around mem => ?_⟩
      · cases eq
        exact ⟨congrArg some (around mem).1, (around mem).2⟩
      · obtain ⟨eq, all⟩ := around active mem rfl
        exact ⟨Option.some.inj eq, all⟩
    · rw [is, after] at ended
      cases ended
      rw [result.none_taken idle] at nonzero
      exact absurd rfl nonzero

/-- The chunk at `active` is in use; the one before it was loaded preemptively. -/
def loadedAhead : State where
  links := ⟨fun x => if x = 1 then 2 else 1, fun x => if x = 1 then 2 else 1⟩
  active := some 1
  counterActive := some 1
  chunk := fun x => ⟨if x = 1 then ⟨.allocatedInuseRead, 1⟩ else .fresh, 1⟩
  memChunks := {1, 2}
  memIDPace := 3
  memoryUsed := 2
  memoryMax := 2
  clock := 0
  lastTouch := fun _ => 0
  preemptiveStart := some 2
  preemptiveLoaded := fun x => x = 2
  preemptiveBytes := 1

/-- A swap with room that refuses every chunk. -/
def refusingSwap : Swap := ⟨10, 10, false, 10, fun _ => none⟩

theorem wellFormed_loadedAhead : WellFormed loadedAhead [1, 2] where
  ring := ⟨by decide, by simp [Lib.Path, Links.Joined, loadedAhead]⟩
  mem x := by simp [loadedAhead]
  active := ⟨1, by decide, rfl⟩
  counter := ⟨1, by decide, rfl⟩
  real := by decide

theorem fruitless_iff_loadedAhead :
    ∃ t, loadedAhead.swapOut refusingSwap id 1 = some (.notEnoughCandidates, t) ∧
      (Unchanged loadedAhead t ↔
        (∀ x ∈ loadedAhead.chosen refusingSwap id 1, loadedAhead.preemptiveLoaded x = false) ∧
          ∀ a ∈ loadedAhead.chosen refusingSwap id 1, loadedAhead.active = some a →
            loadedAhead.counterActive = some a ∧
              ∀ x ∈ [1, 2], x ∈ loadedAhead.chosen refusingSwap id 1) := by
  have ran : (loadedAhead.swapOut refusingSwap id 1).map (fun r => r.1) =
      some .notEnoughCandidates := by
    decide +kernel
  obtain ⟨⟨err, t⟩, is, rfl⟩ := Option.map_eq_some_iff.mp ran
  exact ⟨t, is, fruitless_iff wellFormed_loadedAhead is (by decide)
    (refused_status wellFormed_loadedAhead (fun _ => rfl) is)⟩

/-- The chunk stays in RAM, but it is no longer flagged and its bytes no longer count. -/
theorem swapOut_unflags :
    ¬ ∀ (s t : State) (L : List Nat) (swap : Swap) (allocMax : Nat → Nat) (minSize : Nat)
      (err : SwapErrorCode), WellFormed s L → s.swapOut swap allocMax minSize = some (err, t) →
      err ≠ .success → (∀ id, t.status id = s.status id) → Unchanged s t := by
  intro always
  have ran : (loadedAhead.swapOut refusingSwap id 1).map (fun r =>
      (r.1, r.2.preemptiveLoaded 2)) = some (.notEnoughCandidates, false) := by
    decide +kernel
  obtain ⟨⟨err, t⟩, is, facts⟩ := Option.map_eq_some_iff.mp ran
  obtain ⟨rfl, unflagged⟩ := Prod.mk.inj facts
  have unchanged := always loadedAhead t [1, 2] refusingSwap id 1 _ wellFormed_loadedAhead is
    (by decide) (refused_status wellFormed_loadedAhead (fun _ => rfl) is)
  rw [unchanged.preemptiveLoaded] at unflagged
  cases unflagged

/-! ### Without preemptive loading -/

/-- The free swap never decides, and the swap takes every chunk at once. -/
structure Roomy (s : State) (swap : Swap) (memSwap most : Nat) : Prop where
  takes : ∀ x, swap.takes x = some .swapped
  sizes : ∀ x, (s.chunk x).size ≤ most
  room : memSwap + 2 * most ≤ swap.getFreeSwap

theorem selects_of_room {size most x : Nat} (le : (s.chunk x).size ≤ most)
    (room : size + most ≤ swapFree) : s.selects swapFree size x = s.eligible x := by
  have fits : size + (s.chunk x).size ≤ swapFree := by omega
  simp [State.selects, fits]

/-- The first round, as it is without a limit on the swap. -/
theorem countUnload_plain {memSwap most : Nat} (sizes : ∀ x, (s.chunk x).size ≤ most)
    (room : memSwap + most ≤ swapFree) : ∀ (left p size n : Nat), size ≤ memSwap + most →
      s.countUnload swapFree memSwap left p size n = s.toState.countUnload memSwap left p size n ∧
        (s.countUnload swapFree memSwap left p size n).1 ≤ memSwap + most := by
  intro left
  induction left with
  | zero =>
      intro p size n le
      exact ⟨rfl, le⟩
  | succ left ih =>
      intro p size n le
      rw [State.countUnload, Cyclic.State.countUnload]
      by_cases more : size < memSwap
      · rw [if_pos more, if_pos more, selects_of_room (sizes p) (by omega)]
        have bound := sizes p
        split_ifs
        · exact ih _ _ _ (by omega)
        · exact ih _ _ _ le
      · rw [if_neg more, if_neg more]
        exact ⟨rfl, le⟩

/-- The second round, as it is without a limit on the swap and with no chunk flagged. -/
theorem collectUnload_plain {total most : Nat} (sizes : ∀ x, (s.chunk x).size ≤ most)
    (room : total + most ≤ swapFree) (unstarted : s.preemptiveStart = none) :
    ∀ (left : Nat) (r : Round), (∀ x, r.preemptiveLoaded x = false) →
      r.resetPreemptiveStart = false →
      let r' := s.collectUnload swapFree total left r
      (r'.fromPos, r'.unloadlist, r'.active) =
          s.toState.collectUnload total left r.fromPos r.unloadSize2 r.unloadlist r.active ∧
        (∀ x, r'.preemptiveLoaded x = false) ∧ r'.resetPreemptiveStart = false := by
  intro left
  induction left with
  | zero =>
      intro r unflagged notReset
      exact ⟨rfl, unflagged, notReset⟩
  | succ left ih =>
      intro r unflagged notReset
      simp only [State.collectUnload, Cyclic.State.collectUnload]
      by_cases more : r.unloadSize2 < total
      · simp only [if_pos more, selects_of_room (sizes r.fromPos) (show r.unloadSize2 + most ≤
          swapFree by omega)]
        by_cases eligible : s.eligible r.fromPos = true
        · simp only [if_pos eligible]
          refine ih { s.take r with fromPos := s.links.prev r.fromPos } (fun x => ?_) ?_
          · simp [State.take, unflagged]
          · simp [State.take, notReset, unstarted]
        · simp only [if_neg eligible]
          exact ih { r with fromPos := s.links.prev r.fromPos } unflagged notReset
      · simp only [if_neg more]
        exact ⟨trivial, unflagged, notReset⟩

/-- The second round lists the bytes that the first has summed up, when it lists as many
chunks. -/
theorem sizes_listed (active : Nat) {c total n memSwap : Nat} (wf : WellFormed s L) (mem : c ∈ L)
    (counted : s.countUnload swapFree memSwap s.memChunks.card c 0 0 = (total, n))
    (whole : (s.secondRound swapFree total active c).unloadlist.length = n) :
    s.sizes (s.secondRound swapFree total active c).unloadlist = total := by
  obtain ⟨B, rotated, ring, last, walk, card⟩ := wf.walk mem
  rw [card, countUnload_spec s swapFree memSwap B.reverse walk] at counted
  obtain ⟨sum, length⟩ := Prod.mk.inj counted
  obtain ⟨again, -⟩ := picks_again s swapFree memSwap total B.reverse sum.symm
  rw [secondRound_list swapFree total active walk card] at whole ⊢
  rw [again.eq_of_length (by rw [whole, ← length, Nat.zero_add])]
  rw [← sum, Nat.zero_add]

/-- A swap that stores each chunk at once does to the list what the dummy swap does. -/
theorem unload_plain {r : Round} {takes : Nat → Option Taken}
    (stores : ∀ x, takes x = some .swapped) :
    (s.unload takes r).toState =
      { s.toState.dummySwapOut r.unloadlist with active := some r.active } := by
  simp only [State.unload, Cyclic.State.dummySwapOut, State.sizes, stores, decide_true,
    List.filter_true]
  congr 1
  funext x
  by_cases mem : x ∈ r.unloadlist
  · simp [mem, Taken.status]
  · simp [mem]

/-- An `active` that is not flagged stays where the reordering has put it. -/
theorem reorder_plain (fromPos counterActive : Nat) {active : Nat}
    (notLoaded : t.preemptiveLoaded active = false) :
    (t.reorder fromPos counterActive active).map State.toState =
      t.toState.reorder fromPos counterActive active := by
  simp only [State.reorder, notLoaded, Bool.false_eq_true, if_false, Option.map_map]
  exact Option.map_id'

/-- The reordering sets `active` and does not read it. -/
theorem reorder_active (u : Cyclic.State) (a : Option Nat) {fromPos counterActive active : Nat} :
    { u with active := a }.reorder fromPos counterActive active =
      u.reorder fromPos counterActive active := rfl

/-- Over a roomy swap and with nothing loaded preemptively the scheduler is the one without
preemptive loading. -/
theorem swapOut_plain (wf : WellFormed s L) {most : Nat}
    (roomy : Roomy s swap (s.toState.memSwap allocMax minSize) most)
    (unflagged : ∀ x, s.preemptiveLoaded x = false) (unstarted : s.preemptiveStart = none) :
    (s.swapOut swap allocMax minSize).map (fun r => r.2.toState) =
      s.toState.swapOut allocMax minSize := by
  obtain ⟨active, memA, isActive⟩ := wf.active
  obtain ⟨c, memC, isCounter⟩ := wf.counter
  have least : minSize ≤ s.toState.memSwap allocMax minSize := le_max_left _ _
  have room := roomy.room
  have free : swap.swapFree minSize = some swap.getFreeSwap := if_pos (by omega)
  have same : s.memSwap allocMax swap.getFreeSwap minSize =
      s.toState.memSwap allocMax minSize := by
    simp only [State.memSwap, Cyclic.State.memSwap] at room ⊢
    split_ifs <;> omega
  simp only [State.swapOut, Cyclic.State.swapOut, isActive, isCounter, free, same]
  by_cases limit : s.memoryMax < minSize
  · rw [if_pos limit, if_pos limit]
    rfl
  rw [if_neg limit, if_neg limit]
  generalize s.toState.memSwap allocMax minSize = memSwap at *
  obtain ⟨counted, bound⟩ := countUnload_plain roomy.sizes
    (show memSwap + most ≤ swap.getFreeSwap by omega) s.memChunks.card c 0 0 (Nat.zero_le _)
  rw [← counted]
  generalize firstRound : s.countUnload swap.getFreeSwap memSwap s.memChunks.card c 0 0 = first at *
  obtain ⟨total, n⟩ := first
  by_cases zero : total = 0
  · simp only [zero, if_true]
    rfl
  have fits : total + most ≤ swap.getFreeSwap := by
    simp only at bound
    omega
  obtain ⟨collected, calm, notReset⟩ := collectUnload_plain roomy.sizes fits unstarted
    s.memChunks.card
    ⟨c, 0, [], active, s.preemptiveLoaded, s.preemptiveBytes, false⟩ unflagged rfl
  have listed := sizes_listed active wf memC firstRound
  simp only [zero, if_false, ← collected]
  rw [← State.secondRound] at calm notReset ⊢
  generalize s.secondRound swap.getFreeSwap total active c = r at *
  by_cases whole : r.unloadlist.length = n
  · rw [if_pos whole, if_pos whole, State.afterRounds]
    have all : (r.unloadlist.filter fun id => (swap.takes id).isSome) = r.unloadlist := by
      simp [roomy.takes]
    simp only [all, listed whole, zero, and_false, if_false, notReset]
    have reordered := reorder_plain (t := s.unload swap.takes r) r.fromPos c (calm r.active)
    rw [unload_plain roomy.takes, reorder_active] at reordered
    rw [← reordered]
    cases (s.unload swap.takes r).reorder r.fromPos c r.active <;> rfl
  · rw [if_neg whole, if_neg whole]
    rfl

end Rambrain.Eviction
