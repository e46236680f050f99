import Rambrain.Decay

/-!
`swapIn` with preemptive loading, from the selection on.

The loops walk back from the chunk that is needed to the old border and select chunks in the swap.
What the swap has loaded is cut out of the arc that has been passed and goes in before `active`,
the chunk itself comes to `active`. `readIn_section` says that the preemptive section grows by the
chunks that were loaded with it, in their order, and that nothing else moves.

The code relies on the arc holding nothing in RAM, "as we should load in a swapped element, we're in
the swapped section". This is a hypothesis here (`Passes.stored`), and so is that `active` is not on
the arc, unless it is the chunk.
-/

namespace Rambrain.Eviction

open Lib Cyclic

/-- What the swap makes of a chunk it reads in: the read is scheduled, or done. -/
inductive Arrival where
  | swapin
  | allocated
  deriving DecidableEq

def Arrival.status : Arrival → MemoryStatus
  | swapin => .swapin
  | allocated => .allocated

/-- The statuses by which `swapIn` filters. -/
def justSwappedin : List MemoryStatus :=
  [.swapin, .allocated, .allocatedInuseRead, .allocatedInuseWrite, .root]

/-- What the second loop of `swapIn` works on. -/
structure Filled where
  chunks : List Nat
  readEl : Nat
  activeInList : Bool

namespace State

variable (s : State)

/-- The second loop of `swapIn`, with `readEl` and `activeInList` after it. -/
def fillRead (l : ReadLimits) (oldBorder active : Nat) : Nat → Filled → Reading → Option Filled
  | 0, _, _ => none
  | fuel + 1, f, r =>
      let activeInList := f.activeInList || decide (f.readEl = active)
      let before := s.links.prev f.readEl
      if r.selects l (s.chunk f.readEl) then
        let chunks := f.chunks ++ [f.readEl]
        let r := r.add (s.chunk f.readEl).size
        if r.full l then some ⟨chunks, f.readEl, activeInList⟩
        else if before = oldBorder then some ⟨chunks, before, activeInList⟩
        else fillRead l oldBorder active fuel ⟨chunks, before, activeInList⟩ r
      else if before = oldBorder then some ⟨f.chunks, before, activeInList⟩
      else fillRead l oldBorder active fuel ⟨f.chunks, before, activeInList⟩ r

/-- `swap->swapIn ( chunks, numberSelected )`. -/
def readChunks (takes : Nat → Option Arrival) (chunks : List Nat) : State :=
  { s with
    chunk := fun id =>
      match if id ∈ chunks then takes id else none with
      | some arrival => { s.chunk id with status := arrival.status }
      | none => s.chunk id
    memoryUsed := s.memoryUsed + s.sizes (chunks.filter fun id => (takes id).isSome) }

/-- `preemptiveStart` after what has been loaded is filtered out. -/
def startWith (filtered : Option (Nat × Nat)) : Option Nat :=
  match s.preemptiveStart, filtered with
  | some start, _ => some start
  | none, some (start, _) => if s.preemptiveLoaded start then some start else none
  | none, none => none

/-- The surgery of `swapIn`; `none` where it follows a null pointer. -/
def spliceIn (readEl endSwapin active : Nat) : Option State :=
  let after := s.links.next endSwapin
  let filter := fun x => separates justSwappedin none (s.status x) (s.preemptiveLoaded x)
  (filterChain filter 0 s.memChunks.card s.links readEl endSwapin).bind fun r =>
    let (links, toFilter, filtered) := r
    let t := { s with active := some active, preemptiveStart := s.startWith filtered }
    if after ≠ readEl then some { t with links := insertBefore links active filtered }
    else
      match toFilter, filtered with
      | some (pos, _), _ =>
          some { t with links := insertBefore links pos filtered, counterActive := some readEl }
      | none, some (first, last) =>
          some { t with links := links.connect last first, counterActive := some readEl }
      | none, none => none

end State

def Scheduler.resetCounter (s : Scheduler) : Scheduler :=
  { s with toState := s.toState.resetCounter }

/-- The preemptive branch of `swapIn`, once there is room; `none` where it throws. -/
def Scheduler.readIn (s : Scheduler) (takes : Nat → Option Arrival)
    (maxPreemptive targetReadinVol oldBorder chunk : Nat) : Option Scheduler :=
  let l : ReadLimits := ⟨s.memoryMax, s.memoryUsed, maxPreemptive, targetReadinVol⟩
  s.active.bind fun active =>
  (State.selectPass l oldBorder s.memChunks.card s.toPreemptive chunk ⟨0, 0⟩ .start).bind
    fun (t, c) =>
  (t.fillRead l oldBorder active t.memChunks.card ⟨[], chunk, false⟩ ⟨0, 0⟩).bind fun f =>
    let u := t.readChunks takes f.chunks
    let swappedInBytes := t.sizes (f.chunks.filter fun id => (takes id).isSome)
    if swappedInBytes ≠ c.bytes ∧ ¬ (u.inRam chunk ∨ u.status chunk = .swapin) then none
    else
      let u := { u with preemptiveBytes := u.preemptiveBytes + c.bytes - (u.chunk chunk).size }
      let readEl := if f.readEl = oldBorder then u.links.next f.readEl else f.readEl
      let active := if f.activeInList ∧ active = chunk then u.links.next active else active
      (u.spliceIn readEl chunk active).map fun v =>
        ({ s with toPreemptive := v }.touch chunk).resetCounter

variable {s t : State} {L S : List Nat} {l : ReadLimits} {oldBorder active chunk : Nat}

/-! ### The two loops -/

/-- The nodes that a loop of `swapIn` passes. -/
def State.readPassed (s : State) (l : ReadLimits) : Reading → List Nat → List Nat
  | _, [] => []
  | r, id :: w =>
      id :: if r.selects l (s.chunk id) then
        if (r.add (s.chunk id).size).full l then []
        else readPassed s l (r.add (s.chunk id).size) w
      else readPassed s l r w

theorem readPassed_begins (s : State) (l : ReadLimits) : ∀ (w : List Nat) (r : Reading),
    s.readPassed l r w <+: w
  | [], _ => List.prefix_rfl
  | id :: w, r => by
      rw [State.readPassed, List.prefix_cons_inj]
      split_ifs
      · exact List.nil_prefix
      · exact readPassed_begins s l w _
      · exact readPassed_begins s l w r

theorem readPicks_passed (s : State) (l : ReadLimits) : ∀ (w : List Nat) (r : Reading),
    (s.readPicks l r w).Sublist (s.readPassed l r w)
  | [], _ => .slnil
  | id :: w, r => by
      rw [State.readPicks, State.readPassed]
      split_ifs with selects full
      · exact .refl _
      · exact (readPicks_passed s l w _).cons_cons id
      · exact (readPicks_passed s l w r).cons id

/-- The chunks `p` are counted as preemptively loaded. -/
def flagged (flags : Nat → Bool) (p : List Nat) : Nat → Bool :=
  fun x => if x ∈ p then true else flags x

@[simp] theorem flagged_nil (flags : Nat → Bool) : flagged flags [] = flags := by
  funext x
  simp [flagged]

theorem flagged_cons (flags : Nat → Bool) (id : Nat) (p : List Nat) :
    flagged (Function.update flags id true) p = flagged flags (id :: p) := by
  funext x
  unfold flagged
  by_cases here : x = id
  · simp [here]
  · simp [here]

/-- After the first loop: `chunk` is to be loaded, and `p` preemptively. -/
def State.reserved (s : State) (chunk : Nat) (p : List Nat) : State :=
  { s with preemptiveLoaded := flagged (Function.update s.preemptiveLoaded chunk false) p }

/-- Once something has been selected, the first loop flags all that it selects. -/
theorem selectPass_flags (s : State) (l : ReadLimits) : ∀ (w : List Nat) {cur fuel : Nat}
    {r : Reading} {c : Counted} (flags : Nat → Bool), 0 < r.selectedReadinVol →
    Goes s.links.prev cur (cur :: w) oldBorder → oldBorder ∉ w → w.length < fuel →
    State.selectPass l oldBorder fuel { s with preemptiveLoaded := flags } cur r c =
      some ({ s with preemptiveLoaded := flagged flags (s.readPicks l r (cur :: w)) },
        c.addAll s (s.readPicks l r (cur :: w))) := by
  intro w
  induction w with
  | nil =>
      intro cur fuel r c flags more goes _ enough
      obtain ⟨fuel, rfl⟩ := Nat.exists_eq_succ_of_ne_zero (Nat.ne_zero_of_lt enough)
      have last : s.links.prev cur = oldBorder := goes.2
      simp only [State.selectPass, State.readPicks, last, or_true, if_true, ite_self]
      by_cases selects : r.selects l (s.chunk cur) = true
      · simp only [if_pos selects, decide_eq_true more]
        have flag := flagged_cons flags cur []
        rw [flagged_nil] at flag
        rw [flag, ← Counted.add_addAll, Counted.addAll_nil]
      · simp only [if_neg selects, Counted.addAll_nil, flagged_nil]
  | cons y w ih =>
      intro cur fuel r c flags more goes out enough
      obtain ⟨fuel, rfl⟩ := Nat.exists_eq_succ_of_ne_zero (Nat.ne_zero_of_lt enough)
      obtain ⟨_, isY, goes⟩ := goes
      subst isY
      simp only [List.mem_cons, not_or] at out
      have further : s.links.prev cur ≠ oldBorder := fun eq => out.1 eq.symm
      have enough' : w.length < fuel := Nat.lt_of_succ_lt_succ enough
      rw [State.selectPass, State.readPicks]
      simp only [further, or_false]
      by_cases selects : r.selects l (s.chunk cur) = true
      · simp only [if_pos selects, decide_eq_true more]
        by_cases full : (r.add (s.chunk cur).size).full l = true
        · simp only [if_pos full]
          have flag := flagged_cons flags cur []
          rw [flagged_nil] at flag
          rw [flag, ← Counted.add_addAll, Counted.addAll_nil]
        · simp only [if_neg full]
          have more' : 0 < (r.add (s.chunk cur).size).selectedReadinVol :=
            Nat.lt_of_lt_of_le more (Nat.le_add_right _ _)
          have is := ih (c := c.add cur (s.chunk cur).size) (Function.update flags cur true) more'
            ⟨rfl, goes⟩ out.2 enough'
          rw [Counted.add_addAll, flagged_cons] at is
          exact is
      · simp only [if_neg selects]
        exact ih flags more ⟨rfl, goes⟩ out.2 enough'

/-- The second loop has passed `readPassed` when it ends, on its last node or on the border. -/
theorem fillRead_spec (s : State) (l : ReadLimits) (flags : Nat → Bool) (active : Nat) :
    ∀ (w : List Nat) {cur fuel : Nat} {r : Reading} (chunks : List Nat) (activeInList : Bool),
    Goes s.links.prev cur (cur :: w) oldBorder → oldBorder ∉ w → w.length < fuel →
    ∃ readEl, State.fillRead { s with preemptiveLoaded := flags } l oldBorder active fuel
        ⟨chunks, cur, activeInList⟩ r =
      some ⟨chunks ++ s.readPicks l r (cur :: w), readEl,
        activeInList || decide (active ∈ s.readPassed l r (cur :: w))⟩ ∧
      ((s.readPassed l r (cur :: w)).getLast? = some readEl ∨
        (readEl = oldBorder ∧ s.readPassed l r (cur :: w) = cur :: w)) := by
  intro w
  induction w with
  | nil =>
      intro cur fuel r chunks activeInList goes _ enough
      obtain ⟨fuel, rfl⟩ := Nat.exists_eq_succ_of_ne_zero (Nat.ne_zero_of_lt enough)
      have last : s.links.prev cur = oldBorder := goes.2
      have here : decide (cur = active) = decide (active ∈ [cur]) := by
        simp [eq_comm]
      simp only [State.fillRead, State.readPicks, State.readPassed, last, if_true, ite_self, here]
      by_cases selects : r.selects l (s.chunk cur) = true
      · simp only [if_pos selects]
        by_cases full : (r.add (s.chunk cur).size).full l = true
        · simp only [if_pos full]
          exact ⟨cur, rfl, .inl rfl⟩
        · simp only [if_neg full]
          exact ⟨oldBorder, rfl, .inr ⟨rfl, trivial⟩⟩
      · simp only [if_neg selects, List.append_nil]
        exact ⟨oldBorder, rfl, .inr ⟨rfl, trivial⟩⟩
  | cons y w ih =>
      intro cur fuel r chunks activeInList goes out enough
      obtain ⟨fuel, rfl⟩ := Nat.exists_eq_succ_of_ne_zero (Nat.ne_zero_of_lt enough)
      obtain ⟨_, isY, goes⟩ := goes
      subst isY
      simp only [List.mem_cons, not_or] at out
      have further : s.links.prev cur ≠ oldBorder := fun eq => out.1 eq.symm
      have enough' : w.length < fuel := Nat.lt_of_succ_lt_succ enough
      have also : ∀ v : List Nat, (activeInList || decide (cur = active) || decide (active ∈ v)) =
          (activeInList || decide (active ∈ cur :: v)) := by
        intro v
        simp [Bool.or_assoc, eq_comm]
      rw [State.fillRead, State.readPicks, State.readPassed]
      simp only [further, if_false]
      by_cases selects : r.selects l (s.chunk cur) = true
      · simp only [if_pos selects]
        by_cases full : (r.add (s.chunk cur).size).full l = true
        · simp only [if_pos full]
          refine ⟨cur, ?_, .inl rfl⟩
          simp [eq_comm]
        · simp only [if_neg full]
          obtain ⟨readEl, is, ending⟩ := ih (r := r.add (s.chunk cur).size) (chunks ++ [cur])
            (activeInList || decide (cur = active)) ⟨rfl, goes⟩ out.2 enough'
          refine ⟨readEl, ?_, ?_⟩
          · rw [is, also, List.append_assoc]
            rfl
          · rcases ending with last | ⟨isBorder, whole⟩
            · left
              rw [List.getLast?_cons, last]
              rfl
            · exact .inr ⟨isBorder, by rw [whole]⟩
      · simp only [if_neg selects]
        obtain ⟨readEl, is, ending⟩ := ih (r := r) chunks
          (activeInList || decide (cur = active)) ⟨rfl, goes⟩ out.2 enough'
        refine ⟨readEl, ?_, ?_⟩
        · rw [is, also]
        · rcases ending with last | ⟨isBorder, whole⟩
          · left
            rw [List.getLast?_cons, last]
            rfl
          · exact .inr ⟨isBorder, by rw [whole]⟩

/-- What is selected fits into RAM. -/
theorem readPicks_room (s : State) (l : ReadLimits) : ∀ (w : List Nat) (r : Reading),
    r.selectedReadinVol + l.memoryUsed ≤ l.memoryMax →
    r.selectedReadinVol + s.sizes (s.readPicks l r w) + l.memoryUsed ≤ l.memoryMax
  | [], r, room => by
      simpa [State.readPicks] using room
  | id :: w, r, room => by
      have add : (r.add (s.chunk id).size).selectedReadinVol =
          r.selectedReadinVol + (s.chunk id).size := rfl
      rw [State.readPicks]
      split_ifs with selects full
      · simp only [Reading.selects, decide_eq_true_eq] at selects
        simpa using selects.1
      · simp only [Reading.selects, decide_eq_true_eq] at selects
        have rest := readPicks_room s l w (r.add (s.chunk id).size) (add ▸ selects.1)
        rw [add, Nat.add_assoc r.selectedReadinVol] at rest
        rw [sizes_cons]
        exact rest
      · exact readPicks_room s l w r room

/-! ### The chunks that are loaded -/

variable {takes : Nat → Option Arrival} {p : List Nat}

theorem readChunks_others (s : State) {x : Nat} (out : x ∉ p) :
    (s.readChunks takes p).chunk x = s.chunk x := by
  simp [State.readChunks, out]

theorem readChunks_taken (s : State) {x : Nat} {arrival : Arrival} (mem : x ∈ p)
    (isTaken : takes x = some arrival) : (s.readChunks takes p).status x = arrival.status := by
  simp [State.readChunks, Cyclic.State.status, mem, isTaken]

theorem readChunks_size (s : State) (x : Nat) :
    ((s.readChunks takes p).chunk x).size = (s.chunk x).size := by
  simp only [State.readChunks]
  split
  · rfl
  · rfl

/-- `filterChain` separates the chunks that have been loaded from those that are still stored. -/
theorem readChunks_separates (s : State) (all : ∀ x ∈ p, (takes x).isSome = true) {x : Nat}
    (stored : s.separateThis x = true) (loaded : Bool) :
    separates justSwappedin none ((s.readChunks takes p).status x) loaded = decide (x ∈ p) := by
  by_cases mem : x ∈ p
  · obtain ⟨arrival, isTaken⟩ := Option.isSome_iff_exists.mp (all x mem)
    have status := readChunks_taken s mem isTaken
    rw [status]
    cases arrival <;> simp [separates, justSwappedin, Arrival.status, mem]
  · have same : (s.readChunks takes p).status x = s.status x := by
      unfold Cyclic.State.status
      rw [readChunks_others s mem]
    simp only [Cyclic.State.separateThis, decide_eq_true_eq] at stored
    rw [same]
    rcases stored with out | swapped
    · rw [out]
      simp [separates, justSwappedin, mem]
    · rw [swapped]
      simp [separates, justSwappedin, mem]

theorem filter_mem_of_sublist {v : List Nat} (sub : p.Sublist v) (nodup : v.Nodup) :
    (v.filter fun x => x ∈ p) = p := by
  induction sub with
  | slnil => rfl
  | @cons p v x sub ih =>
      obtain ⟨out, nodup⟩ := List.nodup_cons.mp nodup
      rw [List.filter_cons_of_neg (by simpa using fun mem => out (sub.subset mem)), ih nodup]
  | @cons_cons p v x sub ih =>
      obtain ⟨out, nodup⟩ := List.nodup_cons.mp nodup
      rw [List.filter_cons_of_pos (by simp)]
      congr 1
      refine Eq.trans (List.filter_congr ?_) (ih nodup)
      intro y mem
      have ne : y ≠ x := fun eq => out (eq ▸ mem)
      simp [ne]

/-! ### The surgery -/

/-- When the arc is not the whole ring, what the filter cuts out of it goes before `active`. -/
theorem spliceIn_spec {arc rest xs ys loaded : List Nat} {readEl endSwapin active : Nat}
    (ring : Ring s.links (arc ++ rest)) (is : ends arc = some (readEl, endSwapin))
    (more : rest ≠ []) (real : 0 ∉ arc ++ rest) (enough : arc.length ≤ s.memChunks.card)
    (isLoaded : (arc.filter fun x =>
      separates justSwappedin none (s.status x) (s.preemptiveLoaded x)) = loaded)
    (isKept : (arc.filter fun x =>
      !separates justSwappedin none (s.status x) (s.preemptiveLoaded x)) ++ rest =
        xs ++ active :: ys) :
    ∃ k, s.spliceIn readEl endSwapin active = some { s with
        links := k, active := some active, preemptiveStart := s.startWith (ends loaded) } ∧
      Ring k (xs ++ loaded ++ active :: ys) := by
  obtain ⟨k, filtered, ring', path⟩ := filterChain_spec
    (fun x => separates justSwappedin none (s.status x) (s.preemptiveLoaded x)) ring is real enough
  have after : s.links.next endSwapin ≠ readEl := by
    obtain ⟨y, rest, rfl⟩ := List.exists_cons_of_ne_nil more
    obtain ⟨tail, isTail⟩ := List.head?_eq_some_iff.mp (ends_eq_some.mp is).1
    obtain ⟨init, isInit⟩ := List.getLast?_eq_some_iff.mp (ends_eq_some.mp is).2
    have nodup := ring.nodup
    have next : s.links.next endSwapin = y := by
      rw [isInit, List.append_assoc] at ring
      exact ring.joined.1
    rw [next]
    rintro rfl
    exact (List.nodup_append.mp nodup).2.2 y (by simp [isTail]) y List.mem_cons_self rfl
  have apart : (loaded ++ (xs ++ active :: ys)).Nodup := by
    rw [← isKept, ← isLoaded, ← List.append_assoc]
    exact ((List.filter_append_perm _ arc).append_right rest).nodup_iff.mpr ring.nodup
  rw [isLoaded] at filtered path
  rw [isKept] at ring'
  refine ⟨insertBefore k active (ends loaded), ?_, insertBefore_at ring' path apart⟩
  simp only [State.spliceIn, filtered, Option.bind_some, if_pos after]

/-! ### The call -/

/-- The limits of a call of `swapIn`. -/
def State.readLimits (s : State) (maxPreemptive targetReadinVol : Nat) : ReadLimits :=
  ⟨s.memoryMax, s.memoryUsed, maxPreemptive, targetReadinVol⟩

/-- The nodes on the way from `chunk` back to the border. -/
def State.back (s : State) (oldBorder chunk : Nat) : List Nat :=
  walk s.links.prev oldBorder s.memChunks.card chunk

/-- What the code relies on when it reads in `chunk`, and the chunks `p` with it: the border is
another chunk, there is room, and the nodes `v` that the loops pass are all stored; `active` is not
among them, unless it is the chunk. -/
structure Demand (s : State) (L : List Nat) (l : ReadLimits) (oldBorder chunk : Nat)
    (v p : List Nat) : Prop where
  mem : chunk ∈ L
  swapped : s.status chunk = .swapped
  positive : 0 < (s.chunk chunk).size
  room : (s.chunk chunk).size + l.memoryUsed ≤ l.memoryMax
  border : oldBorder ∈ L
  other : oldBorder ≠ chunk
  isPassed : s.readPassed l ⟨0, 0⟩ (s.back oldBorder chunk) = v
  isPicks : s.readPicks l ⟨0, 0⟩ (s.back oldBorder chunk) = chunk :: p
  stored : ∀ x ∈ v, s.separateThis x = true
  active : ∀ a, s.active = some a → a = chunk ∨ a ∉ v

/-- What `swapIn` has done between `s` and `t`: it has loaded the chunks `p`, the first of which is
at `active` now, and has left the others in their order. -/
structure Loads (s t : State) (L p L' : List Nat) : Prop where
  nodup : p.Nodup
  loaded : ∀ x ∈ p, x ∈ L ∧ s.status x = .swapped ∧
    (t.status x = .swapin ∨ t.status x = .allocated)
  others : ∀ x, x ∉ p → t.chunk x = s.chunk x
  used : t.memoryUsed = s.memoryUsed + s.sizes p
  limit : t.memoryUsed ≤ s.memoryMax
  wellFormed : WellFormed t L'
  same : L'.Perm L
  kept : (L'.filter fun x => x ∉ p).IsRotated (L.filter fun x => x ∉ p)
  front : L'.head? = p.head? ∧ t.active = p.head?
  counter : s.counterActive ≠ p.head? →
    t.counterActive = s.counterActive ∨ t.counterActive = p.head?

section
variable {v rest : List Nat}

theorem Demand.selects (demand : Demand s L l oldBorder chunk v p) :
    Reading.selects l ⟨0, 0⟩ (s.chunk chunk) = true := by
  simp only [Reading.selects, decide_eq_true_eq]
  exact ⟨by simpa using demand.room, demand.swapped, .inl trivial⟩

/-- The way back begins at the chunk and ends before the border. -/
theorem Demand.way (demand : Demand s L l oldBorder chunk v p) (wf : WellFormed s L) :
    ∃ w, s.back oldBorder chunk = chunk :: w ∧
      Goes s.links.prev chunk (chunk :: w) oldBorder ∧ oldBorder ∉ w ∧
      w.length < s.memChunks.card := by
  have reaches := wf.ring.reaches_prev demand.mem demand.border
  rw [wf.length] at reaches
  exact reaches.walk

/-- The ring, read from the last node that the loops pass up to the chunk, and on. -/
theorem Demand.arc (demand : Demand s L l oldBorder chunk v p) (wf : WellFormed s L) :
    ∃ u rest, v = chunk :: u ∧ Ring s.links (v.reverse ++ rest) ∧
      (v.reverse ++ rest).IsRotated L ∧ rest ≠ [] := by
  obtain ⟨w, isBack, goes, out, short⟩ := demand.way wf
  have begins : v <+: chunk :: w := by
    rw [← demand.isPassed, isBack]
    exact readPassed_begins s l (chunk :: w) ⟨0, 0⟩
  obtain ⟨u, isV⟩ : ∃ u, v = chunk :: u := by
    rw [← demand.isPassed, isBack, State.readPassed]
    exact ⟨_, rfl⟩
  obtain ⟨B, rotated, ring, last, walks, card⟩ := wf.walk demand.mem
  have enough : (chunk :: w).length ≤ B.reverse.length := card ▸ short
  obtain ⟨y, isB⟩ := begins.trans (goes.begins walks enough)
  have whole : B = y.reverse ++ v.reverse := by
    rw [← List.reverse_append, isB, List.reverse_reverse]
  rw [whole] at ring rotated
  refine ⟨u, y.reverse, isV, ring.rotate, List.isRotated_append.trans rotated, ?_⟩
  intro empty
  -- the border would have been passed
  have memBorder : oldBorder ∈ v := by
    have mem := rotated.mem_iff.mpr demand.border
    rw [empty] at mem
    simpa using mem
  rcases List.mem_cons.mp (begins.subset memBorder) with here | later
  · exact demand.other here
  · exact out later

/-- The first loop flags all that is loaded with the chunk, but not the chunk. -/
theorem Demand.select (demand : Demand s L l oldBorder chunk v p) (wf : WellFormed s L) :
    State.selectPass l oldBorder s.memChunks.card s chunk ⟨0, 0⟩ .start =
      some (s.reserved chunk p, Counted.start.addAll s (chunk :: p)) := by
  obtain ⟨w, isBack, goes, out, short⟩ := demand.way wf
  obtain ⟨fuel, isFuel⟩ := Nat.exists_eq_succ_of_ne_zero (Nat.ne_zero_of_lt short)
  have selects := demand.selects
  have isPicks := demand.isPicks
  rw [isBack, State.readPicks, if_pos selects, List.cons.injEq] at isPicks
  have first : decide (0 < (⟨0, 0⟩ : Reading).selectedReadinVol) = false := rfl
  rw [isFuel, State.selectPass, if_pos selects]
  simp only [first, State.reserved]
  rw [← Counted.add_addAll]
  by_cases full : (Reading.add ⟨0, 0⟩ (s.chunk chunk).size).full l = true
  · rw [if_pos full] at isPicks
    simp only [full, true_or, if_true, ← isPicks.2, flagged_nil, Counted.addAll_nil]
  · rw [if_neg full] at isPicks
    simp only [full, Bool.false_eq_true, false_or]
    cases w with
    | nil =>
        have last : s.links.prev chunk = oldBorder := goes.2
        rw [if_pos last, ← isPicks.2]
        simp only [State.readPicks, flagged_nil, Counted.addAll_nil]
    | cons y w =>
        obtain ⟨_, isY, goes⟩ := goes
        subst isY
        simp only [List.mem_cons, not_or] at out
        have further : s.links.prev chunk ≠ oldBorder := fun eq => out.1 eq.symm
        rw [if_neg further, ← isPicks.2]
        have more : 0 < (Reading.add ⟨0, 0⟩ (s.chunk chunk).size).selectedReadinVol := by
          have size : (Reading.add ⟨0, 0⟩ (s.chunk chunk).size).selectedReadinVol =
            0 + (s.chunk chunk).size := rfl
          rw [size, Nat.zero_add]
          exact demand.positive
        have enough : w.length < fuel := by
          rw [isFuel, List.length_cons] at short
          omega
        exact selectPass_flags s l w (Function.update s.preemptiveLoaded chunk false) more
          ⟨rfl, goes⟩ out.2 enough

/-- The state that the surgery of `swapIn` starts from. -/
def State.afterRead (s : State) (takes : Nat → Option Arrival) (chunk : Nat) (p : List Nat) :
    State :=
  { (s.reserved chunk p).readChunks takes (chunk :: p) with
    preemptiveBytes := s.preemptiveBytes + s.sizes p }

/-- `readIn` is its loops, and then the surgery on the arc they have passed. -/
theorem Demand.readIn {s : Scheduler} {maxPreemptive targetReadinVol : Nat}
    (demand : Demand s.toPreemptive L (s.readLimits maxPreemptive targetReadinVol) oldBorder chunk
      v p)
    (wf : WellFormed s.toPreemptive L) (all : ∀ x ∈ chunk :: p, (takes x).isSome = true)
    (isActive : s.active = some active) :
    ∃ readEl, ends v.reverse = some (readEl, chunk) ∧
      s.readIn takes maxPreemptive targetReadinVol oldBorder chunk =
        ((s.afterRead takes chunk p).spliceIn readEl chunk
          (if active = chunk then s.links.next active else active)).map fun t =>
            ({ s with toPreemptive := t }.touch chunk).resetCounter := by
  obtain ⟨w, isBack, goes, out, short⟩ := demand.way wf
  obtain ⟨u, rest, isV, ring, rotated, _⟩ := demand.arc wf
  have select := demand.select wf
  obtain ⟨readEl, filled, ending⟩ := fillRead_spec s.toPreemptive _
    (flagged (Function.update s.preemptiveLoaded chunk false) p) active w (r := ⟨0, 0⟩) [] false
    goes out short
  rw [← isBack, demand.isPassed, demand.isPicks, List.nil_append, Bool.false_or] at filled
  rw [← isBack, demand.isPassed, isBack] at ending
  have last : v.reverse.getLast? = some chunk := by
    rw [isV]
    simp
  -- the node that the arc begins with
  obtain ⟨readEl', isEl, isEnds⟩ : ∃ readEl',
      (if readEl = oldBorder then s.links.next readEl else readEl) = readEl' ∧
        ends v.reverse = some (readEl', chunk) := by
    refine ⟨_, rfl, ends_eq_some.mpr ⟨?_, last⟩⟩
    rw [List.head?_reverse]
    rcases ending with atLast | ⟨isBorder, whole⟩
    · have notBorder : readEl ≠ oldBorder := by
        rintro rfl
        have mem : readEl ∈ chunk :: w := by
          have begins := readPassed_begins s.toPreemptive
            (s.readLimits maxPreemptive targetReadinVol) (chunk :: w) ⟨0, 0⟩
          rw [← isBack, demand.isPassed] at begins
          exact isBack ▸ begins.subset (List.mem_of_getLast? atLast)
        rcases List.mem_cons.mp mem with here | later
        · exact demand.other here
        · exact out later
      rw [if_neg notBorder]
      exact atLast
    · rw [if_pos isBorder, isBorder, whole]
      obtain ⟨init, z, isZ⟩ := exists_concat (List.cons_ne_nil chunk w)
      rw [isZ] at goes whole ⊢
      obtain ⟨q, _, last⟩ := goes_append.mp goes
      obtain ⟨rfl, last⟩ := last
      have memQ : q ∈ v.reverse ++ rest := by
        rw [whole]
        simp
      have step : s.links.prev q = oldBorder := last
      rw [List.getLast?_concat, ← step, ring.next_prev memQ]
  have taken : (chunk :: p).filter (fun id => (takes id).isSome) = chunk :: p :=
    List.filter_eq_self.mpr all
  refine ⟨readEl', isEnds, ?_⟩
  have whole : (s.reserved chunk p).sizes (chunk :: p) =
      (Counted.start.addAll s.toPreemptive (chunk :: p)).bytes := (Nat.zero_add _).symm
  have after : State.mk ((s.reserved chunk p).readChunks takes (chunk :: p)).toState
      s.preemptiveStart (s.reserved chunk p).preemptiveLoaded
      (s.preemptiveBytes + (Counted.start.addAll s.toPreemptive (chunk :: p)).bytes -
        (((s.reserved chunk p).readChunks takes (chunk :: p)).chunk chunk).size) =
      s.afterRead takes chunk p := by
    have sizes : s.sizes (chunk :: p) = (s.chunk chunk).size + s.sizes p := sizes_cons ..
    have bytes : s.preemptiveBytes +
        ((Counted.start.addAll s.toPreemptive (chunk :: p)).bytes : Int) -
          ((s.chunk chunk).size : Int) = s.preemptiveBytes + s.sizes p := by
      rw [← whole]
      change s.preemptiveBytes + ((s.sizes (chunk :: p) : Nat) : Int) - _ = _
      rw [sizes]
      push_cast
      omega
    rw [readChunks_size]
    exact congrArg (State.mk _ _ _) bytes
  have inList : decide (active ∈ v) = true ∧ active = chunk ↔ active = chunk := by
    refine ⟨fun both => both.2, fun here => ⟨decide_eq_true ?_, here⟩⟩
    rw [here, isV]
    exact List.mem_cons_self
  have filled' : (s.reserved chunk p).fillRead (s.readLimits maxPreemptive targetReadinVol)
      oldBorder active s.memChunks.card ⟨[], chunk, false⟩ ⟨0, 0⟩ =
        some ⟨chunk :: p, readEl, decide (active ∈ v)⟩ := filled
  have card : (s.reserved chunk p).memChunks = s.memChunks := rfl
  unfold State.readLimits at select filled'
  simp only [Scheduler.readIn, isActive, Option.bind_some, select, card, filled', taken]
  rw [if_neg fun both => both.1 whole]
  -- the state is `after`, the first node of the arc is `isEl`
  congr 2
  exact if_congr inList rfl rfl

theorem Demand.sub (demand : Demand s L l oldBorder chunk v p) : (chunk :: p).Sublist v := by
  rw [← demand.isPicks, ← demand.isPassed]
  exact readPicks_passed s l _ _

/-- `active` is on the rest of the ring; the chunk itself is not, and its successor takes its
place. -/
theorem Demand.place (demand : Demand s L l oldBorder chunk v p) (wf : WellFormed s L)
    {u : List Nat} (isV : v = chunk :: u) (ring : Ring s.links (v.reverse ++ rest))
    (rotated : (v.reverse ++ rest).IsRotated L) (more : rest ≠ [])
    (isActive : s.active = some active) :
    ∃ xs ys, rest = xs ++ (if active = chunk then s.links.next active else active) :: ys ∧
      (active = chunk → xs = []) := by
  by_cases here : active = chunk
  · obtain ⟨y, rest, rfl⟩ := List.exists_cons_of_ne_nil more
    rw [isV, List.reverse_cons, List.append_assoc] at ring
    have next : s.links.next chunk = y := ring.joined.1
    rw [if_pos here, here, next]
    exact ⟨[], rest, rfl, fun _ => rfl⟩
  · obtain ⟨a, memA, isA⟩ := wf.active
    cases isActive.symm.trans isA
    have out := (demand.active active isActive).resolve_left here
    have mem : active ∈ rest := by
      have all := rotated.mem_iff.mpr memA
      simpa [out] using all
    obtain ⟨xs, ys, isRest⟩ := List.append_of_mem mem
    rw [if_neg here]
    exact ⟨xs, ys, isRest, fun is => absurd is here⟩

/-- The surgery of `swapIn` puts what has been loaded before `active`. -/
theorem Demand.splice (demand : Demand s L l oldBorder chunk v p) (wf : WellFormed s L)
    (all : ∀ x ∈ chunk :: p, (takes x).isSome = true) {xs ys : List Nat} {readEl next : Nat}
    (ring : Ring s.links (v.reverse ++ rest)) (rotated : (v.reverse ++ rest).IsRotated L)
    (is : ends v.reverse = some (readEl, chunk)) (isRest : rest = xs ++ next :: ys) :
    ∃ k, (s.afterRead takes chunk p).spliceIn readEl chunk next = some
        { s.afterRead takes chunk p with
          links := k
          active := some next
          preemptiveStart := (s.afterRead takes chunk p).startWith (ends (p.reverse ++ [chunk])) } ∧
      Ring k (v.reverse.filter (fun x => x ∉ chunk :: p) ++ xs ++ (p.reverse ++ [chunk]) ++
        next :: ys) := by
  have nodup : v.Nodup := List.nodup_reverse.mp (List.nodup_append.mp ring.nodup).1
  have separate : ∀ x ∈ v.reverse, separates justSwappedin none
      ((s.afterRead takes chunk p).status x) ((s.afterRead takes chunk p).preemptiveLoaded x) =
        decide (x ∈ chunk :: p) := by
    intro x mem
    exact readChunks_separates (s.reserved chunk p) all
      (demand.stored x (List.mem_reverse.mp mem)) _
  have isLoaded : (v.reverse.filter fun x => separates justSwappedin none
      ((s.afterRead takes chunk p).status x) ((s.afterRead takes chunk p).preemptiveLoaded x)) =
        p.reverse ++ [chunk] := by
    rw [List.filter_congr separate, List.filter_reverse, filter_mem_of_sublist demand.sub nodup,
      List.reverse_cons]
  have isLeft : (v.reverse.filter fun x => !separates justSwappedin none
      ((s.afterRead takes chunk p).status x) ((s.afterRead takes chunk p).preemptiveLoaded x)) =
        v.reverse.filter fun x => x ∉ chunk :: p := by
    apply List.filter_congr
    intro x mem
    rw [separate x mem, decide_not]
  have real : 0 ∉ v.reverse ++ rest := fun mem => wf.real (rotated.mem_iff.mp mem)
  have enough : v.reverse.length ≤ s.memChunks.card := by
    rw [← wf.length, ← rotated.perm.length_eq, List.length_append]
    omega
  have more : rest ≠ [] := by
    rw [isRest]
    simp
  apply spliceIn_spec (s := s.afterRead takes chunk p) ring is more real enough isLoaded
  rw [isLeft, isRest, List.append_assoc]

/-- The chunk is touched where it is read from `active` last; nothing else changes. -/
theorem touch_loaded (w : Scheduler) (M rest : List Nat) {next : Nat}
    (ring : Ring w.links (M ++ chunk :: next :: rest)) (isActive : w.active = some next)
    (counter : ∃ c ∈ M ++ chunk :: next :: rest, w.counterActive = some c)
    (unloaded : w.preemptiveLoaded chunk = false) (start : w.preemptiveStart ≠ some chunk) :
    ∃ t, (w.touch chunk).resetCounter = t ∧ Ring t.links (chunk :: next :: rest ++ M) ∧
      t.active = some chunk ∧ (∃ c ∈ chunk :: next :: rest ++ M, t.counterActive = some c) ∧
      (w.counterActive ≠ some chunk →
        t.counterActive = w.counterActive ∨ t.counterActive = some chunk) ∧
      t.chunk = w.chunk ∧ t.memChunks = w.memChunks ∧ t.memoryUsed = w.memoryUsed ∧
      t.preemptiveStart = w.preemptiveStart ∧ t.preemptiveLoaded = w.preemptiveLoaded ∧
      t.preemptiveBytes = w.preemptiveBytes := by
  have nodup := ring.nodup
  have turned : Ring w.links (next :: rest ++ M ++ [chunk]) := by
    have shift : M ++ chunk :: next :: rest = (M ++ [chunk]) ++ next :: rest := by simp
    rw [shift] at ring
    simpa using ring.rotate
  have erased : (next :: rest ++ M ++ [chunk]).erase chunk = next :: rest ++ M := by
    have out : chunk ∉ next :: rest ++ M := by
      have last := turned.nodup
      intro mem
      exact (List.nodup_append.mp last).2.2 chunk mem chunk (List.mem_singleton_self _) rfl
    rw [List.erase_append_right _ out, List.erase_cons_head, List.append_nil]
  have same : ∀ x, x ∈ M ++ chunk :: next :: rest ↔ x ∈ next :: rest ++ M ++ [chunk] := by
    intro x
    simp only [List.mem_append, List.mem_cons, List.not_mem_nil, or_false]
    tauto
  obtain ⟨c, memC, isC⟩ := counter
  have reads : Reads w (next :: rest ++ M ++ [chunk]) :=
    ⟨turned, isActive, .inr ⟨c, (same c).mp memC, isC⟩⟩
  have mem : chunk ∈ next :: rest ++ M ++ [chunk] := by simp
  obtain ⟨⟨ring', active', counter'⟩, moved⟩ := reads.touch mem
  rw [erased] at ring' active' counter'
  obtain ⟨d, memD, isD⟩ := counter'.resolve_left fun empty => by simp at empty
  have eq : (w.touch chunk).resetCounter = { w.touch chunk with
      counterActive :=
        if (w.touch chunk).status d = .swapped then (w.touch chunk).active else some d } := by
    unfold Scheduler.resetCounter
    rw [resetCounter_eq, isD]
    rfl
  refine ⟨_, eq, ring', active', ?_, ?_, ?_, ?_, ?_, ?_, ?_, ?_⟩
  · by_cases stored : (w.touch chunk).status d = .swapped
    · exact ⟨chunk, List.mem_cons_self, (if_pos stored).trans active'⟩
    · exact ⟨d, memD, if_neg stored⟩
  · intro away
    rw [if_neg fun both => away both.1, isD] at moved
    by_cases stored : (w.touch chunk).status d = .swapped
    · exact .inr ((if_pos stored).trans active')
    · exact .inl ((if_neg stored).trans moved)
  · simp [Scheduler.touch]
  · simp [Scheduler.touch]
  · simp [Scheduler.touch]
  · simp [Scheduler.touch, State.startAfter, start]
  · simp [Scheduler.touch, unloaded]
  · simp [Scheduler.touch, unloaded]

/-- A ring is read from one of its nodes in one way. -/
theorem tail_of_isRotated {a : Nat} {xs ys : List Nat} (rotated : (a :: xs).IsRotated (a :: ys))
    (nodup : (a :: xs).Nodup) : xs = ys := by
  obtain ⟨n, is⟩ := rotated
  obtain ⟨b, c, split, turned⟩ : ∃ b c, a :: xs = b ++ c ∧ a :: ys = c ++ b :=
    ⟨(a :: xs).take (n % (a :: xs).length), (a :: xs).drop (n % (a :: xs).length),
      (List.take_append_drop _ _).symm, is.symm.trans List.rotate_eq_drop_append_take_mod⟩
  cases b with
  | nil =>
      rw [List.append_nil] at turned
      exact (List.cons.inj (split.trans turned.symm)).2
  | cons b bs =>
      cases c with
      | nil =>
          rw [List.append_nil] at split
          exact (List.cons.inj (split.trans turned.symm)).2
      | cons c cs =>
          rw [split] at nodup
          have sameB : a = b := (List.cons.inj split).1
          have sameC : a = c := (List.cons.inj turned).1
          exact absurd (sameB.symm.trans sameC)
            ((List.nodup_append.mp nodup).2.2 b List.mem_cons_self c List.mem_cons_self)

/-- What has not been loaded is a ring in its old order. -/
theorem Demand.turned (demand : Demand s L l oldBorder chunk v p) {xs ys : List Nat} {next : Nat}
    (ring : Ring s.links (v.reverse ++ rest)) (rotated : (v.reverse ++ rest).IsRotated L)
    (isRest : rest = xs ++ next :: ys) :
    (next :: ys ++ (v.reverse.filter (fun x => x ∉ chunk :: p) ++ xs)).IsRotated
      (L.filter fun x => x ∉ chunk :: p) := by
  have keep : (rest.filter fun x => x ∉ chunk :: p) = rest := by
    apply List.filter_eq_self.mpr
    intro x mem
    apply decide_eq_true
    intro memP
    have memV : x ∈ v.reverse := List.mem_reverse.mpr (demand.sub.subset memP)
    exact (List.nodup_append.mp ring.nodup).2.2 x memV x mem rfl
  have filtered := isRotated_filter rotated fun x => x ∉ chunk :: p
  rw [List.filter_append, keep, isRest, ← List.append_assoc] at filtered
  exact List.isRotated_append.trans filtered

/-- `preemptiveStart` moves only if there was no section before. -/
theorem Section.startWith (isSection : Section s L S) (once : chunk ∉ p) :
    (s.afterRead takes chunk p).startWith (ends (p.reverse ++ [chunk])) =
      (S ++ p.reverse).head? := by
  have before : (s.afterRead takes chunk p).preemptiveStart = S.head? := isSection.start
  unfold State.startWith
  rw [before]
  cases S with
  | cons x S => rfl
  | nil =>
      cases isP : p.reverse with
      | nil =>
          have unloaded : (s.afterRead takes chunk p).preemptiveLoaded chunk = false := by
            simp [State.afterRead, State.readChunks, State.reserved, flagged, once]
          simp only [List.nil_append, ends_singleton, List.head?_nil, unloaded]
          rfl
      | cons x q =>
          have mem : x ∈ p := by
            rw [← List.mem_reverse, isP]
            exact List.mem_cons_self
          have isLoaded : (s.afterRead takes chunk p).preemptiveLoaded x = true := by
            simp [State.afterRead, State.readChunks, State.reserved, flagged, mem]
          simp only [List.cons_append, ends, List.head?_nil, isLoaded]
          rfl

/-- The section after `swapIn`, whatever has become of the links. -/
theorem Section.grown (isSection : Section s L S) {L' O : List Nat}
    (rotated : (S ++ p.reverse ++ chunk :: O).IsRotated L') (isActive : t.active = some chunk)
    (start : t.preemptiveStart =
      (s.afterRead takes chunk p).startWith (ends (p.reverse ++ [chunk])))
    (loaded : t.preemptiveLoaded = flagged (Function.update s.preemptiveLoaded chunk false) p)
    (bytes : t.preemptiveBytes = s.preemptiveBytes + s.sizes p)
    (chunks : t.chunk = (s.afterRead takes chunk p).chunk) (notIn : ∀ x ∈ chunk :: p, x ∉ S)
    (once : chunk ∉ p) (inRam : ∀ x ∈ p, t.separateThis x = false) :
    Section t L' (S ++ p.reverse) where
  start := start.trans (isSection.startWith once)
  ring := ⟨chunk, O, isActive, rotated⟩
  loaded := by
    intro x
    rw [loaded, List.mem_append, List.mem_reverse]
    unfold flagged
    by_cases mem : x ∈ p
    · simp [mem]
    · by_cases here : x = chunk
      · have out : x ∉ S := notIn x (here ▸ List.mem_cons_self)
        simp [here, once, here ▸ out]
      · simp [mem, here, isSection.loaded x]
  bytes := by
    have same : t.sizes (S ++ p.reverse) = s.sizes S + s.sizes p := by
      have size : ∀ x, (t.chunk x).size = (s.chunk x).size := by
        intro x
        rw [chunks]
        exact readChunks_size _ x
      simp only [State.sizes, size, List.map_append, List.map_reverse, List.sum_append,
        List.sum_reverse]
    rw [bytes, isSection.bytes, same]
    push_cast
    rfl
  inRam := by
    intro x mem
    rcases List.mem_append.mp mem with inS | inP
    · have before := isSection.inRam x inS
      have out : x ∉ chunk :: p := fun is => notIn x is inS
      unfold Cyclic.State.separateThis Cyclic.State.status at before ⊢
      rw [chunks]
      have same : (s.afterRead takes chunk p).chunk x = s.chunk x := readChunks_others _ out
      rw [same]
      exact before
    · exact inRam x (List.mem_reverse.mp inP)

/-- A section before the chunk ends the way back at once. -/
theorem Demand.alone (demand : Demand s L l oldBorder chunk v p) {O u : List Nat}
    (isSection : Section s L S) (isV : v = chunk :: u) (ring : Ring s.links (v.reverse ++ rest))
    (before : (S ++ chunk :: O).IsRotated (v.reverse ++ rest)) (nonempty : S ≠ []) : u = [] := by
  cases u with
  | nil => rfl
  | cons y u =>
      obtain ⟨S', z, rfl⟩ := exists_concat nonempty
      have first : s.links.prev chunk = y := by
        rw [isV] at ring
        have joined : Ring s.links (u.reverse ++ y :: chunk :: rest) := by simpa using ring
        exact joined.joined.2
      have second : s.links.prev chunk = z := by
        have joined := ring_of_isRotated ring before
        rw [List.append_assoc] at joined
        exact joined.joined.2
      have stored := demand.stored y (by simp [isV])
      have inRam := isSection.inRam z (by simp)
      rw [← first, second, inRam] at stored
      cases stored

/-- The section and what has been loaded with the chunk come before the chunk. -/
theorem Demand.before (demand : Demand s L l oldBorder chunk v p) (wf : WellFormed s L)
    (isSection : Section s L S) {u xs ys : List Nat} {next : Nat} (isV : v = chunk :: u)
    (ring : Ring s.links (v.reverse ++ rest)) (rotated : (v.reverse ++ rest).IsRotated L)
    (isRest : rest = xs ++ next :: ys) (notIn : ∀ x ∈ chunk :: p, x ∉ S)
    (isNext : ∀ a, s.active = some a → next = (if a = chunk then s.links.next a else a) ∧
      (a = chunk → xs = [])) :
    ∃ O, (S ++ p.reverse ++ chunk :: O).IsRotated (chunk :: next :: ys ++
      (v.reverse.filter (fun x => x ∉ chunk :: p) ++ xs ++ p.reverse)) := by
  obtain ⟨a, O, isActive, sectioned⟩ := isSection.ring
  obtain ⟨isNext, noXs⟩ := isNext a isActive
  have turned := demand.turned ring rotated isRest
  generalize isR : v.reverse.filter (fun x => x ∉ chunk :: p) = R at turned ⊢
  by_cases here : a = chunk
  · obtain rfl := here
    obtain rfl := noXs rfl
    rw [List.append_nil]
    by_cases empty : S = []
    · refine ⟨next :: ys ++ R, ?_⟩
      have shift : (p.reverse ++ (a :: next :: ys ++ R)).IsRotated
          (a :: next :: ys ++ R ++ p.reverse) := List.isRotated_append
      simpa [empty] using shift
    · have before := sectioned.trans rotated.symm
      have alone := demand.alone isSection isV ring before empty
      have noP : p = [] := by
        have short := demand.sub.length_le
        rw [isV, alone] at short
        exact List.length_eq_zero_iff.mp (by simpa using short)
      have noR : R = [] := by
        rw [← isR, isV, alone]
        simp
      refine ⟨O, ?_⟩
      rw [isV, alone] at before
      simpa [noP, noR, isRest] using before
  · rw [if_neg here] at isNext
    obtain rfl := isNext
    have out : next ∉ chunk :: p := by
      intro mem
      exact (demand.active next isActive).resolve_left here (demand.sub.subset mem)
    have keepS : (S.filter fun x => x ∉ chunk :: p) = S := by
      apply List.filter_eq_self.mpr
      intro x mem
      exact decide_eq_true fun isIn => notIn x isIn mem
    have keepA : ((next :: O).filter fun x => x ∉ chunk :: p) =
        next :: O.filter fun x => x ∉ chunk :: p :=
      List.filter_cons_of_pos (decide_eq_true out)
    have kept := isRotated_filter sectioned fun x => x ∉ chunk :: p
    rw [List.filter_append, keepS, keepA] at kept
    generalize (O.filter fun x => x ∉ chunk :: p) = O' at kept
    have same : O' ++ S = ys ++ (R ++ xs) := by
      apply tail_of_isRotated (a := next)
      · have shift : (next :: O' ++ S).IsRotated (S ++ next :: O') := List.isRotated_append
        exact (shift.trans kept).trans turned.symm
      · have nodup := (turned.nodup_iff.mpr (wf.ring.nodup.filter _))
        have shift : (next :: O' ++ S).IsRotated (S ++ next :: O') := List.isRotated_append
        exact ((shift.trans kept).trans turned.symm).nodup_iff.mpr nodup
    refine ⟨next :: O', ?_⟩
    have whole : chunk :: next :: ys ++ (R ++ xs ++ p.reverse) =
        chunk :: next :: O' ++ (S ++ p.reverse) := by
      simp only [List.cons_append, ← List.append_assoc]
      simp only [List.append_assoc] at same ⊢
      rw [← List.append_assoc R, ← List.append_assoc ys, ← List.append_assoc O', same]
    rw [whole]
    exact List.isRotated_append

/-- What is demanded is loaded. -/
theorem Demand.loads {s : Scheduler} {maxPreemptive targetReadinVol : Nat}
    (wf : WellFormed s.toPreemptive L) (isSection : Section s.toPreemptive L S)
    (demand : Demand s.toPreemptive L (s.readLimits maxPreemptive targetReadinVol) oldBorder chunk
      v p)
    (all : ∀ x ∈ chunk :: p, (takes x).isSome = true) :
    ∃ (t : Scheduler) (L' : List Nat),
      s.readIn takes maxPreemptive targetReadinVol oldBorder chunk = some t ∧
        Loads s.toPreemptive t.toPreemptive L (chunk :: p) L' ∧
        Section t.toPreemptive L' (S ++ p.reverse) := by
  obtain ⟨active, memA, isActive⟩ := wf.active
  obtain ⟨u, rest, isV, ring, rotated, more⟩ := demand.arc wf
  obtain ⟨xs, ys, isRest, noXs⟩ := demand.place wf isV ring rotated more isActive
  obtain ⟨readEl, isEnds, isCall⟩ := demand.readIn wf all isActive
  generalize isNext : (if active = chunk then s.links.next active else active) = next at *
  obtain ⟨k, spliced, ring'⟩ := demand.splice wf all ring rotated isEnds isRest
  have nodup : v.Nodup := List.nodup_reverse.mp (List.nodup_append.mp ring.nodup).1
  have once : chunk ∉ p := (List.nodup_cons.mp (nodup.sublist demand.sub)).1
  have notIn : ∀ x ∈ chunk :: p, x ∉ S := by
    intro x mem inS
    have stored := demand.stored x (demand.sub.subset mem)
    rw [isSection.inRam x inS] at stored
    cases stored
  have perm : (v.reverse.filter (fun x => x ∉ chunk :: p) ++ xs ++ p.reverse ++
      chunk :: next :: ys).Perm L := by
    have picks : (v.reverse.filter fun x => x ∈ chunk :: p) = p.reverse ++ [chunk] := by
      rw [List.filter_reverse, filter_mem_of_sublist demand.sub nodup, List.reverse_cons]
    have parts := List.filter_append_perm (fun x => decide (x ∈ chunk :: p)) v.reverse
    rw [picks] at parts
    simp only [← decide_not] at parts
    refine List.Perm.trans ?_ ((parts.append_right rest).trans rotated.perm)
    rw [isRest]
    apply List.perm_iff_count.mpr
    intro x
    simp only [List.count_append, List.count_cons, List.count_nil]
    omega
  obtain ⟨c, memC, isCounter⟩ := wf.counter
  have isStart : (s.afterRead takes chunk p).startWith (ends (p.reverse ++ [chunk])) ≠
      some chunk := by
    intro is
    rw [isSection.startWith once] at is
    rcases List.mem_append.mp (List.mem_of_head? is) with inS | inP
    · exact notIn chunk List.mem_cons_self inS
    · exact once (List.mem_reverse.mp inP)
  have unloaded : (s.afterRead takes chunk p).preemptiveLoaded chunk = false := by
    simp [State.afterRead, State.readChunks, State.reserved, flagged, once]
  obtain ⟨t, isT, ringT, activeT, counterT, movedT, chunks, registered, used, start, loaded,
    bytes⟩ :=
    touch_loaded { s with toPreemptive := { s.afterRead takes chunk p with
        links := k
        active := some next
        preemptiveStart := (s.afterRead takes chunk p).startWith (ends (p.reverse ++ [chunk])) } }
      (v.reverse.filter (fun x => x ∉ chunk :: p) ++ xs ++ p.reverse) ys (by simpa using ring')
      rfl ⟨c, perm.mem_iff.mpr memC, isCounter⟩ unloaded isStart
  have same : (chunk :: next :: ys ++ (v.reverse.filter (fun x => x ∉ chunk :: p) ++ xs ++
      p.reverse)).Perm L := List.perm_append_comm.trans perm
  have arrived : ∀ x ∈ chunk :: p, ∃ arrival : Arrival, t.status x = arrival.status := by
    intro x mem
    obtain ⟨arrival, isTaken⟩ := Option.isSome_iff_exists.mp (all x mem)
    refine ⟨arrival, ?_⟩
    unfold Cyclic.State.status
    rw [chunks]
    exact readChunks_taken (s.reserved chunk p) mem isTaken
  have isUsed : t.memoryUsed = s.memoryUsed + s.sizes (chunk :: p) := by
    have taken : (chunk :: p).filter (fun id => (takes id).isSome) = chunk :: p :=
      List.filter_eq_self.mpr all
    rw [used]
    change s.memoryUsed + (s.reserved chunk p).sizes ((chunk :: p).filter _) = _
    rw [taken]
    rfl
  refine ⟨t, chunk :: next :: ys ++ (v.reverse.filter (fun x => x ∉ chunk :: p) ++ xs ++
    p.reverse), ?_, ?_, ?_⟩
  · rw [isCall, spliced]
    exact congrArg some isT
  · constructor
    case nodup => exact nodup.sublist demand.sub
    case loaded =>
      intro x mem
      obtain ⟨arrival, isArrival⟩ := arrived x mem
      have inV : x ∈ v.reverse := List.mem_reverse.mpr (demand.sub.subset mem)
      have swapped : s.status x = .swapped := by
        have sub := readPicks_sublist s.toPreemptive
          (s.readLimits maxPreemptive targetReadinVol) (s.back oldBorder chunk) ⟨0, 0⟩
        rw [demand.isPicks] at sub
        exact of_decide_eq_true (List.mem_filter.mp (sub.subset mem)).2
      refine ⟨rotated.mem_iff.mp (List.mem_append_left _ inV), swapped, ?_⟩
      cases arrival
      · exact .inl isArrival
      · exact .inr isArrival
    case others =>
      intro x out
      rw [chunks]
      exact readChunks_others (s.reserved chunk p) out
    case used => exact isUsed
    case limit =>
      have room := readPicks_room s.toPreemptive (s.readLimits maxPreemptive targetReadinVol)
        (s.back oldBorder chunk) ⟨0, 0⟩ (by
          have room := demand.room
          simp only [Nat.zero_add]
          omega)
      rw [demand.isPicks] at room
      simp only [Nat.zero_add, State.readLimits] at room
      rw [isUsed, Nat.add_comm]
      exact room
    case wellFormed =>
      constructor
      case ring => exact ringT
      case mem =>
        intro x
        rw [same.mem_iff, wf.mem, registered]
        rfl
      case active => exact ⟨chunk, List.mem_cons_self, activeT⟩
      case counter => exact counterT
      case real => exact fun mem => wf.real (same.mem_iff.mp mem)
    case same => exact same
    case kept =>
      have turned := demand.turned ring rotated isRest
      have keep : ∀ x ∈ next :: ys ++ (v.reverse.filter (fun x => x ∉ chunk :: p) ++ xs),
          decide (x ∉ chunk :: p) = true := fun x mem =>
        (List.mem_filter.mp (turned.mem_iff.mp mem)).2
      have dropP : (p.reverse.filter fun x => x ∉ chunk :: p) = [] := by
        apply List.filter_eq_nil_iff.mpr
        intro x mem
        simp [List.mem_reverse.mp mem]
      have filtered : ((chunk :: next :: ys ++ (v.reverse.filter (fun x => x ∉ chunk :: p) ++ xs ++
          p.reverse)).filter fun x => x ∉ chunk :: p) =
          next :: ys ++ (v.reverse.filter (fun x => x ∉ chunk :: p) ++ xs) := by
        rw [List.cons_append, List.filter_cons_of_neg (by simp), ← List.append_assoc,
          List.filter_append, dropP, List.append_nil, List.filter_eq_self.mpr keep]
      rw [filtered]
      exact turned
    case front => exact ⟨rfl, activeT⟩
    case counter => exact movedT
  · obtain ⟨O, before⟩ := demand.before wf isSection isV ring rotated isRest notIn (by
      intro a isA
      cases isActive.symm.trans isA
      exact ⟨isNext.symm, noXs⟩)
    apply isSection.grown before activeT start loaded bytes chunks notIn once
    intro x mem
    obtain ⟨arrival, isArrival⟩ := arrived x (List.mem_cons_of_mem chunk mem)
    unfold Cyclic.State.separateThis
    rw [isArrival]
    cases arrival <;> rfl

/-- `swapIn` gives out numbers to no chunk. -/
theorem spliceIn_memIDPace {readEl endSwapin next : Nat}
    (is : s.spliceIn readEl endSwapin next = some t) : t.memIDPace = s.memIDPace := by
  obtain ⟨⟨links, toFilter, filtered⟩, _, rest⟩ := Option.bind_eq_some_iff.mp is
  by_cases whole : s.links.next endSwapin ≠ readEl
  · simp only [whole, ne_eq, not_false_eq_true, if_true, Option.some.injEq] at rest
    rw [← rest]
  · simp only [whole, if_false] at rest
    cases toFilter <;> cases filtered <;> simp only [Option.some.injEq, reduceCtorEq] at rest <;>
      rw [← rest]

theorem Demand.memIDPace {s t : Scheduler} {maxPreemptive targetReadinVol : Nat}
    (demand : Demand s.toPreemptive L (s.readLimits maxPreemptive targetReadinVol) oldBorder chunk
      v p)
    (wf : WellFormed s.toPreemptive L) (all : ∀ x ∈ chunk :: p, (takes x).isSome = true)
    (is : s.readIn takes maxPreemptive targetReadinVol oldBorder chunk = some t) :
    t.memIDPace = s.memIDPace := by
  obtain ⟨active, _, isActive⟩ := wf.active
  obtain ⟨readEl, _, call⟩ := demand.readIn wf all isActive
  obtain ⟨u, spliced, rfl⟩ := Option.map_eq_some_iff.mp (call.symm.trans is)
  have pace := spliceIn_memIDPace spliced
  unfold Scheduler.resetCounter
  rw [resetCounter_eq]
  simp only [Scheduler.touch, touch_memIDPace]
  exact pace

/-- What is loaded preemptively stays within its limit. -/
theorem readPicks_preemptive (s : State) (l : ReadLimits) : ∀ (w : List Nat) (r : Reading),
    0 < r.selectedReadinVol → r.preemptivelySelected ≤ l.maxPreemptive →
    r.preemptivelySelected + s.sizes (s.readPicks l r w) ≤ l.maxPreemptive
  | [], r, _, within => by
      simpa [State.readPicks] using within
  | id :: w, r, more, within => by
      have add : (r.add (s.chunk id).size).preemptivelySelected =
          r.preemptivelySelected + (s.chunk id).size := by
        simp [Reading.add, more]
      have more' : 0 < (r.add (s.chunk id).size).selectedReadinVol :=
        Nat.lt_of_lt_of_le more (Nat.le_add_right _ _)
      rw [State.readPicks]
      split_ifs with selects full
      · simp only [Reading.selects, decide_eq_true_eq] at selects
        have fits := selects.2.2.resolve_left more.ne'
        simpa using fits
      · simp only [Reading.selects, decide_eq_true_eq] at selects
        have fits := selects.2.2.resolve_left more.ne'
        have rest := readPicks_preemptive s l w (r.add (s.chunk id).size) more' (add ▸ fits)
        rw [add, Nat.add_assoc] at rest
        rw [sizes_cons]
        exact rest
      · exact readPicks_preemptive s l w r more within

theorem Demand.within (demand : Demand s L l oldBorder chunk v p) (wf : WellFormed s L) :
    s.sizes p ≤ l.maxPreemptive := by
  obtain ⟨w, isBack, _⟩ := demand.way wf
  have isPicks := demand.isPicks
  rw [isBack, State.readPicks, if_pos demand.selects, List.cons.injEq] at isPicks
  rw [← isPicks.2]
  split_ifs with full
  · exact Nat.zero_le _
  · have more : 0 < (Reading.add ⟨0, 0⟩ (s.chunk chunk).size).selectedReadinVol := by
      simpa [Reading.add] using demand.positive
    have zero : (Reading.add ⟨0, 0⟩ (s.chunk chunk).size).preemptivelySelected = 0 := rfl
    have within := readPicks_preemptive s l w _ more (zero ▸ Nat.zero_le _)
    rw [zero, Nat.zero_add] at within
    exact within

/-- `swapIn` loads the chunks it selects, the chunk itself to `active` and the others, within the
limit of what may be loaded preemptively, to the end of the preemptive section. -/
theorem readIn_section {s : Scheduler} {maxPreemptive targetReadinVol : Nat}
    (wf : WellFormed s.toPreemptive L) (isSection : Section s.toPreemptive L S)
    (demand : Demand s.toPreemptive L (s.readLimits maxPreemptive targetReadinVol) oldBorder chunk
      v p)
    (all : ∀ x ∈ chunk :: p, (takes x).isSome = true) :
    ∃ (t : Scheduler) (L' : List Nat),
      s.readIn takes maxPreemptive targetReadinVol oldBorder chunk = some t ∧
        Loads s.toPreemptive t.toPreemptive L (chunk :: p) L' ∧
        Section t.toPreemptive L' (S ++ p.reverse) ∧ s.sizes p ≤ maxPreemptive := by
  obtain ⟨t, L', is, loads, after⟩ := demand.loads wf isSection all
  exact ⟨t, L', is, loads, after, demand.within wf⟩

end

/-- Behind the chunk at `active`, `2` and `3` are stored; `4` has been loaded preemptively. -/
def storedBehind : Scheduler where
  links := ⟨fun x => x % 4 + 1, fun x => if x = 1 then 4 else x - 1⟩
  active := some 1
  counterActive := some 1
  chunk := fun x => ⟨⟨if x = 2 ∨ x = 3 then .swapped else .allocated, 0⟩, 1⟩
  memChunks := {1, 2, 3, 4}
  memIDPace := 5
  memoryUsed := 2
  memoryMax := 10
  clock := 0
  lastTouch := fun _ => 0
  preemptiveStart := some 4
  preemptiveLoaded := fun x => x = 4
  preemptiveBytes := 1
  consecutivePreemptiveTransactions := 0

theorem wellFormed_storedBehind : WellFormed storedBehind.toPreemptive [1, 2, 3, 4] where
  ring := ⟨by decide, by simp [Lib.Path, Links.Joined, storedBehind]⟩
  mem x := by simp [storedBehind]
  active := ⟨1, by decide, rfl⟩
  counter := ⟨1, by decide, rfl⟩
  real := by decide

theorem section_storedBehind : Section storedBehind.toPreemptive [1, 2, 3, 4] [4] where
  start := rfl
  ring := ⟨1, [2, 3], rfl, ⟨1, rfl⟩⟩
  loaded x := by simp [storedBehind]
  bytes := rfl
  inRam := by decide

theorem demand_storedBehind : Demand storedBehind.toPreemptive [1, 2, 3, 4]
    (storedBehind.readLimits 5 5) 1 3 [3, 2] [2] where
  mem := by decide
  swapped := rfl
  positive := Nat.one_pos
  room := by decide
  border := by decide
  other := by decide
  isPassed := rfl
  isPicks := rfl
  stored := by decide
  active a isActive := by
    cases isActive
    decide

theorem readIn_section_storedBehind :
    ∃ (t : Scheduler) (L' : List Nat),
      storedBehind.readIn (fun _ => some .swapin) 5 5 1 3 = some t ∧
        Loads storedBehind.toPreemptive t.toPreemptive [1, 2, 3, 4] [3, 2] L' ∧
        Section t.toPreemptive L' [4, 2] ∧ 1 ≤ 5 :=
  readIn_section wellFormed_storedBehind section_storedBehind demand_storedBehind fun _ _ => rfl

end Rambrain.Eviction
