import Rambrain.RingOps
import Rambrain.TwoPasses

/-!
`decay`: preemptively loaded chunks are swapped out again.

The preemptive section is the part of the ring from `preemptiveStart` up to `active`. `decay` walks
along it and swaps out what fits its limits. When it has skipped a chunk, it filters the chunks it
has swapped out from the part it has walked, and inserts them before the section.

`decay_section` says that the ring is kept, and that the section is what it was without the chunks
that were swapped out. It needs `active` to be in RAM: `filterChain` is given `active` too when the
walk ends there, and `preemptiveStart` is then read from a node that has been cut out.
-/

namespace Rambrain.Eviction

open Lib Cyclic

namespace State

variable (s : State)

/-- The local `consecutive` after the first loop of `decay`. -/
def consecutive (l : DecayLimits) (active : Nat) : Nat → Nat → Nat → Bool
  | 0, _, _ => true
  | fuel + 1, cur, bytesselected =>
      if cur ≠ active ∧ bytesselected < l.target then
        if l.selects bytesselected (s.chunk cur) then
          consecutive l active fuel (s.links.next cur) (bytesselected + (s.chunk cur).size)
        else false
      else true

/-- `swap->swapOut ( chunklist, chunks )`, and what `decay` counts after it. -/
def decayOut (takes : Nat → Option Taken) (chunklist : List Nat) : State :=
  { s with
    chunk := fun id =>
      match if id ∈ chunklist then takes id else none with
      | some taken => { s.chunk id with status := taken.status }
      | none => s.chunk id
    memoryUsed := s.memoryUsed - s.sizes (chunklist.filter fun id => takes id = some .swapped)
    preemptiveBytes := s.preemptiveBytes - s.sizes chunklist }

/-- The surgery of `decay`; `none` where it goes on from a node that is not on the ring. -/
def decayReorder (start cur active : Nat) : Option State :=
  let before := s.links.prev start
  (filterChain s.separateThis 0 s.memChunks.card s.links start cur).bind fun r =>
    let first := r.1.next before
    if first = 0 then none
    else
      some { s with
        links := insertBefore r.1 first r.2.2
        preemptiveStart := if first = active then none else some first }

/-- `decay ( bytes )`; `none` where it throws. -/
def decay (takes : Nat → Option Taken) (freeSwap bytes : Nat) : Option State :=
  match s.preemptiveStart, s.active with
  | some start, some active =>
      let l : DecayLimits := ⟨s.preemptiveBytes.toNat, bytes, freeSwap⟩
      (decayCount l active (s.memChunks.card + 1) s start .start).bind fun (t, cur, _) =>
        if cur = start then some t
        else
          (t.decayFill l cur (t.memChunks.card + 1) start 0 []).bind fun chunklist =>
            if t.sizes (chunklist.filter fun id => (takes id).isSome) = t.sizes chunklist then
              let u := t.decayOut takes chunklist
              if s.consecutive l active (s.memChunks.card + 1) start 0 then
                some { u with preemptiveStart := if cur = active then none else some cur }
              else u.decayReorder start cur active
            else none
  | _, _ => some s

end State

/-- The preemptive section of the ring `L`: the chunks `S` from `preemptiveStart` up to `active` are
those that are counted as preemptively loaded. -/
structure Section (s : State) (L S : List Nat) : Prop where
  start : s.preemptiveStart = S.head?
  ring : ∃ a O, s.active = some a ∧ (S ++ a :: O).IsRotated L
  loaded : ∀ x, s.preemptiveLoaded x = true ↔ x ∈ S
  bytes : s.preemptiveBytes = s.sizes S
  inRam : ∀ x ∈ S, s.separateThis x = false

variable {s t : State} {L S : List Nat} {l : DecayLimits} {active start : Nat}

/-! ### The walk along the section -/

theorem goes_of_path {k : Links Nat} {a z : Nat} {w : List Nat} (path : Path k (a :: w ++ [z])) :
    Goes k.next a (a :: w) z := by
  induction w generalizing a with
  | nil => exact ⟨rfl, (path_cons_cons.mp path).1.1⟩
  | cons b w ih =>
      obtain ⟨joined, rest⟩ := path_cons_cons.mp path
      refine ⟨rfl, ?_⟩
      rw [joined.1]
      exact ih rest

theorem ring_of_isRotated {k : Links Nat} {l l' : List Nat} (ring : Ring k l)
    (same : l'.IsRotated l) : Ring k l' := by
  obtain ⟨n, rfl⟩ := same.symm
  rw [List.rotate_eq_drop_append_take_mod]
  apply Ring.rotate
  rw [List.take_append_drop]
  exact ring

/-- The walk of `decay` is the section. -/
theorem Section.preemptives (isSection : Section s L S) (wf : WellFormed s L)
    (isStart : s.preemptiveStart = some start) (isActive : s.active = some active) :
    s.preemptives start active = S ∧ Reaches s.links.next active s.memChunks.card start := by
  obtain ⟨a, O, isA, rotated⟩ := isSection.ring
  cases isActive.symm.trans isA
  have head := isSection.start.symm.trans isStart
  obtain ⟨w, rfl⟩ := List.head?_eq_some_iff.mp head
  have ring := ring_of_isRotated wf.ring rotated
  have memStart : start ∈ L := rotated.mem_iff.mp (by simp)
  have memActive : active ∈ L := rotated.mem_iff.mp (by simp)
  have reaches := wf.ring.reaches_next memStart memActive
  rw [wf.length] at reaches
  obtain ⟨goes, out, _⟩ := preemptives_goes reaches
  have path : Path s.links (start :: w ++ [active]) := by
    have whole : Path s.links ((start :: w ++ [active]) ++ (O ++ [start])) := by
      simpa using ring.path
    exact whole.left
  have out' : active ∉ start :: w := by
    have nodup := ring.nodup
    intro mem
    exact (List.nodup_append.mp nodup).2.2 active mem active List.mem_cons_self rfl
  exact ⟨goes.unique (goes_of_path path) out out', reaches⟩

/-- The chunks `p` are no longer counted as preemptively loaded. -/
def unflagged (flags : Nat → Bool) (p : List Nat) : Nat → Bool :=
  fun x => if x ∈ p then false else flags x

@[simp] theorem unflagged_nil (flags : Nat → Bool) : unflagged flags [] = flags := by
  funext x
  simp [unflagged]

/-- After the first loop: the chunks `p` are to be swapped out. -/
def State.unmarked (s : State) (p : List Nat) : State :=
  { s with preemptiveLoaded := unflagged s.preemptiveLoaded p }

theorem unflagged_cons (flags : Nat → Bool) (id : Nat) (p : List Nat) :
    unflagged (Function.update flags id false) p = unflagged flags (id :: p) := by
  funext x
  unfold unflagged
  by_cases here : x = id
  · simp [here]
  · simp [here]

/-- The first loop passes the nodes `v` of the section; it has skipped none of them when
`consecutive` is still set. -/
theorem decayCount_walk (s : State) (l : DecayLimits) {active : Nat} : ∀ (w : List Nat)
    {cur fuel : Nat} {c : Counted} (flags : Nat → Bool),
    Goes s.links.next cur w active → active ∉ w → w.length < fuel →
    ∃ stop v u, w = v ++ u ∧ Goes s.links.next cur v stop ∧ Goes s.links.next stop u active ∧
      s.decayPicks l c.bytes v = s.decayPicks l c.bytes w ∧
      s.consecutive l active fuel cur c.bytes = decide (s.decayPicks l c.bytes v = v) ∧
      State.decayCount l active fuel { s with preemptiveLoaded := flags } cur c =
        some ({ s with preemptiveLoaded := unflagged flags (s.decayPicks l c.bytes w) }, stop,
          c.addAll s (s.decayPicks l c.bytes w)) := by
  intro w
  induction w with
  | nil =>
      intro cur fuel c flags goes _ enough
      obtain ⟨fuel, rfl⟩ := Nat.exists_eq_succ_of_ne_zero (Nat.ne_zero_of_lt enough)
      have here : cur = active := goes
      refine ⟨cur, [], [], rfl, rfl, goes, rfl, ?_, ?_⟩
      · simp [State.consecutive, here, State.decayPicks]
      · simp [State.decayCount, here, State.decayPicks]
  | cons x w ih =>
      intro cur fuel c flags goes out enough
      obtain ⟨fuel, rfl⟩ := Nat.exists_eq_succ_of_ne_zero (Nat.ne_zero_of_lt enough)
      obtain ⟨rfl, goes⟩ := goes
      simp only [List.mem_cons, not_or] at out
      have enough' : w.length < fuel := Nat.lt_of_succ_lt_succ enough
      have ne : cur ≠ active := fun eq => out.1 eq.symm
      by_cases more : c.bytes < l.target
      · by_cases selects : l.selects c.bytes (s.chunk cur) = true
        · -- the chunk is taken
          obtain ⟨stop, v, u, rfl, first, second, same, all, is⟩ :=
            ih (c := c.add cur (s.chunk cur).size) (Function.update flags cur false) goes out.2
              enough'
          refine ⟨stop, cur :: v, u, rfl, ⟨rfl, first⟩, second, ?_, ?_, ?_⟩
          · simp only [State.decayPicks, if_pos more, if_pos selects]
            exact congrArg (cur :: ·) same
          · simp only [State.consecutive, if_pos (And.intro ne more), State.decayPicks,
              if_pos more, if_pos selects]
            refine all.trans (decide_eq_decide.mpr ?_)
            simp only [List.cons.injEq, true_and]
            rfl
          · simp only [State.decayCount, State.decayPicks, if_pos (And.intro ne more),
              if_pos more, if_pos selects]
            rw [Counted.add_addAll, unflagged_cons] at is
            exact is
        · -- the chunk is skipped
          obtain ⟨stop, v, u, rfl, first, second, same, _, is⟩ := ih flags goes out.2 enough'
          refine ⟨stop, cur :: v, u, rfl, ⟨rfl, first⟩, second, ?_, ?_, ?_⟩
          · simp only [State.decayPicks, if_pos more, if_neg selects]
            exact same
          · simp only [State.consecutive, if_pos (And.intro ne more), State.decayPicks,
              if_pos more, if_neg selects]
            symm
            apply decide_eq_false
            intro taken
            have short := ((decayPicks_sublist s l v c.bytes).trans List.filter_sublist).length_le
            simp [taken] at short
          · simp only [State.decayCount, State.decayPicks, if_pos (And.intro ne more),
              if_pos more, if_neg selects]
            exact is
      · refine ⟨cur, [], cur :: w, rfl, rfl, ⟨rfl, goes⟩, ?_, ?_, ?_⟩
        · simp [State.decayPicks, more]
        · simp [State.consecutive, more, State.decayPicks]
        · simp [State.decayCount, more, State.decayPicks]

/-! ### The chunks that are swapped out -/

variable {takes : Nat → Option Taken} {p : List Nat}

theorem decayOut_others (s : State) {x : Nat} (out : x ∉ p) :
    (s.decayOut takes p).chunk x = s.chunk x := by
  simp [State.decayOut, out]

theorem decayOut_taken (s : State) {x : Nat} {taken : Taken} (mem : x ∈ p)
    (isTaken : takes x = some taken) : (s.decayOut takes p).status x = taken.status := by
  simp [State.decayOut, Cyclic.State.status, mem, isTaken]

theorem decayOut_size (s : State) (x : Nat) :
    ((s.decayOut takes p).chunk x).size = (s.chunk x).size := by
  simp only [State.decayOut]
  split
  · rfl
  · rfl

/-- The swap has taken the whole list: its chunks are out of RAM, the others as they were. -/
theorem decayOut_separateThis (s : State) (all : ∀ x ∈ p, (takes x).isSome = true) (x : Nat) :
    (s.decayOut takes p).separateThis x = (decide (x ∈ p) || s.separateThis x) := by
  by_cases mem : x ∈ p
  · obtain ⟨taken, isTaken⟩ := Option.isSome_iff_exists.mp (all x mem)
    have status := decayOut_taken s mem isTaken
    cases taken <;> simp [Cyclic.State.separateThis, status, Taken.status, mem]
  · have same : (s.decayOut takes p).separateThis x = s.separateThis x := by
      unfold Cyclic.State.separateThis Cyclic.State.status
      rw [decayOut_others s mem]
    simp [same, mem]

/-! ### The surgery -/

/-- The ring `v ++ cur :: rest` is turned: what the filter cuts out of `v` and `cur` goes before the
section. -/
theorem decayReorder_spec (active : Nat) {v rest : List Nat} {start cur : Nat}
    (ring : Ring s.links (v ++ cur :: rest)) (isStart : v.head? = some start)
    (real : 0 ∉ v ++ cur :: rest) (enough : (v ++ cur :: rest).length ≤ s.memChunks.card)
    (stays : rest = [] → s.separateThis cur = false) :
    ∃ k' h B, (v ++ [cur]).filter (fun x => !s.separateThis x) ++ rest = h :: B ∧
      s.decayReorder start cur active = some { s with
        links := k', preemptiveStart := if h = active then none else some h } ∧
      Ring k' ((v ++ [cur]).filter s.separateThis ++ h :: B) := by
  obtain ⟨w, rfl⟩ := List.head?_eq_some_iff.mp isStart
  have whole : Ring s.links ((start :: w ++ [cur]) ++ rest) := by simpa using ring
  have ending : ends (start :: w ++ [cur]) = some (start, cur) :=
    ends_eq_some.mpr ⟨rfl, List.getLast?_concat⟩
  have out : 0 ∉ (start :: w ++ [cur]) ++ rest := by simpa using real
  have fuel : (start :: w ++ [cur]).length ≤ s.memChunks.card := by
    simp only [List.length_append, List.length_cons] at enough ⊢
    simp only [List.length_nil]
    omega
  obtain ⟨k, filtered, ring', path⟩ := filterChain_spec s.separateThis whole ending out fuel
  generalize isArc : start :: w ++ [cur] = arc at *
  -- the node before the section is the last one of what is left
  have last : (arc.filter (fun x => !s.separateThis x) ++ rest).getLast? =
      some (s.links.prev start) := by
    have turned : Ring s.links ([] ++ start :: (w ++ [cur] ++ rest)) := by
      rw [← isArc] at whole
      simpa using whole
    cases rest with
    | nil =>
        have before : s.links.prev start = cur := turned.prev_eq (by simp)
        rw [before, ← isArc, List.filter_append]
        simp [stays rfl]
    | cons y rest =>
        obtain ⟨init, z, isRest⟩ := exists_concat (List.cons_ne_nil y rest)
        rw [isRest] at turned ⊢
        have before : s.links.prev start = z := by
          apply turned.prev_eq
          rw [List.append_nil, ← List.append_assoc, List.getLast?_concat]
        rw [before, ← List.append_assoc, List.getLast?_concat]
  obtain ⟨h, B, isB⟩ : ∃ h B, arc.filter (fun x => !s.separateThis x) ++ rest = h :: B := by
    cases is : arc.filter (fun x => !s.separateThis x) ++ rest with
    | nil =>
        rw [is] at last
        cases last
    | cons h B => exact ⟨h, B, rfl⟩
  have same : (arc.filter s.separateThis ++ h :: B).Perm (arc ++ rest) := by
    rw [← isB, ← List.append_assoc]
    exact (List.filter_append_perm s.separateThis arc).append_right rest
  rw [isB] at ring' last
  obtain ⟨init, isInit⟩ := List.getLast?_eq_some_iff.mp last
  have next : k.next (s.links.prev start) = h := (ring'.joined_last isInit).1
  have notZero : h ≠ 0 := by
    rintro rfl
    exact out (same.subset (by simp))
  refine ⟨_, h, B, isB, ?_, insertBefore_spec ring' path (same.nodup_iff.mpr whole.nodup)⟩
  simp only [State.decayReorder, filtered, Option.bind_some, next, if_neg notZero]

/-! ### What `decay` does -/

/-- What the swap makes of the chunks `p`, which `decay` has picked from the section. -/
structure Unloads (s t : State) (L p : List Nat) : Prop where
  nodup : p.Nodup
  evicted : ∀ x ∈ p, x ∈ L ∧ s.status x = .allocated ∧ (s.chunk x).useCnt = 0 ∧
    (t.status x = .swapped ∨ t.status x = .swapout)
  others : ∀ x, x ∉ p → t.chunk x = s.chunk x

theorem Section.unloads (isSection : Section s L S) (wf : WellFormed s L) {b : Nat}
    (isP : s.decayPicks l b S = p) (all : ∀ x ∈ p, (takes x).isSome = true)
    (chunks : t.chunk = (s.decayOut takes p).chunk) : Unloads s t L p := by
  have sub := decayPicks_sublist s l S b
  rw [isP] at sub
  obtain ⟨a, O, _, rotated⟩ := isSection.ring
  have nodup : S.Nodup := by
    have whole := rotated.nodup_iff.mpr wf.ring.nodup
    exact (List.nodup_append.mp whole).1
  constructor
  case nodup => exact (nodup.filter _).sublist sub
  case evicted =>
    intro x mem
    obtain ⟨inS, eligible⟩ := List.mem_filter.mp (sub.subset mem)
    simp only [Cyclic.State.eligible, decide_eq_true_eq] at eligible
    obtain ⟨taken, isTaken⟩ := Option.isSome_iff_exists.mp (all x mem)
    have status : t.status x = taken.status := by
      unfold Cyclic.State.status
      rw [chunks]
      exact decayOut_taken s mem isTaken
    refine ⟨rotated.mem_iff.mp (List.mem_append_left _ inS), eligible.1, eligible.2, ?_⟩
    cases taken
    · exact .inl status
    · exact .inr status
  case others =>
    intro x out
    rw [chunks]
    exact decayOut_others s out

/-- The section after `decay`, whatever has become of the links. -/
theorem Section.without (isSection : Section s L S) {L' O : List Nat} {a : Nat}
    (sub : ∀ x ∈ p, x ∈ S) (nodup : p.Nodup) (nodupS : S.Nodup) (isActive : t.active = some a)
    (start : t.preemptiveStart = (S.filter fun x => x ∉ p).head?)
    (rotated : ((S.filter fun x => x ∉ p) ++ a :: O).IsRotated L')
    (loaded : t.preemptiveLoaded = unflagged s.preemptiveLoaded p)
    (bytes : t.preemptiveBytes = s.preemptiveBytes - s.sizes p)
    (others : ∀ x, x ∉ p → t.chunk x = s.chunk x)
    (sizes : ∀ x, (t.chunk x).size = (s.chunk x).size) :
    Section t L' (S.filter fun x => x ∉ p) where
  start := start
  ring := ⟨a, O, isActive, rotated⟩
  loaded := by
    intro x
    rw [loaded, List.mem_filter]
    unfold unflagged
    by_cases mem : x ∈ p
    · simp [mem]
    · simp [mem, isSection.loaded x]
  bytes := by
    have all : s.sizes S = s.sizes p + s.sizes (S.filter fun x => x ∉ p) := by
      have perm : (p ++ S.filter fun x => x ∉ p).Perm S := by
        have same : (S.filter fun x => x ∈ p).Perm p :=
          (List.perm_ext_iff_of_nodup (nodupS.filter _) nodup).mpr fun x => by
            simp only [List.mem_filter, decide_eq_true_eq]
            exact ⟨fun both => both.2, fun mem => ⟨sub x mem, mem⟩⟩
        have parts := List.filter_append_perm (fun x => decide (x ∈ p)) S
        simp only [← decide_not] at parts
        exact (same.symm.append_right _).trans parts
      have sum := (perm.map fun id => (s.chunk id).size).sum_eq
      simp only [State.sizes, ← sum, List.map_append, List.sum_append]
    have same : t.sizes (S.filter fun x => x ∉ p) = s.sizes (S.filter fun x => x ∉ p) := by
      unfold State.sizes
      congr 1
      apply List.map_congr_left
      intro x _
      exact sizes x
    rw [bytes, isSection.bytes, same, all]
    omega
  inRam := by
    intro x mem
    obtain ⟨inS, out⟩ := List.mem_filter.mp mem
    have before := isSection.inRam x inS
    unfold Cyclic.State.separateThis Cyclic.State.status at before ⊢
    rw [others x (of_decide_eq_true out)]
    exact before

/-- Where the first loop of `decay` stops: it has walked over `v`, `u` is left of the section. -/
structure Walked (s : State) (L S p v u O : List Nat) (start stop active : Nat) : Prop where
  isSection : Section s L S
  isActive : s.active = some active
  rotated : (S ++ active :: O).IsRotated L
  isS : S = v ++ u
  first : Goes s.links.next start v stop
  second : Goes s.links.next stop u active
  out : active ∉ S
  picked : p.Sublist v

section Walked

variable {v u O : List Nat} {stop : Nat}

theorem Walked.nodup (walked : Walked s L S p v u O start stop active) (wf : WellFormed s L) :
    S.Nodup := by
  have whole := walked.rotated.nodup_iff.mpr wf.ring.nodup
  exact (List.nodup_append.mp whole).1

theorem Walked.sub (walked : Walked s L S p v u O start stop active) : ∀ x ∈ p, x ∈ S := by
  intro x mem
  rw [walked.isS]
  exact List.mem_append_left u (walked.picked.subset mem)

theorem Walked.stop_not_mem (walked : Walked s L S p v u O start stop active) : stop ∉ v := by
  have out := walked.out
  rw [walked.isS] at out
  exact walked.first.not_mem walked.second out

/-- The section without the chunks that are swapped out. -/
theorem Walked.filter (walked : Walked s L S p v u O start stop active) (wf : WellFormed s L) :
    (S.filter fun x => x ∉ p) = v.filter (fun x => x ∉ p) ++ u := by
  have nodup := walked.nodup wf
  rw [walked.isS] at nodup
  have keep : (u.filter fun x => x ∉ p) = u := by
    apply List.filter_eq_self.mpr
    intro x memU
    apply decide_eq_true
    intro memP
    exact (List.nodup_append.mp nodup).2.2 x (walked.picked.subset memP) x memU rfl
  rw [walked.isS, List.filter_append, keep]

/-- The node that is stopped at is the first one that is left of the section, or `active`. -/
theorem Walked.stops (walked : Walked s L S p v u O start stop active) :
    (if stop = active then none else some stop) = u.head? ∧
      ∃ rest, u ++ active :: O = stop :: rest := by
  have second := walked.second
  cases isU : u with
  | nil =>
      rw [isU] at second
      have here : stop = active := second
      rw [if_pos here, here]
      exact ⟨rfl, O, rfl⟩
  | cons x u' =>
      rw [isU] at second
      obtain ⟨rfl, _⟩ := second
      have ne : stop ≠ active := by
        rintro rfl
        apply walked.out
        simp [walked.isS, isU]
      rw [if_neg ne]
      exact ⟨rfl, u' ++ active :: O, rfl⟩

/-- The node that is stopped at stays in RAM. -/
theorem Walked.stop_inRam (walked : Walked s L S p v u O start stop active)
    (inRam : s.separateThis active = false) : s.separateThis stop = false := by
  have second := walked.second
  cases isU : u with
  | nil =>
      rw [isU] at second
      have here : stop = active := second
      rw [here]
      exact inRam
  | cons x u' =>
      rw [isU] at second
      obtain ⟨rfl, _⟩ := second
      apply walked.isSection.inRam
      simp [walked.isS, isU]

/-- Nothing has been walked over. -/
theorem Walked.idle (walked : Walked s L S p v u O start stop active) (here : stop = start) :
    p = [] := by
  have empty : v = [] := by
    have first := walked.first
    have out := walked.stop_not_mem
    cases v with
    | nil => rfl
    | cons x v =>
        obtain ⟨rfl, _⟩ := first
        rw [here] at out
        exact absurd List.mem_cons_self out
  have picked := walked.picked
  rw [empty] at picked
  exact List.sublist_nil.mp picked

/-- All that has been walked over is swapped out: the section starts where the walk has stopped. -/
theorem Walked.whole (walked : Walked s L S p v u O start stop active) (wf : WellFormed s L)
    (unloads : Unloads s t L p) (whole : p = v)
    (isT : t = { (s.unmarked p).decayOut takes p with
      preemptiveStart := if stop = active then none else some stop }) :
    Result s t L p L ∧ Section t L (S.filter fun x => x ∉ p) := by
  have ends : WellFormed t L := by
    rw [isT]
    exact ⟨wf.ring, wf.mem, wf.active, wf.counter, wf.real⟩
  have rest : (S.filter fun x => x ∉ p) = u := by
    have empty : (v.filter fun x => x ∉ p) = [] := by
      apply List.filter_eq_nil_iff.mpr
      intro x mem
      simp [whole, mem]
    rw [walked.filter wf, empty, List.nil_append]
  have start' : t.preemptiveStart = (S.filter fun x => x ∉ p).head? := by
    rw [isT, rest, ← walked.stops.1]
  have turned : ((S.filter fun x => x ∉ p) ++ active :: (O ++ v)).IsRotated L := by
    have rotated := walked.rotated
    rw [walked.isS, List.append_assoc] at rotated
    rw [rest]
    have shift : (u ++ active :: O ++ v).IsRotated (v ++ (u ++ active :: O)) :=
      List.isRotated_append
    refine List.IsRotated.trans ?_ rotated
    simpa using shift
  constructor
  · exact ⟨unloads.nodup, unloads.evicted, unloads.others, ends, .refl L, .refl _, .refl _⟩
  · apply walked.isSection.without walked.sub unloads.nodup (walked.nodup wf) _ start' turned _ _
      unloads.others
    · intro x
      rw [isT]
      exact decayOut_size _ x
    · rw [isT]
      exact walked.isActive
    · rw [isT]
      rfl
    · rw [isT]
      rfl

/-- Some have been skipped: those that are swapped out go before the section. -/
theorem Walked.skipped (walked : Walked s L S p v u O start stop active) (wf : WellFormed s L)
    (inRam : s.separateThis active = false) (all : ∀ x ∈ p, (takes x).isSome = true)
    (moved : stop ≠ start) (out : State)
    (isOut : out = (s.unmarked p).decayOut takes p) (unloads : Unloads s out L p) :
    ∃ t L', out.decayReorder start stop active = some t ∧ Result s t L p L' ∧
      Section t L' (S.filter fun x => x ∉ p) := by
  obtain ⟨rest, isRest⟩ := walked.stops.2
  have around : v ++ stop :: rest = S ++ active :: O := by
    rw [walked.isS, List.append_assoc, isRest]
  have turned : (v ++ stop :: rest).IsRotated L := around ▸ walked.rotated
  have stopRam := walked.stop_inRam inRam
  have stopOut : stop ∉ p := fun mem => walked.stop_not_mem (walked.picked.subset mem)
  have separate : ∀ x, out.separateThis x = (decide (x ∈ p) || s.separateThis x) := by
    intro x
    rw [isOut]
    exact decayOut_separateThis _ all x
  have head : v.head? = some start := by
    have first := walked.first
    cases v with
    | nil => exact absurd first.symm moved
    | cons x v =>
        obtain ⟨rfl, _⟩ := first
        rfl
  have links : out.links = s.links := by rw [isOut]; rfl
  have card : out.memChunks = s.memChunks := by rw [isOut]; rfl
  have ring : Ring out.links (v ++ stop :: rest) := by
    rw [links]
    exact ring_of_isRotated wf.ring turned
  obtain ⟨k', h, B, isB, reordered, ring'⟩ := decayReorder_spec active ring head
    (fun mem => wf.real (turned.mem_iff.mp mem))
    (by rw [card, ← wf.length, turned.perm.length_eq])
    (fun _ => by simp [separate, stopOut, stopRam])
  -- what is left of the ring starts with what is left of the section
  have section' : h :: B = (S.filter fun x => x ∉ p) ++ active :: O := by
    have keepV : v.filter (fun x => !out.separateThis x) = v.filter fun x => x ∉ p := by
      apply List.filter_congr
      intro x mem
      have memS : x ∈ S := walked.isS ▸ List.mem_append_left u mem
      simp [separate, walked.isSection.inRam x memS]
    have keepStop : [stop].filter (fun x => !out.separateThis x) = [stop] := by
      simp [separate, stopOut, stopRam]
    rw [← isB, List.filter_append, keepV, keepStop, walked.filter wf, List.append_assoc,
      List.append_assoc, isRest]
    rfl
  have start' : (if h = active then none else some h) = (S.filter fun x => x ∉ p).head? := by
    cases remains : S.filter fun x => x ∉ p with
    | nil =>
        rw [remains, List.nil_append] at section'
        rw [if_pos (List.cons.inj section').1]
        rfl
    | cons x S' =>
        rw [remains, List.cons_append] at section'
        have memX : x ∈ S := by
          have mem : x ∈ S.filter fun x => x ∉ p := remains ▸ List.mem_cons_self
          exact (List.mem_filter.mp mem).1
        have ne : h ≠ active := by
          rw [(List.cons.inj section').1]
          rintro rfl
          exact walked.out memX
        rw [if_neg ne, (List.cons.inj section').1]
        rfl
  rw [← isB] at ring'
  rw [← List.concat_append] at turned
  simp only [List.concat_eq_append] at turned
  generalize isArc : v ++ [stop] = arc at *
  generalize isL' : arc.filter out.separateThis ++
    (arc.filter (fun x => !out.separateThis x) ++ rest) = L' at ring'
  have perm : L'.Perm (arc ++ rest) := by
    rw [← isL', ← List.append_assoc]
    exact (List.filter_append_perm out.separateThis arc).append_right rest
  have mems : ∀ x, x ∈ L' ↔ x ∈ L := fun x => perm.mem_iff.trans turned.mem_iff
  obtain ⟨c, memC, isCounter⟩ := wf.counter
  refine ⟨_, L', reordered, ?_, ?_⟩
  · constructor
    case nodup => exact unloads.nodup
    case evicted => exact unloads.evicted
    case others => exact unloads.others
    case wellFormed =>
      constructor
      case ring => exact ring'
      case mem =>
        intro x
        exact (mems x).trans ((wf.mem x).trans (by rw [card]))
      case active =>
        refine ⟨active, (mems active).mpr (walked.rotated.mem_iff.mp (by simp)), ?_⟩
        rw [isOut]
        exact walked.isActive
      case counter =>
        refine ⟨c, (mems c).mpr memC, ?_⟩
        rw [isOut]
        exact isCounter
      case real => exact fun mem => wf.real ((mems 0).mp mem)
    case same => exact perm.trans turned.perm
    case kept =>
      have order : (L'.filter fun x => !out.separateThis x) =
          (arc ++ rest).filter fun x => !out.separateThis x := by
        rw [← isL']
        simp [List.filter_append, List.filter_filter]
      exact order ▸ isRotated_filter turned _
    case stored =>
      have order : L'.filter out.separateThis = (arc ++ rest).filter out.separateThis := by
        rw [← isL']
        simp [List.filter_append, List.filter_filter]
      exact order ▸ isRotated_filter turned _
  · have shift : ((S.filter fun x => x ∉ p) ++ active :: (O ++ arc.filter
        out.separateThis)).IsRotated L' := by
      have both : ((S.filter fun x => x ∉ p) ++ active :: O ++ arc.filter
          out.separateThis).IsRotated (arc.filter out.separateThis ++
            ((S.filter fun x => x ∉ p) ++ active :: O)) := List.isRotated_append
      rw [← isL', isB, section']
      simpa using both
    refine walked.isSection.without walked.sub unloads.nodup (walked.nodup wf) (a := active) ?_
      start' shift ?_ ?_ unloads.others ?_
    · rw [isOut]
      exact walked.isActive
    · rw [isOut]
      rfl
    · rw [isOut]
      rfl
    · intro x
      rw [isOut]
      exact decayOut_size _ x

end Walked

/-- `decay` is its walk, and then one of three ends. -/
theorem decay_walked (wf : WellFormed s L) (isSection : Section s L S) (freeSwap bytes : Nat)
    (isP : s.decayPicks ⟨s.preemptiveBytes.toNat, bytes, freeSwap⟩ 0 S = p)
    (all : ∀ x ∈ p, (takes x).isSome = true) (isStart : s.preemptiveStart = some start) :
    ∃ v u O stop active, Walked s L S p v u O start stop active ∧
      s.decay takes freeSwap bytes =
        if stop = start then some (s.unmarked p)
        else if p = v then some { (s.unmarked p).decayOut takes p with
            preemptiveStart := if stop = active then none else some stop }
        else ((s.unmarked p).decayOut takes p).decayReorder start stop active := by
  obtain ⟨active, O, isActive, rotated⟩ := isSection.ring
  obtain ⟨preemptives, reaches⟩ := isSection.preemptives wf isStart isActive
  obtain ⟨goes, out, short⟩ := preemptives_goes reaches
  rw [preemptives] at goes out short
  generalize isL : DecayLimits.mk s.preemptiveBytes.toNat bytes freeSwap = l at isP
  obtain ⟨stop, v, u, isS, first, second, same, consecutive, count⟩ :=
    decayCount_walk s l S (c := .start) s.preemptiveLoaded goes out (Nat.lt_succ_of_le short)
  have zero : Counted.start.bytes = 0 := rfl
  rw [zero, isP] at same count
  rw [zero, same] at consecutive
  have picked : p.Sublist v := by
    have sub := (decayPicks_sublist s l v 0).trans List.filter_sublist
    rw [same] at sub
    exact sub
  have walked : Walked s L S p v u O start stop active :=
    ⟨isSection, isActive, rotated, isS, first, second, out, picked⟩
  have shortV : v.length < s.memChunks.card + 1 := by
    rw [isS, List.length_append] at short
    omega
  have fill : (s.unmarked p).decayFill l stop (s.memChunks.card + 1) start 0 [] =
      some ([] ++ s.decayPicks l 0 v) :=
    decayFill_spec s l _ v [] first walked.stop_not_mem shortV
  rw [same, List.nil_append] at fill
  refine ⟨v, u, O, stop, active, walked, ?_⟩
  have allTaken : p.filter (fun id => (takes id).isSome) = p := List.filter_eq_self.mpr all
  have stays : ({ s with preemptiveLoaded := s.preemptiveLoaded } : State) = s := rfl
  have marks : ({ s with preemptiveLoaded := unflagged s.preemptiveLoaded p } : State) =
      s.unmarked p := rfl
  have card : (s.unmarked p).memChunks = s.memChunks := rfl
  rw [stays, marks] at count
  generalize s.unmarked p = base at count fill card
  simp only [State.decay, isStart, isActive, isL, count, Option.bind_some, card, fill, allTaken,
    if_true, consecutive, decide_eq_true_eq]

/-- `decay` on a ring with a section, in each of its three ends. -/
theorem Section.decay (isSection : Section s L S) (wf : WellFormed s L)
    (inRam : ∀ a, s.active = some a → s.separateThis a = false) (freeSwap bytes : Nat)
    (isP : s.decayPicks ⟨s.preemptiveBytes.toNat, bytes, freeSwap⟩ 0 S = p)
    (all : ∀ x ∈ p, (takes x).isSome = true) :
    ∃ t L', s.decay takes freeSwap bytes = some t ∧ Result s t L p L' ∧
      Section t L' (S.filter fun x => x ∉ p) := by
  cases isStart : s.preemptiveStart with
  | none =>
      have empty : S = [] := by
        have start := isSection.start.symm.trans isStart
        exact List.head?_eq_none_iff.mp start
      subst empty
      cases isP
      refine ⟨s, L, ?_, Result.refl wf, isSection⟩
      simp only [State.decay, isStart]
  | some start =>
      obtain ⟨v, u, O, stop, active, walked, is⟩ := decay_walked wf isSection freeSwap bytes isP all
        isStart
      rw [is]
      by_cases here : stop = start
      · have nothing := walked.idle here
        subst nothing
        refine ⟨s, L, ?_, Result.refl wf, ?_⟩
        · simp only [if_pos here, State.unmarked, unflagged_nil]
        · simpa using isSection
      · simp only [if_neg here]
        by_cases whole : p = v
        · simp only [if_pos whole]
          generalize isT : State.mk _ _ _ _ = t
          have unloads : Unloads s t L p := isSection.unloads wf isP all (by rw [← isT]; rfl)
          exact ⟨t, L, rfl, walked.whole wf unloads whole isT.symm⟩
        · simp only [if_neg whole]
          generalize isOut : State.decayOut _ takes p = out
          have unloads : Unloads s out L p := isSection.unloads wf isP all (by rw [← isOut]; rfl)
          exact walked.skipped wf (inRam active walked.isActive) all here out isOut.symm unloads

theorem decayReorder_pointers {start cur active : Nat}
    (is : s.decayReorder start cur active = some t) :
    t.active = s.active ∧ t.counterActive = s.counterActive ∧ t.memIDPace = s.memIDPace := by
  obtain ⟨r, _, rest⟩ := Option.bind_eq_some_iff.mp is
  by_cases off : r.1.next (s.links.prev start) = 0
  · simp only [off, if_true, reduceCtorEq] at rest
  · simp only [off, if_false, Option.some.injEq] at rest
    rw [← rest]
    exact ⟨rfl, rfl, rfl⟩

/-- `decay` moves neither pointer. -/
theorem Section.decay_pointers (isSection : Section s L S) (wf : WellFormed s L)
    {freeSwap bytes : Nat}
    (isP : s.decayPicks ⟨s.preemptiveBytes.toNat, bytes, freeSwap⟩ 0 S = p)
    (all : ∀ x ∈ p, (takes x).isSome = true) (is : s.decay takes freeSwap bytes = some t) :
    t.active = s.active ∧ t.counterActive = s.counterActive ∧ t.memIDPace = s.memIDPace := by
  cases isStart : s.preemptiveStart with
  | none =>
      simp only [State.decay, isStart] at is
      cases is
      exact ⟨rfl, rfl, rfl⟩
  | some start =>
      obtain ⟨v, u, O, stop, active, _, decayed⟩ := decay_walked wf isSection freeSwap bytes isP all
        isStart
      rw [decayed] at is
      by_cases here : stop = start
      · rw [if_pos here, Option.some.injEq] at is
        rw [← is]
        exact ⟨rfl, rfl, rfl⟩
      · by_cases whole : p = v
        · rw [if_neg here, if_pos whole, Option.some.injEq] at is
          rw [← is]
          exact ⟨rfl, rfl, rfl⟩
        · rw [if_neg here, if_neg whole] at is
          have pointers := decayReorder_pointers is
          exact pointers

/-- What is picked stays below the limit. -/
theorem decayPicks_room (s : State) (l : DecayLimits) : ∀ (w : List Nat) (bytesselected : Nat),
    s.decayPicks l bytesselected w ≠ [] →
      bytesselected + s.sizes (s.decayPicks l bytesselected w) < l.swapleft
  | [], _, nonempty => absurd rfl nonempty
  | id :: w, bytesselected, nonempty => by
      rw [State.decayPicks] at nonempty ⊢
      by_cases more : bytesselected < l.target
      · rw [if_pos more] at nonempty ⊢
        by_cases selects : l.selects bytesselected (s.chunk id) = true
        · rw [if_pos selects, sizes_cons]
          have room : (s.chunk id).size + bytesselected < l.swapleft := by
            simp only [DecayLimits.selects, decide_eq_true_eq] at selects
            exact selects.1
          by_cases last : s.decayPicks l (bytesselected + (s.chunk id).size) w = []
          · rw [last, sizes_nil]
            omega
          · have rest := decayPicks_room s l w _ last
            omega
        · rw [if_neg selects] at nonempty ⊢
          exact decayPicks_room s l w bytesselected nonempty
      · rw [if_neg more] at nonempty
        exact absurd rfl nonempty

/-- `decay` takes the chunks it picks out of the section, no more bytes of them than were counted
and there is free swap for, and leaves the ring and the rest of the section in order. -/
theorem decay_section (wf : WellFormed s L) (isSection : Section s L S)
    (inRam : ∀ a, s.active = some a → s.separateThis a = false) (freeSwap bytes : Nat)
    (isP : s.decayPicks ⟨s.preemptiveBytes.toNat, bytes, freeSwap⟩ 0 S = p)
    (all : ∀ x ∈ p, (takes x).isSome = true) :
    ∃ t L', s.decay takes freeSwap bytes = some t ∧ Result s t L p L' ∧
      Section t L' (S.filter fun x => x ∉ p) ∧ t.active = s.active ∧
      t.counterActive = s.counterActive ∧ s.sizes p ≤ min s.preemptiveBytes.toNat freeSwap := by
  obtain ⟨t, L', is, result, after⟩ := isSection.decay wf inRam freeSwap bytes isP all
  obtain ⟨active, counter, _⟩ := isSection.decay_pointers wf isP all is
  refine ⟨t, L', is, result, after, active, counter, ?_⟩
  by_cases nothing : p = []
  · rw [nothing, sizes_nil]
    exact Nat.zero_le _
  · have room := decayPicks_room s ⟨s.preemptiveBytes.toNat, bytes, freeSwap⟩ S 0 (isP ▸ nothing)
    rw [isP, Nat.zero_add] at room
    exact room.le

/-- The section `1`, `2`, `3` has been loaded for `4`, and `2` is in use. -/
def inUseBetween : State where
  links := ⟨fun x => x % 4 + 1, fun x => if x = 1 then 4 else x - 1⟩
  active := some 4
  counterActive := some 4
  chunk := fun x => ⟨if x = 2 then ⟨.allocatedInuseRead, 1⟩ else .fresh, 1⟩
  memChunks := {1, 2, 3, 4}
  memIDPace := 5
  memoryUsed := 4
  memoryMax := 10
  clock := 0
  lastTouch := fun _ => 0
  preemptiveStart := some 1
  preemptiveLoaded := fun x => x = 1 ∨ x = 2 ∨ x = 3
  preemptiveBytes := 3

theorem wellFormed_inUseBetween : WellFormed inUseBetween [1, 2, 3, 4] where
  ring := ⟨by decide, by simp [Lib.Path, Links.Joined, inUseBetween]⟩
  mem x := by simp [inUseBetween]
  active := ⟨4, by decide, rfl⟩
  counter := ⟨4, by decide, rfl⟩
  real := by decide

theorem section_inUseBetween : Section inUseBetween [1, 2, 3, 4] [1, 2, 3] where
  start := rfl
  ring := ⟨4, [], rfl, .refl _⟩
  loaded x := by simp [inUseBetween]
  bytes := rfl
  inRam := by decide

theorem decay_section_inUseBetween :
    ∃ t L', inUseBetween.decay (fun _ => some .swapped) 10 10 = some t ∧
      Result inUseBetween t [1, 2, 3, 4] [1, 3] L' ∧ Section t L' [2] ∧
      t.active = some 4 ∧ t.counterActive = some 4 ∧ 2 ≤ 3 := by
  have inRam : ∀ a, inUseBetween.active = some a → inUseBetween.separateThis a = false := by
    intro a isActive
    cases isActive
    rfl
  exact decay_section wellFormed_inUseBetween section_inUseBetween inRam 10 10 (by decide)
    (fun _ _ => rfl)

end Rambrain.Eviction
