import Rambrain.SectionSteps

/-!
Runs of the scheduler with preemptive loading.

The events are the calls of `mmalloc`, `mfree`, `setUse` and `unsetUse`, the ends of transfers, and
the scheduler's own `swapOut`, `decay` and `swapIn`. `Keeps` is the condition under which an event
leaves the ring in order: the swap takes what it is given, `swapOut` does not evict the chunk at
`active`, `swapIn` finds what it relies on. `section_kept` says that the ring is in order in every
state reached by a run whose events all meet it.
-/

namespace Rambrain.Eviction

open Lib Cyclic

variable {s t : State} {S O L p : List Nat} {a x : Nat}

/-! ### `swapOut` -/

/-- A ring is read up to one of its nodes in one way. -/
theorem init_of_isRotated {xs ys : List Nat} (rotated : (xs ++ [a]).IsRotated (ys ++ [a]))
    (nodup : (xs ++ [a]).Nodup) : xs = ys := by
  have turned : ∀ l : List Nat, (a :: l).IsRotated (l ++ [a]) := fun _ =>
    List.IsRotated.cons_append_singleton
  exact tail_of_isRotated ((turned xs).trans (rotated.trans (turned ys).symm))
    ((turned xs).nodup_iff.mpr nodup)

/-- What the walk of `swapOut` leaves of the ring, when it does not take `a`: the section without
the chunks it takes, then `a`. -/
theorem left_of_walk {rest arc A P : List Nat} {sep : Nat → Bool}
    (is : rest ++ arc = P ++ S ++ a :: A) (nodup : (rest ++ arc).Nodup) (sub : ∀ x ∈ p, x ∈ arc)
    (stays : sep a = false) (taken : ∀ x ∈ S, sep x = decide (x ∈ p)) :
    ∃ P' A', rest ++ arc.filter (fun x => !sep x) =
        P' ++ (S.filter fun x => x ∉ p) ++ a :: A' := by
  let keep : Nat → Bool := fun x => decide (x ∈ rest) || !sep x
  have apart := (List.nodup_append.mp nodup).2.2
  have whole : rest ++ arc.filter (fun x => !sep x) = (rest ++ arc).filter keep := by
    have first : rest.filter keep = rest :=
      List.filter_eq_self.mpr fun x mem => by simp [keep, mem]
    have second : arc.filter keep = arc.filter fun x => !sep x := by
      apply List.filter_congr
      intro x mem
      have out : x ∉ rest := fun inRest => apart x inRest x mem rfl
      simp [keep, out]
    rw [List.filter_append, first, second]
  have isSection : S.filter keep = S.filter fun x => x ∉ p := by
    apply List.filter_congr
    intro x mem
    by_cases inP : x ∈ p
    · have out : x ∉ rest := fun inRest => apart x inRest x (sub x inP) rfl
      simp [keep, out, taken x mem, inP]
    · simp [keep, taken x mem, inP]
  have front : keep a = true := by simp [keep, stays]
  refine ⟨P.filter keep, A.filter keep, ?_⟩
  rw [whole, is, List.filter_append, List.filter_append, isSection,
    List.filter_cons_of_pos front]

/-- Going back from `active` over preemptively loaded chunks ends at the front of the section. -/
theorem preemptiveFrom_section : ∀ (S : List Nat) {cur fuel : Nat},
    Path t.links (S ++ [cur]) → S.length < fuel → (∀ x ∈ S, t.preemptiveLoaded x = true) →
    t.preemptiveLoaded (t.links.prev (S.head?.getD cur)) = false →
    t.preemptiveFrom fuel cur = some (S.head?.getD cur) := by
  intro S
  induction S using List.reverseRecOn with
  | nil =>
      intro cur fuel _ enough _ stop
      obtain ⟨fuel, rfl⟩ := Nat.exists_eq_succ_of_ne_zero (Nat.ne_zero_of_lt enough)
      simp only [List.head?_nil, Option.getD_none] at stop
      simp [State.preemptiveFrom, stop]
  | append_singleton S y ih =>
      intro cur fuel path enough loaded stop
      obtain ⟨fuel, rfl⟩ := Nat.exists_eq_succ_of_ne_zero (Nat.ne_zero_of_lt enough)
      rw [List.append_assoc] at path
      obtain ⟨before, last⟩ := path_split.mp path
      have prev : t.links.prev cur = y := (path_cons_cons.mp last).1.2
      have head : (S ++ [y]).head?.getD cur = S.head?.getD y := by
        cases S with
        | nil => rfl
        | cons x S => rfl
      have enough' : S.length < fuel := by
        simp only [List.length_append, List.length_singleton] at enough
        omega
      have isLoaded : t.preemptiveLoaded (t.links.prev cur) = true := by
        rw [prev]
        exact loaded y (by simp)
      rw [head] at stop ⊢
      rw [State.preemptiveFrom, if_pos isLoaded, prev]
      exact ih before enough' (fun x mem => loaded x (List.mem_append_left _ mem)) stop

/-- The rare case of `swapOut` finds the front of what is left of the section. -/
theorem resetStart_section {P A : List Nat} (ring : Ring t.links (P ++ S ++ a :: A))
    (isActive : t.active = some a) (enough : S.length < t.memChunks.card)
    (loaded : ∀ x, t.preemptiveLoaded x = true ↔ x ∈ S) :
    t.resetStart = some { t with preemptiveStart := S.head? } := by
  have path : Path t.links (S ++ [a]) := by
    have whole := ring.path.left
    rw [List.append_assoc] at whole
    have tail : S ++ a :: A = S ++ [a] ++ A := by simp
    rw [tail] at whole
    exact whole.right.left
  have nodup := ring.nodup
  have out : a ∉ S := by
    rw [List.append_assoc] at nodup
    intro mem
    have nodup' := (List.nodup_append.mp nodup).2.1
    exact (List.nodup_append.mp nodup').2.2 a mem a List.mem_cons_self rfl
  have stop : t.preemptiveLoaded (t.links.prev (S.head?.getD a)) = false := by
    rw [← Bool.not_eq_true, loaded]
    cases S with
    | nil => exact List.not_mem_nil
    | cons x S =>
        obtain ⟨init, z, isZ⟩ := exists_concat (List.cons_ne_nil a (A ++ P))
        have turned : Ring t.links ((x :: S) ++ (a :: (A ++ P))) := by
          rw [List.append_assoc] at ring
          simpa using ring.rotate
        have prev : t.links.prev x = z := by
          have body : Ring t.links ([] ++ x :: (S ++ init ++ [z])) := by
            rw [isZ] at turned
            simpa using turned
          apply body.prev_eq
          rw [List.append_nil, List.getLast?_concat]
        have memZ : z ∈ a :: (A ++ P) := by
          rw [isZ]
          simp
        simp only [List.head?_cons, Option.getD_some, prev]
        intro inS
        exact (List.nodup_append.mp turned.nodup).2.2 z inS z memZ rfl
  have found := preemptiveFrom_section S path enough (fun x mem => (loaded x).mpr mem) stop
  simp only [State.resetStart, isActive, found, Option.map_some]
  cases S with
  | nil => simp
  | cons x S =>
      have ne : x ≠ a := by
        rintro rfl
        exact out List.mem_cons_self
      simp [ne]

section
variable {rest arc : List Nat} {active counterActive : Nat} {r : Round}
  {takes : Nat → Option Taken}

/-- The second round as the surgery finds it: the ring goes on from `rest` to the arc. -/
theorem Rounds.joints (rounds : Rounds s L p active counterActive rest arc r) :
    ∃ first, ends arc = some (first, counterActive) ∧ s.links.next r.fromPos = first ∧
      s.links.prev first = r.fromPos := by
  obtain ⟨first, tail, arcIs⟩ := List.exists_cons_of_ne_nil
    (show arc ≠ [] by rintro rfl; cases rounds.last)
  have prev : s.links.prev first = r.fromPos := by
    apply rounds.walked.prev_last
    rw [List.getLast?_reverse, arcIs]
    rfl
  refine ⟨first, ends_eq_some.mpr ⟨by rw [arcIs]; rfl, rounds.last⟩, ?_, prev⟩
  rw [← prev]
  exact rounds.ring.next_prev (by rw [arcIs]; simp)

theorem Rounds.taken_eq (rounds : Rounds s L p active counterActive rest arc r)
    (all : ∀ x ∈ p, (takes x).isSome = true) : r.taken takes = p := by
  unfold Round.taken
  rw [rounds.list]
  exact List.filter_eq_self.mpr all

/-- The section, and then `a`, up to `counterActive`. -/
theorem InOrder.walk_end (order : InOrder s S a O)
    (rounds : Rounds s (S ++ a :: O) p active counterActive rest arc r) :
    ∃ P A, rest ++ arc = P ++ S ++ a :: A := by
  obtain ⟨c, memC, isC⟩ := order.counter
  cases isC.symm.trans rounds.isCounter
  obtain ⟨A1, A2, isO⟩ := List.append_of_mem memC
  obtain ⟨arc', isArc⟩ := List.getLast?_eq_some_iff.mp rounds.last
  have rotated := rounds.rotated
  have nodup := rounds.ring.nodup
  rw [isArc, ← List.append_assoc] at rotated nodup
  have turned : (rest ++ arc' ++ [counterActive]).IsRotated
      (A2 ++ S ++ A1 ++ [counterActive]) := by
    refine rotated.trans ?_
    have split : S ++ a :: O = (S ++ A1 ++ [counterActive]) ++ A2 := by
      rw [isO]
      simp
    rw [split]
    have shift : (S ++ A1 ++ [counterActive] ++ A2).IsRotated
        (A2 ++ (S ++ A1 ++ [counterActive])) := List.isRotated_append
    simpa using shift
  have same := init_of_isRotated turned nodup
  -- the part from `a` to `counterActive`
  obtain ⟨A, isA⟩ : ∃ A, A1 ++ [counterActive] = a :: A := by
    cases A1 with
    | nil => exact ⟨[], by rw [(List.cons.inj isO).1]; rfl⟩
    | cons b A1 => exact ⟨A1 ++ [counterActive], by rw [(List.cons.inj isO).1]; rfl⟩
  refine ⟨A2, A, ?_⟩
  rw [isArc, ← List.append_assoc, same, List.append_assoc, isA]

/-- What is evicted from the section is no longer counted. -/
theorem InOrder.sizes_filter (order : InOrder s S a O) (nodup : p.Nodup) :
    s.preemptiveBytes - s.sizes (p.filter s.preemptiveLoaded) =
      s.sizes (S.filter fun x => x ∉ p) := by
  have same : (p.filter s.preemptiveLoaded).Perm (S.filter fun x => x ∈ p) := by
    have nodupS := (List.nodup_append.mp order.nodup).1
    apply (List.perm_ext_iff_of_nodup (nodup.filter _) (nodupS.filter _)).mpr
    intro x
    simp only [List.mem_filter, order.loaded, decide_eq_true_eq]
    exact And.comm
  have parts := List.filter_append_perm (fun x => decide (x ∈ p)) S
  simp only [← decide_not] at parts
  have first := (same.map fun id => (s.chunk id).size).sum_eq
  have second := (parts.map fun id => (s.chunk id).size).sum_eq
  rw [List.map_append, List.sum_append] at second
  have bytes := order.bytes
  unfold State.sizes at bytes ⊢
  rw [bytes, first, ← second]
  push_cast
  omega

/-- `swapOut` evicts chunks of the section and of the rest, but not `a`: the ring stays in order. -/
theorem Rounds.inOrder (order : InOrder s S a O)
    (rounds : Rounds s (S ++ a :: O) p active counterActive rest arc r)
    (all : ∀ x ∈ p, (takes x).isSome = true) (stays : a ∉ p)
    (ram : s.inRam a = true ∨ s.status a = .swapin) {minSize memSwap : Nat} {err : SwapErrorCode}
    (is : s.afterRounds takes minSize memSwap counterActive r = some (err, t)) :
    (t.memChunks = s.memChunks ∧ t.memIDPace = s.memIDPace) ∧
      (∀ x, t.status x = s.status x ∨ t.status x = .swapped ∨ t.status x = .swapout) ∧
      ∃ O', InOrder t (S.filter fun x => x ∉ p) a O' := by
  cases order.active.symm.trans rounds.isActive
  have taken := rounds.taken_eq all
  have atActive : r.active = a := rounds.collected.stays stays
  have nodupRing := rounds.ring.nodup
  have nodupP : p.Nodup := by
    have nodupArc := List.nodup_reverse.mpr (List.nodup_append.mp nodupRing).2.1
    exact nodupArc.sublist rounds.picked
  have inArc : ∀ x ∈ p, x ∈ arc := fun x mem => List.mem_reverse.mp (rounds.picked.subset mem)
  obtain ⟨_, evicted, others⟩ := rounds.statuses (t := s.unload takes r) rfl
  rw [taken] at evicted others
  generalize isU : s.unload takes r = u at evicted others
  have sep : ∀ x, s.separateThis x = false → u.separateThis x = decide (x ∈ p) := by
    intro x inRam
    by_cases mem : x ∈ p
    · have out := (evicted x mem).2.2.2
      simp only [Cyclic.State.separateThis, mem, decide_true, decide_eq_true_eq]
      exact out.symm
    · unfold Cyclic.State.separateThis Cyclic.State.status at inRam ⊢
      rw [others x mem, inRam, decide_eq_false mem]
  have nonempty : arc.filter u.separateThis ≠ [] := by
    obtain ⟨x, mem⟩ : ∃ x, x ∈ p := by
      apply List.exists_mem_of_ne_nil
      intro empty
      apply rounds.bytes
      rw [empty]
      rfl
    refine List.ne_nil_of_mem (List.mem_filter.mpr ⟨inArc x mem, ?_⟩)
    have out := (evicted x mem).2.2.2
    simp only [Cyclic.State.separateThis, decide_eq_true_eq]
    exact out.symm
  obtain ⟨first, arcEnds, next, prev⟩ := rounds.joints
  have mems : ∀ x, x ∈ rest ++ arc ↔ x ∈ S ++ a :: O := fun x => rounds.rotated.mem_iff
  have registered : u.memChunks = s.memChunks := by rw [← isU]; rfl
  have enough : arc.length ≤ u.memChunks.card := by
    rw [registered, ← order.wellFormed.length, ← rounds.rotated.perm.length_eq, List.length_append]
    exact Nat.le_add_left _ _
  have links : u.links = s.links := by rw [← isU]; rfl
  obtain ⟨k', c', reordered, ring', border⟩ := reorder_spec a
    (show Ring u.links (rest ++ (arc ++ [])) by rw [List.append_nil, links]; exact rounds.ring)
    arcEnds (by rw [List.append_nil]; exact fun mem => order.real ((mems 0).mp mem)) enough
    (by rw [links]; exact next) (by rw [links]; exact prev) nonempty
  rw [List.append_nil] at ring'
  obtain ⟨P, A, isWalk⟩ := order.walk_end rounds
  obtain ⟨P', A', isLeft⟩ := left_of_walk isWalk nodupRing inArc
    ((sep a order.resident).trans (decide_eq_false stays))
    (fun x mem => sep x (order.inRam x mem))
  rw [isLeft] at ring' border
  have memCounter : c' ∈ a :: A' := by
    have last := border.resolve_right fun both => by simp at both
    rw [List.getLast?_append_of_ne_nil _ (List.cons_ne_nil a A')] at last
    exact List.mem_of_getLast? last
  have loadedU : ∀ x, u.preemptiveLoaded x = true ↔ x ∈ S.filter fun x => x ∉ p := by
    intro x
    have is : u.preemptiveLoaded x = r.preemptiveLoaded x := by rw [← isU]; rfl
    rw [is, rounds.collected.loaded, Bool.and_eq_true, order.loaded, List.mem_filter]
  have unloadedA : ¬ u.preemptiveLoaded a = true := by
    rw [loadedU]
    exact fun mem => order.apart List.mem_cons_self (List.mem_filter.mp mem).1
  have ramU : u.inRam a = true ∨ u.status a = .swapin := by
    unfold Cyclic.State.inRam Cyclic.State.status at ram ⊢
    rw [others a stays]
    exact ram
  -- the state after the surgery
  let w : State := { u with links := k', counterActive := some c', active := some a }
  have surgery : u.reorder r.fromPos counterActive r.active = some w := by
    rw [atActive, State.reorder, reordered, Option.map_some, if_neg unloadedA]
    simp only [ramU, if_true]
    rfl
  have bytesNe : s.sizes (r.taken takes) ≠ 0 := by
    rw [taken]
    exact rounds.bytes
  simp only [State.afterRounds] at is
  rw [show (r.unloadlist.filter fun id => (takes id).isSome) = r.taken takes from rfl,
    if_neg fun both => bytesNe both.2, isU, surgery, Option.bind_some] at is
  generalize isF : arc.filter u.separateThis = F at ring'
  have turned : Ring w.links (P' ++ (S.filter fun x => x ∉ p) ++ a :: (A' ++ F)) := by
    simpa using ring'
  have inOrder : InOrder { w with preemptiveStart := (S.filter fun x => x ∉ p).head? }
      (S.filter fun x => x ∉ p) a (A' ++ F ++ P') := by
    have perm : ((S.filter fun x => x ∉ p) ++ a :: (A' ++ F ++ P')).Perm (S ++ a :: O) := by
      have parts : (arc.filter u.separateThis ++ arc.filter fun x => !u.separateThis x).Perm arc :=
        List.filter_append_perm u.separateThis arc
      rw [isF] at parts
      have whole := (parts.symm.append_left rest).trans
        (List.perm_append_comm.append_left rest)
      rw [← List.append_assoc, isLeft] at whole
      refine List.Perm.trans ?_ (whole.symm.trans rounds.rotated.perm)
      have shift : (P' ++ ((S.filter fun x => x ∉ p) ++ a :: (A' ++ F))).Perm
          ((S.filter fun x => x ∉ p) ++ a :: (A' ++ F) ++ P') := List.perm_append_comm
      simpa using shift.symm
    constructor
    case ring =>
      rw [List.append_assoc] at turned
      have rotated := turned.rotate
      simpa using rotated
    case mem =>
      intro x
      rw [perm.mem_iff, order.mem, ← registered]
    case real => exact fun mem => order.real (perm.mem_iff.mp mem)
    case active => rfl
    case counter =>
      refine ⟨c', ?_, rfl⟩
      rcases List.mem_cons.mp memCounter with here | mem
      · exact here ▸ List.mem_cons_self
      · exact List.mem_cons_of_mem a (List.mem_append_left P' (List.mem_append_left F mem))
    case start => rfl
    case loaded => exact loadedU
    case bytes =>
      have sizes : u.sizes (S.filter fun x => x ∉ p) = s.sizes (S.filter fun x => x ∉ p) := by
        unfold State.sizes
        congr 1
        apply List.map_congr_left
        intro x mem
        rw [others x (of_decide_eq_true (List.mem_filter.mp mem).2)]
      have bytes := rounds.collected.bytes nodupP
      have start : u.preemptiveBytes = r.preemptiveBytes := by rw [← isU]; rfl
      change u.preemptiveBytes = u.sizes _
      rw [sizes, start, bytes]
      exact order.sizes_filter nodupP
    case inRam =>
      intro x mem
      obtain ⟨inS, out⟩ := List.mem_filter.mp mem
      exact (sep x (order.inRam x inS)).trans (decide_eq_false (of_decide_eq_true out))
    case resident => exact (sep a order.resident).trans (decide_eq_false stays)
  have ending : (if r.resetPreemptiveStart then w.resetStart else some w) =
      some { w with preemptiveStart := (S.filter fun x => x ∉ p).head? } := by
    by_cases reset : r.resetPreemptiveStart = true
    · rw [if_pos reset]
      apply resetStart_section turned rfl _ loadedU
      have card : w.memChunks = s.memChunks := registered
      have short : (S.filter fun x => x ∉ p).length ≤ S.length := List.length_filter_le _ _
      rw [card, ← order.wellFormed.length, List.length_append, List.length_cons]
      omega
    · rw [if_neg reset]
      have start : w.preemptiveStart = (S.filter fun x => x ∉ p).head? := by
        have same : w.preemptiveStart = s.preemptiveStart := by
          have same : w.preemptiveStart = u.preemptiveStart := rfl
          rw [same, ← isU]
          rfl
        rw [same, order.start]
        cases isS : S with
        | nil => rfl
        | cons x S' =>
            have out : x ∉ p := by
              intro mem
              apply reset
              rw [rounds.collected.reset]
              exact .inr ⟨x, mem, by rw [order.start, isS]; rfl⟩
            simp [out]
      rw [← start]
  rw [ending, Option.map_some, Option.some.injEq, Prod.mk.injEq] at is
  rw [← is.2]
  refine ⟨⟨registered, ?_⟩, fun x => ?_, _, inOrder⟩
  · change u.memIDPace = s.memIDPace
    rw [← isU]
    rfl
  · by_cases mem : x ∈ p
    · exact .inr (evicted x mem).2.2.2
    · exact .inl (congrArg (fun c : Chunk => c.status) (others x mem))

end

/-- `swapOut` leaves the ring in order, as long as it does not evict the chunk at `active`. -/
theorem InOrder.swapOut (order : InOrder s S a O) {swap : Swap} {allocMax : Nat → Nat}
    {minSize : Nat} {err : SwapErrorCode}
    (all : ∀ x ∈ s.chosen swap allocMax minSize, (swap.takes x).isSome = true)
    (stays : a ∉ s.chosen swap allocMax minSize) (ram : s.inRam a = true ∨ s.status a = .swapin)
    (is : s.swapOut swap allocMax minSize = some (err, t)) :
    (t.memChunks = s.memChunks ∧ t.memIDPace = s.memIDPace) ∧
      (∀ x, t.status x = s.status x ∨ t.status x = .swapped ∨ t.status x = .swapout) ∧
      ∃ O', InOrder t (S.filter fun x => x ∉ s.chosen swap allocMax minSize) a O' := by
  rcases swapOut_cases order.wellFormed swap allocMax minSize with
    ⟨e, _, nothing, same, _⟩ | ⟨unset, _⟩ |
    ⟨memSwap, active, c, rest, arc, r, _, _, rounds, call, _⟩
  · rw [same, Option.some.injEq, Prod.mk.injEq] at is
    rw [nothing, ← is.2]
    exact ⟨⟨rfl, rfl⟩, fun x => .inl rfl, O, by simpa using order⟩
  · rw [unset] at is
    cases is
  · rw [call] at is
    exact rounds.inOrder order all stays ram is

/-! ### Events -/

inductive Event where
  | mmalloc (size : Nat)
  | mfree (id : Nat)
  | setUse (id : Nat) (writeAccess : Bool)
  /-- `setUse` goes on after it has waited. -/
  | resumeUse (id : Nat) (writeAccess : Bool) (pause : Pause) (swapInResult : Bool)
  | unsetUse (id : Nat) (noUnsets : UInt32)
  /-- The transfer of the chunk is at its end. -/
  | complete (id : Nat)
  | swapOut (swap : Swap) (allocMax : Nat → Nat) (minSize : Nat)
  | decay (takes : Nat → Option Taken) (freeSwap bytes : Nat)
  /-- `swapIn` from the selection on. -/
  | readIn (takes : Nat → Option Arrival)
      (maxPreemptive targetReadinVol oldBorder chunk : Nat)
  | limit (size : Nat)

namespace Scheduler

variable (s : Scheduler)

def setChunk (id : Nat) (c : ManagedMemoryChunk) : Scheduler :=
  { s with toState := s.toState.setChunk id c }

/-- The end of a section of `setUse`. -/
def use (id : Nat) (result : ManagedMemoryChunk × Progress) : Scheduler :=
  let s := s.setChunk id result.1
  if result.2 = .returned true then s.touch id else s

def mmalloc (size : Nat) : Scheduler :=
  let id := s.memIDPace
  let t : Scheduler := { s with
    memIDPace := id + 1
    memoryUsed := s.memoryUsed + size
    chunk := Function.update s.chunk id ⟨.fresh, size⟩
    memChunks := insert id s.memChunks }
  (t.schedulerRegister id).touch id

def mfree (id : Nat) : Scheduler :=
  { s.schedulerDelete id with
    memoryUsed := if s.status id = .allocated then s.memoryUsed - (s.chunk id).size
      else s.memoryUsed
    memChunks := s.memChunks.erase id }

/-- The transfer of the chunk is at its end: a chunk that is written out leaves RAM. -/
def arrive (id : Nat) (c : ManagedMemoryChunk) : Scheduler :=
  let t := s.setChunk id c
  { t with
    memoryUsed := if s.status id = .swapout then t.memoryUsed - (s.chunk id).size
      else t.memoryUsed }

/-- One event; `none` when the manager cannot make the call, or it throws. -/
def step (s : Scheduler) : Event → Option Scheduler
  | .mmalloc size => some (s.mmalloc size)
  | .mfree id =>
      if id ∈ s.memChunks ∧ (s.status id).hasFlag .allocatedInuse = false then some (s.mfree id)
      else none
  | .setUse id writeAccess =>
      if id ∈ s.memChunks then
        some (s.use id (Rambrain.setUse (s.chunk id).toManagedMemoryChunk writeAccess))
      else none
  | .resumeUse id writeAccess pause swapInResult =>
      if id ∈ s.memChunks then
        some (s.use id
          (Rambrain.resumeUse (s.chunk id).toManagedMemoryChunk writeAccess pause swapInResult))
      else none
  | .unsetUse id noUnsets =>
      if id ∈ s.memChunks then
        match Rambrain.unsetUse (s.chunk id).toManagedMemoryChunk noUnsets with
        | .ok c => some (s.setChunk id c)
        | .error _ => some s
      else none
  | .complete id =>
      if id ∈ s.memChunks then
        (SwapEvent.complete.apply (s.chunk id).toManagedMemoryChunk).map (s.arrive id)
      else none
  | .swapOut swap allocMax minSize =>
      (s.toPreemptive.swapOut swap allocMax minSize).map fun r => { s with toPreemptive := r.2 }
  | .decay takes freeSwap bytes =>
      (s.toPreemptive.decay takes freeSwap bytes).map fun t => { s with toPreemptive := t }
  | .readIn takes maxPreemptive targetReadinVol oldBorder chunk =>
      s.readIn takes maxPreemptive targetReadinVol oldBorder chunk
  | .limit size => some { s with memoryMax := size }

/-- A manager without chunks. -/
def init (memoryMax : Nat) : Scheduler where
  toState := Cyclic.init memoryMax
  preemptiveStart := none
  preemptiveLoaded := fun _ => false
  preemptiveBytes := 0
  consecutivePreemptiveTransactions := 0

/-- The condition under which an event leaves the ring in order. -/
def Keeps (s : Scheduler) : Event → Prop
  | .mfree id => s.leaves id
  | .swapOut swap allocMax minSize =>
      (∀ x ∈ s.chosen swap allocMax minSize, (swap.takes x).isSome = true) ∧
        ∀ a ∈ s.active, a ∉ s.chosen swap allocMax minSize
  | .decay takes freeSwap bytes =>
      ∀ start ∈ s.preemptiveStart, ∀ active ∈ s.active,
        ∀ x ∈ s.decayPicks ⟨s.preemptiveBytes.toNat, bytes, freeSwap⟩ 0
          (s.preemptives start active), (takes x).isSome = true
  | .readIn takes maxPreemptive targetReadinVol oldBorder chunk =>
      let l := s.readLimits maxPreemptive targetReadinVol
      let way := s.back oldBorder chunk
      (chunk ∈ s.memChunks ∧ s.status chunk = .swapped ∧ 0 < (s.chunk chunk).size ∧
        (s.chunk chunk).size + s.memoryUsed ≤ s.memoryMax) ∧
        (oldBorder ∈ s.memChunks ∧ oldBorder ≠ chunk) ∧
        (∀ x ∈ s.readPassed l ⟨0, 0⟩ way, s.separateThis x = true) ∧
        (∀ x ∈ s.readPicks l ⟨0, 0⟩ way, (takes x).isSome = true) ∧
        ∀ c ∈ s.counterActive, c ∉ s.readPicks l ⟨0, 0⟩ way
  | _ => True

instance (s : Scheduler) : ∀ e, Decidable (s.Keeps e)
  | .mfree id => inferInstanceAs (Decidable (s.active = some id → _))
  | .swapOut .. => inferInstanceAs (Decidable (_ ∧ _))
  | .decay .. => inferInstanceAs (Decidable (∀ start ∈ s.preemptiveStart, _))
  | .readIn .. => inferInstanceAs (Decidable (_ ∧ _ ∧ _ ∧ _ ∧ _))
  | .mmalloc _ | .setUse .. | .resumeUse .. | .unsetUse .. | .complete _ | .limit _ =>
      inferInstanceAs (Decidable True)

end Scheduler

/-- A status that a chunk may take on. -/
def Plain (status : MemoryStatus) : Prop := status ≠ .allocatedInuse ∧ status ≠ .root

/-- The statuses and the numbers of the registered chunks. -/
structure Known (s : State) : Prop where
  status : ∀ x ∈ s.memChunks, Plain (s.status x)
  pace : ∀ x ∈ s.memChunks, x < s.memIDPace
  first : 0 < s.memIDPace

theorem Known.keep (known : Known s) (memChunks : t.memChunks ⊆ s.memChunks)
    (pace : t.memIDPace = s.memIDPace)
    (status : ∀ x ∈ t.memChunks, t.status x = s.status x ∨ Plain (t.status x)) : Known t where
  status x mem := by
    rcases status x mem with same | plain
    · rw [same]
      exact known.status x (memChunks mem)
    · exact plain
  pace x mem := by
    rw [pace]
    exact known.pace x (memChunks mem)
  first := pace ▸ known.first

theorem Known.ram (known : Known s) (mem : x ∈ s.memChunks) (resident : s.separateThis x = false) :
    s.inRam x = true ∨ s.status x = .swapin := by
  have plain := known.status x mem
  simp only [Cyclic.State.separateThis, decide_eq_false_iff_not, not_or] at resident
  unfold Cyclic.State.inRam
  cases is : s.status x <;> simp_all [Plain, MemoryStatus.hasFlag, MemoryStatus.code]

/-- What the runs keep. -/
structure Kept (s : Scheduler) : Prop where
  known : Known s.toPreemptive
  order : Blank s.toPreemptive ∨ ∃ S a O, InOrder s.toPreemptive S a O

/-! ### Statuses -/

theorem setUse_plain {c : ManagedMemoryChunk} (plain : Plain c.status) (writeAccess : Bool) :
    Plain (setUse c writeAccess).1.status := by
  rcases (setUse_cases c writeAccess).2 with ⟨_, _, same, _⟩ | ⟨_, _, is⟩
  · rw [same]
    exact plain
  · rw [is]
    split_ifs
    · exact ⟨by decide, by decide⟩
    · exact ⟨by decide, by decide⟩
    · exact plain

theorem resumeUse_plain {c : ManagedMemoryChunk} (plain : Plain c.status) (writeAccess : Bool)
    (pause : Pause) (swapInResult : Bool) :
    Plain (resumeUse c writeAccess pause swapInResult).1.status := by
  rcases resumeUse_cases c writeAccess pause swapInResult with ⟨q, is⟩ | is | ⟨_, is⟩
  · rw [is]
    exact plain
  · rw [is]
    exact plain
  · rw [is, useAllocated_status]
    split_ifs
    · exact ⟨by decide, by decide⟩
    · exact ⟨by decide, by decide⟩

theorem unsetUse_plain {c d : ManagedMemoryChunk} {n : UInt32} (plain : Plain c.status)
    (ok : unsetUse c n = .ok d) : Plain d.status := by
  obtain ⟨_, _, _, status⟩ := unsetUse_ok ok
  rw [status]
  split_ifs
  · exact ⟨by decide, by decide⟩
  · exact plain

theorem complete_plain {c d : ManagedMemoryChunk} (taken : SwapEvent.complete.apply c = some d) :
    Plain d.status := by
  obtain ⟨_, ⟨_, is⟩ | ⟨_, is⟩ | ⟨_, is⟩ | ⟨_, _, is⟩⟩ := SwapEvent.apply_cases taken
  · rw [is]
    exact ⟨by decide, by decide⟩
  · rw [is]
    split_ifs
    · exact ⟨by decide, by decide⟩
    · exact ⟨by decide, by decide⟩
  · rw [is]
    exact ⟨by decide, by decide⟩
  · rcases is with is | is
    · rw [is]
      exact ⟨by decide, by decide⟩
    · rw [is]
      exact ⟨by decide, by decide⟩

theorem Known.setChunk (known : Known s) {c : ManagedMemoryChunk} (plain : Plain c.status) :
    Known { s with toState := s.toState.setChunk x c } := by
  refine known.keep (Finset.Subset.refl s.memChunks) ?_ ?_
  · rfl
  intro y _
  by_cases here : y = x
  · subst here
    right
    simpa [Cyclic.State.status, Cyclic.State.setChunk] using plain
  · left
    have same : (s.toState.setChunk x c).chunk y = s.chunk y := Function.update_of_ne here _ _
    exact congrArg (fun d : Chunk => d.status) same

/-! ### One event -/

theorem Kept.isSection {s : Scheduler} (kept : Kept s) (mem : x ∈ s.memChunks) :
    ∃ S a O, InOrder s.toPreemptive S a O := by
  apply kept.order.resolve_left
  intro blank
  rw [blank.memChunks] at mem
  exact Finset.notMem_empty x mem

theorem Kept.setChunk {s : Scheduler} (kept : Kept s) (mem : x ∈ s.memChunks)
    {c : ManagedMemoryChunk} (plain : Plain c.status)
    (stored : isStored c.status = isStored (s.status x)) : Kept (s.setChunk x c) where
  known := kept.known.setChunk plain
  order := by
    obtain ⟨S, a, O, order⟩ := kept.isSection mem
    exact .inr ⟨S, a, O, order.setChunk c stored⟩

theorem Kept.touch {s : Scheduler} (kept : Kept s) (mem : x ∈ s.memChunks)
    (inRam : s.separateThis x = false) : Kept (s.touch x) where
  known := by
    obtain ⟨memChunks, chunk, _⟩ := touch_fields s x
    apply kept.known.keep
    · rw [memChunks]
    · simp [Scheduler.touch]
    · intro y _
      left
      unfold Cyclic.State.status
      rw [chunk]
  order := by
    obtain ⟨S, a, O, order⟩ := kept.isSection mem
    obtain ⟨S', O', touched⟩ := order.touch ((order.mem x).mpr mem) inRam
    exact .inr ⟨S', x, O', touched⟩

theorem Kept.use {s : Scheduler} (kept : Kept s) (mem : x ∈ s.memChunks)
    {result : ManagedMemoryChunk × Progress} (plain : Plain result.1.status)
    (stored : isStored result.1.status = isStored (s.status x))
    (granted : result.2 = .returned true → isStored result.1.status = false) :
    Kept (s.use x result) := by
  have chunked := kept.setChunk mem plain stored
  unfold Scheduler.use
  split_ifs with is
  · apply chunked.touch mem
    simpa [Scheduler.setChunk, Cyclic.State.setChunk, Cyclic.State.separateThis,
      Cyclic.State.status, isStored] using granted is
  · exact chunked

theorem Kept.mmalloc {s : Scheduler} (kept : Kept s) (size : Nat) : Kept (s.mmalloc size) := by
  have new : s.memIDPace ∉ s.memChunks := fun mem => lt_irrefl _ (kept.known.pace _ mem)
  have real : s.memIDPace ≠ 0 := kept.known.first.ne'
  let chunk : Nat → Chunk := Function.update s.chunk s.memIDPace ⟨.fresh, size⟩
  have fresh : ({ s with chunk := chunk } : Scheduler).separateThis s.memIDPace = false := by
    simp [chunk, Cyclic.State.separateThis, Cyclic.State.status, ManagedMemoryChunk.fresh]
  generalize isT : ({ s with
    chunk, memoryUsed := s.memoryUsed + size, memIDPace := s.memIDPace + 1,
    memChunks := insert s.memIDPace s.memChunks } : Scheduler).schedulerRegister s.memIDPace = t
  have known : Known t.toPreemptive := by
    have same : t.chunk = chunk ∧ t.memChunks = insert s.memIDPace s.memChunks ∧
        t.memIDPace = s.memIDPace + 1 := by
      rw [← isT]
      simp only [Scheduler.schedulerRegister, State.schedulerRegister,
        Cyclic.State.schedulerRegister, Cyclic.State.tick]
      split
      · exact ⟨rfl, rfl, rfl⟩
      · exact ⟨rfl, rfl, rfl⟩
    obtain ⟨isChunk, isMem, isPace⟩ := same
    constructor
    case status =>
      intro y mem
      unfold Cyclic.State.status
      rw [isChunk]
      by_cases here : y = s.memIDPace
      · subst here
        simp [chunk, ManagedMemoryChunk.fresh, Plain]
      · rw [isMem] at mem
        have old := (Finset.mem_insert.mp mem).resolve_left here
        rw [show chunk y = s.chunk y from Function.update_of_ne here _ _]
        exact kept.known.status y old
    case pace =>
      intro y mem
      rw [isPace]
      rw [isMem] at mem
      rcases Finset.mem_insert.mp mem with here | old
      · exact here ▸ Nat.lt_succ_self _
      · exact (kept.known.pace y old).trans (Nat.lt_succ_self _)
    case first =>
      rw [isPace]
      exact Nat.succ_pos _
  have registered : ∃ S O, InOrder t.toPreemptive S s.memIDPace O := by
    rw [← isT]
    rcases kept.order with blank | ⟨S, a, O, order⟩
    · exact ⟨[], [], blank.register real fresh⟩
    · refine ⟨S, a :: O, order.register (fun mem => new ((order.mem _).mp mem)) real ?_ fresh⟩
      intro y ne
      exact Function.update_of_ne ne _ _
  obtain ⟨S, O, order⟩ := registered
  have mem : s.memIDPace ∈ t.memChunks := (order.mem _).mp (by simp)
  have touched := Kept.touch ⟨known, .inr ⟨S, _, O, order⟩⟩ mem order.resident
  rw [← isT] at touched
  exact touched

theorem Kept.mfree {s : Scheduler} (kept : Kept s) (mem : x ∈ s.memChunks) (leaves : s.leaves x) :
    Kept (s.mfree x) := by
  obtain ⟨S, a, O, order⟩ := kept.isSection mem
  have onRing := (order.mem x).mpr mem
  obtain ⟨chunk, _⟩ := delete_fields s x (by
    intro stored
    apply order.loaded_false
    intro inS
    rw [order.inRam x inS] at stored
    cases stored)
  constructor
  case known =>
    refine kept.known.keep (Finset.erase_subset x s.memChunks) ?_ ?_
    · simp only [Scheduler.mfree, Scheduler.schedulerDelete, State.schedulerDelete,
        Cyclic.State.schedulerDelete]
      split
      · rfl
      · rfl
    · intro y _
      left
      exact congrArg (fun f : Nat → Chunk => (f y).status) chunk
  case order => exact order.delete onRing leaves _

theorem Kept.swapOut {s : Scheduler} (kept : Kept s) {swap : Swap} {allocMax : Nat → Nat}
    {minSize : Nat} (keeps : s.Keeps (.swapOut swap allocMax minSize)) {err : SwapErrorCode}
    {t : State} (is : s.toPreemptive.swapOut swap allocMax minSize = some (err, t)) :
    Kept { s with toPreemptive := t } := by
  rcases kept.order with blank | ⟨S, a, O, order⟩
  · simp [State.swapOut, blank.active] at is
  · have memA : a ∈ s.memChunks := (order.mem a).mp (by simp)
    obtain ⟨⟨memChunks, pace⟩, status, O', remains⟩ := order.swapOut keeps.1
      (keeps.2 a order.active) (kept.known.ram memA order.resident) is
    refine ⟨kept.known.keep ?_ pace ?_, .inr ⟨_, a, O', remains⟩⟩
    · rw [memChunks]
    · intro x _
      rcases status x with same | is | is
      · exact .inl same
      · right
        rw [is]
        exact ⟨by decide, by decide⟩
      · right
        rw [is]
        exact ⟨by decide, by decide⟩

theorem Kept.decay {s : Scheduler} (kept : Kept s) {takes : Nat → Option Taken}
    {freeSwap bytes : Nat} (keeps : s.Keeps (.decay takes freeSwap bytes)) {t : State}
    (is : s.toPreemptive.decay takes freeSwap bytes = some t) :
    Kept { s with toPreemptive := t } := by
  rcases kept.order with blank | ⟨S, a, O, order⟩
  · simp only [State.decay, blank.start] at is
    cases is
    exact kept
  · have all : ∀ x ∈ s.decayPicks ⟨s.preemptiveBytes.toNat, bytes, freeSwap⟩ 0 S,
        (takes x).isSome = true := by
      cases isStart : s.preemptiveStart with
      | none =>
          have empty : S = [] := List.head?_eq_none_iff.mp (order.start.symm.trans isStart)
          rw [empty]
          intro x mem
          cases mem
      | some start =>
          have picks := keeps start isStart a order.active
          rw [(order.isSection.preemptives order.wellFormed isStart order.active).1] at picks
          exact picks
    have inRam : ∀ a, s.active = some a → s.separateThis a = false := by
      intro b isB
      cases isB.symm.trans order.active
      exact order.resident
    obtain ⟨u, L', isU, result, _⟩ := order.isSection.decay order.wellFormed inRam freeSwap bytes
      rfl all
    cases is.symm.trans isU
    obtain ⟨_, _, pace⟩ := order.isSection.decay_pointers order.wellFormed rfl all is
    refine ⟨kept.known.keep ?_ pace ?_, .inr ⟨_, order.decay rfl all is⟩⟩
    · intro x mem
      exact (order.mem x).mp (result.same.mem_iff.mp ((result.wellFormed.mem x).mpr mem))
    · intro x _
      by_cases picked : x ∈ s.decayPicks ⟨s.preemptiveBytes.toNat, bytes, freeSwap⟩ 0 S
      · right
        rcases (result.evicted x picked).2.2.2 with is | is
        · rw [is]
          exact ⟨by decide, by decide⟩
        · rw [is]
          exact ⟨by decide, by decide⟩
      · exact .inl (congrArg (fun c : Chunk => c.status) (result.others x picked))

/-- The chunk itself is the first that is selected. -/
theorem readPicks_first {l : ReadLimits} {oldBorder chunk : Nat}
    (selects : Reading.selects l ⟨0, 0⟩ (s.chunk chunk) = true) (nonempty : s.memChunks.Nonempty) :
    ∃ p, s.readPicks l ⟨0, 0⟩ (s.back oldBorder chunk) = chunk :: p := by
  obtain ⟨n, isCard⟩ := Nat.exists_eq_succ_of_ne_zero nonempty.card_pos.ne'
  unfold State.back
  rw [isCard, walk, State.readPicks, if_pos selects]
  exact ⟨_, rfl⟩

theorem Kept.readIn {s t : Scheduler} (kept : Kept s) {takes : Nat → Option Arrival}
    {maxPreemptive targetReadinVol oldBorder chunk : Nat}
    (keeps : s.Keeps (.readIn takes maxPreemptive targetReadinVol oldBorder chunk))
    (is : s.readIn takes maxPreemptive targetReadinVol oldBorder chunk = some t) : Kept t := by
  obtain ⟨⟨mem, swapped, positive, room⟩, ⟨border, other⟩, stored, all, away⟩ := keeps
  obtain ⟨S, a, O, order⟩ := kept.isSection mem
  have selects : Reading.selects (s.readLimits maxPreemptive targetReadinVol) ⟨0, 0⟩
      (s.chunk chunk) = true := by
    simp only [Reading.selects, decide_eq_true_eq]
    exact ⟨by simpa [State.readLimits] using room, swapped, .inl trivial⟩
  obtain ⟨p, isPicks⟩ : ∃ p, s.readPicks (s.readLimits maxPreemptive targetReadinVol) ⟨0, 0⟩
      (s.back oldBorder chunk) = chunk :: p := readPicks_first selects ⟨chunk, mem⟩
  rw [isPicks] at all away
  have demand : Demand s.toPreemptive (S ++ a :: O) (s.readLimits maxPreemptive targetReadinVol)
      oldBorder chunk (s.readPassed (s.readLimits maxPreemptive targetReadinVol) ⟨0, 0⟩
        (s.back oldBorder chunk)) p := by
    constructor
    case mem => exact (order.mem chunk).mpr mem
    case swapped => exact swapped
    case positive => exact positive
    case room => exact room
    case border => exact (order.mem oldBorder).mpr border
    case other => exact other
    case isPassed => rfl
    case isPicks => exact isPicks
    case stored => exact stored
    case active =>
      intro b isB
      cases isB.symm.trans order.active
      right
      intro passed
      have resident := order.resident
      rw [stored a passed] at resident
      cases resident
  obtain ⟨u, L', isU, loads, _⟩ := demand.loads order.wellFormed order.isSection all
  cases is.symm.trans isU
  refine ⟨kept.known.keep ?_ (demand.memIDPace order.wellFormed all is) ?_,
    .inr ⟨_, chunk, order.readIn demand all away is⟩⟩
  · intro x mem
    exact (order.mem x).mp (loads.same.mem_iff.mp ((loads.wellFormed.mem x).mpr mem))
  · intro x _
    by_cases loaded : x ∈ chunk :: p
    · right
      rcases (loads.loaded x loaded).2.2 with is | is
      · rw [is]
        exact ⟨by decide, by decide⟩
      · rw [is]
        exact ⟨by decide, by decide⟩
    · exact .inl (congrArg (fun c : Chunk => c.status) (loads.others x loaded))

theorem Kept.init (memoryMax : Nat) : Kept (Scheduler.init memoryMax) where
  known := by
    constructor
    case status => simp [Scheduler.init, Cyclic.init]
    case pace => simp [Scheduler.init, Cyclic.init]
    case first => exact Nat.one_pos
  order := .inl ⟨rfl, rfl, rfl, rfl, fun _ => rfl, rfl⟩

/-- The limit and what is counted in RAM have no part in the order. -/
theorem Kept.counted {s : Scheduler} (kept : Kept s) (memoryUsed memoryMax : Nat) :
    Kept { s with memoryUsed, memoryMax } := by
  refine ⟨⟨kept.known.status, kept.known.pace, kept.known.first⟩, ?_⟩
  rcases kept.order with blank | ⟨S, a, O, order⟩
  · exact .inl ⟨blank.memChunks, blank.active, blank.counter, blank.start, blank.loaded,
      blank.bytes⟩
  · exact .inr ⟨S, a, O, order.ring, order.mem, order.real, order.active, order.counter,
      order.start, order.loaded, order.bytes, order.inRam, order.resident⟩

/-- An event that meets its condition keeps the ring in order. -/
theorem Kept.step {s t : Scheduler} {e : Event} (kept : Kept s) (keeps : s.Keeps e)
    (taken : s.step e = some t) : Kept t := by
  cases e with
  | mmalloc size =>
      cases taken
      exact kept.mmalloc size
  | mfree id =>
      simp only [Scheduler.step, Option.ite_none_right_eq_some, Option.some.injEq] at taken
      obtain ⟨⟨mem, _⟩, rfl⟩ := taken
      exact kept.mfree mem keeps
  | setUse id writeAccess =>
      simp only [Scheduler.step, Option.ite_none_right_eq_some, Option.some.injEq] at taken
      obtain ⟨mem, rfl⟩ := taken
      obtain ⟨stored, granted⟩ := setUse_stored (s.chunk id).toManagedMemoryChunk writeAccess
      exact kept.use mem (setUse_plain (kept.known.status id mem) writeAccess) stored granted
  | resumeUse id writeAccess pause swapInResult =>
      simp only [Scheduler.step, Option.ite_none_right_eq_some, Option.some.injEq] at taken
      obtain ⟨mem, rfl⟩ := taken
      obtain ⟨stored, granted⟩ := resumeUse_stored (s.chunk id).toManagedMemoryChunk writeAccess
        pause swapInResult
      exact kept.use mem (resumeUse_plain (kept.known.status id mem) writeAccess pause swapInResult)
        stored granted
  | unsetUse id noUnsets =>
      simp only [Scheduler.step, Option.ite_none_right_eq_some] at taken
      obtain ⟨mem, taken⟩ := taken
      cases ok : Rambrain.unsetUse (s.chunk id).toManagedMemoryChunk noUnsets with
      | error e =>
          rw [ok] at taken
          cases taken
          exact kept
      | ok c =>
          rw [ok] at taken
          cases taken
          exact kept.setChunk mem (unsetUse_plain (kept.known.status id mem) ok)
            (unsetUse_stored ok)
  | complete id =>
      simp only [Scheduler.step, Option.ite_none_right_eq_some] at taken
      obtain ⟨mem, taken⟩ := taken
      obtain ⟨c, done, rfl⟩ := Option.map_eq_some_iff.mp taken
      exact (kept.setChunk mem (complete_plain done) (complete_stored done)).counted _ _
  | swapOut swap allocMax minSize =>
      obtain ⟨⟨err, u⟩, done, rfl⟩ := Option.map_eq_some_iff.mp taken
      exact kept.swapOut keeps done
  | decay takes freeSwap bytes =>
      obtain ⟨u, done, rfl⟩ := Option.map_eq_some_iff.mp taken
      exact kept.decay keeps done
  | readIn takes maxPreemptive targetReadinVol oldBorder chunk =>
      exact kept.readIn keeps taken
  | limit size =>
      cases taken
      exact kept.counted _ size

/-- In every state that a run from an empty manager reaches, if its events all meet their
conditions, there are no chunks, or the ring is in order: `active` and the chunks of the section
are in RAM, the section is what is counted as preemptively loaded, and `counterActive` is behind
it. -/
theorem section_kept (memoryMax : Nat) (es : List Event) {s : Scheduler}
    (keeps : Along Scheduler.step Scheduler.Keeps (Scheduler.init memoryMax) es)
    (reached : run Scheduler.step (Scheduler.init memoryMax) es = some s) :
    Blank s.toPreemptive ∨ ∃ S a O, InOrder s.toPreemptive S a O := by
  have kept : Kept s := run_invariant_of_guard Kept (fun _ _ _ => Kept.step) es
    (Kept.init memoryMax) keeps reached
  exact kept.order

/-- Three chunks are written out. One is used again and brings the other two in with it; `decay`
writes one of these out again, and the other one is used. -/
def loadedBehind : List Event :=
  let takes : Nat → Option Taken := fun _ => some .swapped
  [.mmalloc 1, .mmalloc 1, .mmalloc 1, .mmalloc 1, .mmalloc 1,
    .swapOut ⟨10, 10, false, 0, takes⟩ id 3, .setUse 1 true,
    .readIn (fun _ => some .allocated) 3 3 4 1, .resumeUse 1 true .swapIn true, .unsetUse 1 1,
    .decay takes 5 1, .setUse 2 false, .mfree 4]

theorem section_kept_loadedBehind :
    ∃ s, run Scheduler.step (Scheduler.init 10) loadedBehind = some s ∧
      (Blank s.toPreemptive ∨ ∃ S a O, InOrder s.toPreemptive S a O) := by
  have taken : (run Scheduler.step (Scheduler.init 10) loadedBehind).isSome := by decide +kernel
  have keeps : Along Scheduler.step Scheduler.Keeps (Scheduler.init 10) loadedBehind := by
    decide +kernel
  obtain ⟨s, reached⟩ := Option.isSome_iff_exists.mp taken
  exact ⟨s, reached, section_kept 10 loadedBehind keeps reached⟩

end Rambrain.Eviction
