import Rambrain.Eviction
import Rambrain.Lib.Walk

/-!
The pairs of loops of `swapOut`, `swapIn` and `decay`: the first loop counts the chunks that it
selects, the second one writes them to an array of that size.

The first loops of `swapIn` and `decay` change flags and the second one of `swapOut` moves `active`;
what a loop selects depends on neither, so both loops of a pair select the same chunks. What they
count in is an `unsigned int`: `swapOut` compares the chunks it has passed with the number of all
chunks modulo `2 ^ 32`, and the arrays of `swapIn` and `decay` have as many entries as chunks are
selected modulo `2 ^ 32`.
-/

namespace Rambrain.Eviction

open Lib Cyclic

/-- What a first loop has counted; the chunks themselves are history. -/
structure Counted where
  bytes : Nat
  number : UInt32
  chunks : List Nat

def Counted.start : Counted := ⟨0, 0, []⟩

def Counted.add (c : Counted) (id size : Nat) : Counted :=
  ⟨c.bytes + size, c.number + 1, c.chunks ++ [id]⟩

/-- What the loops of a pair have done: the second one has written these chunks, one behind the
other, to an array of `counted.number` entries. -/
structure Passes where
  counted : Counted
  written : List Nat

/-- As many chunks are written as were counted, and they are the ones that were counted. -/
def Passes.Agree (p : Passes) : Prop :=
  p.written = p.counted.chunks ∧ p.written.length = p.counted.number.toNat

/-- Both loops end, and agree. -/
def Agree (passes : Option Passes) : Prop := ∃ p, passes = some p ∧ p.Agree

/-- What the loops of `swapIn` compare with. -/
structure ReadLimits where
  memoryMax : Nat
  memoryUsed : Nat
  maxPreemptive : Nat
  targetReadinVol : Nat

/-- What the loops of `swapIn` sum up. -/
structure Reading where
  selectedReadinVol : Nat
  preemptivelySelected : Nat

def Reading.add (r : Reading) (size : Nat) : Reading where
  selectedReadinVol := r.selectedReadinVol + size
  preemptivelySelected :=
    if 0 < r.selectedReadinVol then r.preemptivelySelected + size else r.preemptivelySelected

/-- Whether `swapIn` selects the chunk. -/
def Reading.selects (l : ReadLimits) (r : Reading) (c : Chunk) : Bool :=
  r.selectedReadinVol + c.size + l.memoryUsed ≤ l.memoryMax ∧ c.status = .swapped ∧
    (r.selectedReadinVol = 0 ∨ r.preemptivelySelected + c.size ≤ l.maxPreemptive)

/-- The `break` of the loops of `swapIn`. -/
def Reading.full (l : ReadLimits) (r : Reading) : Bool :=
  l.targetReadinVol ≤ r.selectedReadinVol ∨
    (0 < r.selectedReadinVol ∧ r.preemptivelySelected = l.maxPreemptive)

/-- What `decay` is asked for, and what it compares it with. -/
structure DecayLimits where
  preemptiveBytes : Nat
  bytes : Nat
  freeSwap : Nat

/-- `bytes` of the loops of `decay`. -/
def DecayLimits.target (l : DecayLimits) : Nat := min l.freeSwap (min l.preemptiveBytes l.bytes)

def DecayLimits.swapleft (l : DecayLimits) : Nat := min l.preemptiveBytes l.freeSwap

/-- Whether `decay` selects the chunk. -/
def DecayLimits.selects (l : DecayLimits) (bytesselected : Nat) (c : Chunk) : Bool :=
  c.size + bytesselected < l.swapleft ∧ c.status = .allocated ∧ c.useCnt = 0

namespace State

variable (s : State)

/-! ### `swapOut` -/

/-- The first round. It ends when `passed` has come to `allelements`. -/
def firstRound (swapFree memSwap : Nat) (allelements : UInt32) :
    Nat → Nat → UInt32 → Counted → Option Counted
  | 0, _, _, _ => none
  | fuel + 1, countPos, passed, c =>
      if c.bytes < memSwap then
        let c := if s.selects swapFree c.bytes countPos then c.add countPos (s.chunk countPos).size
          else c
        if passed + 1 = allelements then some c
        else firstRound swapFree memSwap allelements fuel (s.links.prev countPos) (passed + 1) c
      else some c

/-- The second round. -/
def fillRound (swapFree unloadSize : Nat) (allelements : UInt32) :
    Nat → UInt32 → Round → Option Round
  | 0, _, _ => none
  | fuel + 1, passed, r =>
      if r.unloadSize2 < unloadSize ∧ passed ≠ allelements then
        let taken := if s.selects swapFree r.unloadSize2 r.fromPos then s.take r else r
        fillRound swapFree unloadSize allelements fuel (passed + 1)
          { taken with fromPos := s.links.prev r.fromPos }
      else some r

/-- An `unsigned int` that is counted up comes around in so many turns. -/
def turns : Nat := 2 ^ 32 + 1

/-- The rounds of `swapOut`; `none` when one does not end. -/
def swapOutPasses (swapFree memSwap active counterActive : Nat) : Option Passes :=
  let allelements := UInt32.ofNat s.memChunks.card
  (s.firstRound swapFree memSwap allelements turns counterActive 0 .start).bind fun c =>
    if c.bytes = 0 then some ⟨c, []⟩
    else
      (s.fillRound swapFree c.bytes allelements turns 0
        ⟨counterActive, 0, [], active, s.preemptiveLoaded, s.preemptiveBytes, false⟩).map
          fun r => ⟨c, r.unloadlist⟩

/-! ### `swapIn` -/

/-- The first loop of `swapIn`. -/
def selectPass (l : ReadLimits) (oldBorder : Nat) :
    Nat → State → Nat → Reading → Counted → Option (State × Counted)
  | 0, _, _, _, _ => none
  | fuel + 1, s, cur, r, c =>
      if r.selects l (s.chunk cur) then
        let size := (s.chunk cur).size
        let s := { s with
          preemptiveLoaded :=
            Function.update s.preemptiveLoaded cur (decide (0 < r.selectedReadinVol)) }
        if (r.add size).full l ∨ s.links.prev cur = oldBorder then some (s, c.add cur size)
        else selectPass l oldBorder fuel s (s.links.prev cur) (r.add size) (c.add cur size)
      else if s.links.prev cur = oldBorder then some (s, c)
      else selectPass l oldBorder fuel s (s.links.prev cur) r c

/-- The second loop of `swapIn`. -/
def fillPass (l : ReadLimits) (oldBorder : Nat) :
    Nat → Nat → Reading → List Nat → Option (List Nat)
  | 0, _, _, _ => none
  | fuel + 1, readEl, r, chunks =>
      if r.selects l (s.chunk readEl) then
        let r := r.add (s.chunk readEl).size
        if r.full l ∨ s.links.prev readEl = oldBorder then some (chunks ++ [readEl])
        else fillPass l oldBorder fuel (s.links.prev readEl) r (chunks ++ [readEl])
      else if s.links.prev readEl = oldBorder then some chunks
      else fillPass l oldBorder fuel (s.links.prev readEl) r chunks

/-- The loops of `swapIn`; `none` when one does not end. -/
def swapInPasses (l : ReadLimits) (readEl oldBorder : Nat) : Option Passes :=
  (selectPass l oldBorder s.memChunks.card s readEl ⟨0, 0⟩ .start).bind fun (t, c) =>
    (t.fillPass l oldBorder t.memChunks.card readEl ⟨0, 0⟩ []).map fun chunks => ⟨c, chunks⟩

/-! ### `decay` -/

/-- The first loop of `decay`, with the node it ends on. -/
def decayCount (l : DecayLimits) (active : Nat) :
    Nat → State → Nat → Counted → Option (State × Nat × Counted)
  | 0, _, _, _ => none
  | fuel + 1, s, cur, c =>
      if cur ≠ active ∧ c.bytes < l.target then
        if l.selects c.bytes (s.chunk cur) then
          decayCount l active fuel
            { s with preemptiveLoaded := Function.update s.preemptiveLoaded cur false }
            (s.links.next cur) (c.add cur (s.chunk cur).size)
        else decayCount l active fuel s (s.links.next cur) c
      else some (s, cur, c)

/-- The second loop of `decay`. -/
def decayFill (l : DecayLimits) (cur : Nat) :
    Nat → Nat → Nat → List Nat → Option (List Nat)
  | 0, _, _, _ => none
  | fuel + 1, cur2, bytesselected, chunklist =>
      if cur2 ≠ cur ∧ bytesselected < l.target then
        if l.selects bytesselected (s.chunk cur2) then
          decayFill l cur fuel (s.links.next cur2) (bytesselected + (s.chunk cur2).size)
            (chunklist ++ [cur2])
        else decayFill l cur fuel (s.links.next cur2) bytesselected chunklist
      else some chunklist

/-- The loops of `decay`; `none` when one does not end. -/
def decayPasses (l : DecayLimits) (preemptiveStart active : Nat) : Option Passes :=
  (decayCount l active (s.memChunks.card + 1) s preemptiveStart .start).bind fun (t, cur, c) =>
    if cur = preemptiveStart then some ⟨c, []⟩
    else (t.decayFill l cur (t.memChunks.card + 1) preemptiveStart 0 []).map fun list => ⟨c, list⟩

end State

variable {s : State} {swapFree memSwap : Nat}

/-! ### What is counted -/

/-- A first loop that has counted the chunks `p`. -/
def Counted.addAll (c : Counted) (s : State) (p : List Nat) : Counted :=
  ⟨c.bytes + s.sizes p, c.number + UInt32.ofNat p.length, c.chunks ++ p⟩

@[simp] theorem Counted.addAll_nil (c : Counted) (s : State) : c.addAll s [] = c := by
  simp [Counted.addAll]

theorem Counted.add_addAll (c : Counted) (s : State) (id : Nat) (p : List Nat) :
    (c.add id (s.chunk id).size).addAll s p = c.addAll s (id :: p) := by
  simp only [Counted.addAll, Counted.add, sizes_cons, List.length_cons, List.append_assoc,
    List.singleton_append, Nat.add_assoc, UInt32.ofNat_add, UInt32.ofNat_one, UInt32.add_assoc]
  rw [UInt32.add_comm 1]

/-- A loop that writes what was counted goes wrong where the number has come around. -/
theorem agree_all_iff (s : State) (p : List Nat) :
    Agree (some ⟨Counted.start.addAll s p, p⟩) ↔ p.length < 2 ^ 32 := by
  have number : (Counted.start.addAll s p).number.toNat = p.length % 2 ^ 32 := by
    simp [Counted.addAll, Counted.start]
  constructor
  · rintro ⟨q, is, _, same⟩
    cases is
    rw [number] at same
    rw [same]
    exact Nat.mod_lt _ (by decide)
  · intro less
    refine ⟨_, rfl, rfl, ?_⟩
    rw [number, Nat.mod_eq_of_lt less]

/-! ### The rounds of `swapOut` -/

theorem walks_iterate (k : Links Nat) (n p : Nat) :
    Walks k p (List.iterate k.prev p n) (k.prev^[n] p) := by
  induction n generalizing p with
  | zero => exact rfl
  | succ n ih => exact ⟨rfl, ih (k.prev p)⟩

theorem firstRound_spec (s : State) (swapFree memSwap : Nat) {a : UInt32} :
    ∀ (n : Nat) {p passed fuel : Nat} {c : Counted}, 0 < n → UInt32.ofNat (passed + n) = a →
      (∀ k, 0 < k → k < n → UInt32.ofNat (passed + k) ≠ a) → n < fuel →
      s.firstRound swapFree memSwap a fuel p (UInt32.ofNat passed) c =
        some (c.addAll s (s.picks swapFree memSwap c.bytes (List.iterate s.links.prev p n))) := by
  intro n
  induction n with
  | zero => intro p passed fuel c pos; cases pos
  | succ n ih =>
      intro p passed fuel c _ around before enough
      obtain ⟨fuel, rfl⟩ := Nat.exists_eq_succ_of_ne_zero (Nat.ne_zero_of_lt enough)
      have next : UInt32.ofNat passed + 1 = UInt32.ofNat (passed + 1) := by
        rw [UInt32.ofNat_add, UInt32.ofNat_one]
      rw [State.firstRound, List.iterate, State.picks]
      by_cases more : c.bytes < memSwap
      · rw [if_pos more, if_pos more, next]
        have behind : ∀ d : Counted,
            (if UInt32.ofNat (passed + 1) = a then some d
              else s.firstRound swapFree memSwap a fuel (s.links.prev p)
                (UInt32.ofNat (passed + 1)) d) =
            some (d.addAll s (s.picks swapFree memSwap d.bytes
              (List.iterate s.links.prev (s.links.prev p) n))) := by
          intro d
          cases n with
          | zero =>
              rw [if_pos around, List.iterate, State.picks, Counted.addAll_nil]
          | succ n =>
              rw [if_neg (before 1 Nat.one_pos (by omega))]
              refine ih n.succ_pos (by rw [← around]; congr 1; omega) (fun k pos less => ?_)
                (by omega)
              rw [Nat.add_assoc]
              exact before (1 + k) (by omega) (by omega)
        by_cases selects : s.selects swapFree c.bytes p = true
        · rw [if_pos selects, if_pos selects]
          exact (behind _).trans (congrArg some (c.add_addAll s p _))
        · rw [if_neg selects, if_neg selects]
          exact behind c
      · rw [if_neg more, if_neg more, Counted.addAll_nil]

theorem fillRound_spec (s : State) (swapFree unloadSize : Nat) :
    ∀ (left : Nat) {passed fuel : Nat} {r : Round}, passed + left < 2 ^ 32 → left < fuel →
      s.fillRound swapFree unloadSize (UInt32.ofNat (passed + left)) fuel (UInt32.ofNat passed) r =
        some (s.collectUnload swapFree unloadSize left r) := by
  intro left
  induction left with
  | zero =>
      intro passed fuel r _ enough
      obtain ⟨fuel, rfl⟩ := Nat.exists_eq_succ_of_ne_zero (Nat.ne_zero_of_lt enough)
      rw [State.fillRound, if_neg fun both => both.2 rfl, State.collectUnload]
  | succ left ih =>
      intro passed fuel r small enough
      obtain ⟨fuel, rfl⟩ := Nat.exists_eq_succ_of_ne_zero (Nat.ne_zero_of_lt enough)
      have ne : UInt32.ofNat passed ≠ UInt32.ofNat (passed + (left + 1)) := by
        intro eq
        have toNat := congrArg UInt32.toNat eq
        rw [UInt32.toNat_ofNat', UInt32.toNat_ofNat', Nat.mod_eq_of_lt small,
          Nat.mod_eq_of_lt (by omega)] at toNat
        omega
      have next : UInt32.ofNat passed + 1 = UInt32.ofNat (passed + 1) := by
        rw [UInt32.ofNat_add, UInt32.ofNat_one]
      rw [State.fillRound, State.collectUnload]
      by_cases more : r.unloadSize2 < unloadSize
      · rw [if_pos ⟨more, ne⟩, if_pos more, next]
        have rest := @ih (passed + 1) fuel { (if
          s.selects swapFree r.unloadSize2 r.fromPos then s.take r else r) with
          fromPos := s.links.prev r.fromPos } (by omega) (by omega)
        have count : passed + 1 + left = passed + (left + 1) := by omega
        rw [← rest, count]
      · rw [if_neg fun both => more both.1, if_neg more]

/-- How many chunks the first round passes at most. -/
def State.passes (s : State) : Nat :=
  if s.memChunks.card % 2 ^ 32 = 0 then 2 ^ 32 else s.memChunks.card % 2 ^ 32

theorem firstRound_passes (s : State) (swapFree memSwap counterActive : Nat) :
    s.firstRound swapFree memSwap (UInt32.ofNat s.memChunks.card) State.turns counterActive 0
        .start =
      some (Counted.start.addAll s (s.picks swapFree memSwap 0
        (List.iterate s.links.prev counterActive s.passes))) := by
  have bound := Nat.mod_lt s.memChunks.card (Nat.two_pow_pos 32)
  have zero : (0 : UInt32) = UInt32.ofNat 0 := rfl
  rw [zero]
  refine firstRound_spec s swapFree memSwap s.passes ?_ ?_ ?_ ?_
  · unfold State.passes
    split <;> omega
  · rw [UInt32.ofNat_eq_iff_mod_eq_toNat, UInt32.toNat_ofNat']
    unfold State.passes
    split <;> omega
  · intro k pos less
    rw [Ne, UInt32.ofNat_eq_iff_mod_eq_toNat, UInt32.toNat_ofNat']
    unfold State.passes at less
    split at less <;> omega
  · unfold State.passes State.turns
    split <;> omega

theorem start_bytes (s : State) (p : List Nat) :
    (Counted.start.addAll s p).bytes = s.sizes p := Nat.zero_add _

/-- With a multiple of `2 ^ 32` chunks `passed` is `allelements` before the second round has
begun. -/
theorem swapOutPasses_wraps {active counterActive : Nat} {p : List Nat}
    (isP : p = s.picks swapFree memSwap 0 (List.iterate s.links.prev counterActive s.passes))
    (nonempty : p ≠ []) (notZero : s.sizes p ≠ 0) (zero : s.memChunks.card % 2 ^ 32 = 0) :
    ¬ Agree (s.swapOutPasses swapFree memSwap active counterActive) := by
  have all : UInt32.ofNat s.memChunks.card = 0 := by
    rw [UInt32.ofNat_eq_iff_mod_eq_toNat]
    exact zero
  have first := firstRound_passes s swapFree memSwap counterActive
  rw [← isP] at first
  rw [State.swapOutPasses, first, Option.bind_some, start_bytes, if_neg notZero, all, State.turns,
    State.fillRound, if_neg fun both => both.2 rfl]
  rintro ⟨q, is, same, _⟩
  cases is
  exact nonempty same.symm

/-- Otherwise the second round goes along the chunks of the first one. -/
theorem swapOutPasses_agree {active counterActive : Nat}
    (positive : ∀ k, 0 < (s.chunk (s.links.prev^[k] counterActive)).size)
    (notZero : s.memChunks.card % 2 ^ 32 ≠ 0) :
    Agree (s.swapOutPasses swapFree memSwap active counterActive) := by
  have first := firstRound_passes s swapFree memSwap counterActive
  obtain ⟨w, isW⟩ : ∃ w, w = List.iterate s.links.prev counterActive s.passes := ⟨_, rfl⟩
  obtain ⟨p, isP⟩ : ∃ p, p = s.picks swapFree memSwap 0 w := ⟨_, rfl⟩
  have positiveW : ∀ x ∈ w, 0 < (s.chunk x).size := by
    intro x mem
    rw [isW, List.mem_iterate] at mem
    obtain ⟨k, _, rfl⟩ := mem
    exact positive k
  have length : w.length = s.passes := by rw [isW, List.length_iterate]
  have passes : s.passes = s.memChunks.card % 2 ^ 32 := if_neg notZero
  have bound : s.passes < 2 ^ 32 := by
    rw [passes]
    exact Nat.mod_lt _ (by decide)
  have le := (picks_sublist (s := s) swapFree memSwap w 0).length_le
  rw [← isP, length] at le
  rw [← isW, ← isP] at first
  rw [State.swapOutPasses, first, Option.bind_some, start_bytes]
  by_cases zero : s.sizes p = 0
  · have empty : p = [] := sizes_eq_zero (fun x mem =>
      positiveW x ((picks_sublist swapFree memSwap w 0).subset (isP ▸ mem))) zero
    rw [if_pos zero, empty]
    exact (agree_all_iff s []).mpr (by decide)
  · have all : UInt32.ofNat s.memChunks.card = UInt32.ofNat (0 + s.passes) := by
      rw [UInt32.ofNat_eq_iff_mod_eq_toNat, UInt32.toNat_ofNat', passes]
      omega
    have walks := walks_iterate s.links s.passes counterActive
    rw [← isW] at walks
    obtain ⟨_, _, _, _, _, _, collected⟩ := collectUnload_spec s swapFree (s.sizes p) w
      (r := ⟨counterActive, 0, [], active, s.preemptiveLoaded, s.preemptiveBytes, false⟩) walks
    have sum : s.sizes p = 0 + s.sizes (s.picks swapFree memSwap 0 w) := by
      rw [← isP, Nat.zero_add]
    have again := (picks_again s swapFree memSwap (s.sizes p) w sum).2 positiveW
    have list := collected.list
    rw [again, ← isP, List.nil_append, length] at list
    have zero' : (0 : UInt32) = UInt32.ofNat 0 := rfl
    rw [if_neg zero, all, zero', fillRound_spec s swapFree (s.sizes p) s.passes (by omega)
      (by unfold State.turns; omega), Option.map_some, list]
    apply (agree_all_iff s p).mpr
    omega

theorem swapOutPasses_agree_iff {active counterActive : Nat}
    (positive : ∀ k, 0 < (s.chunk (s.links.prev^[k] counterActive)).size) :
    Agree (s.swapOutPasses swapFree memSwap active counterActive) ↔
      (s.memChunks.card % 2 ^ 32 = 0 →
        s.picks swapFree memSwap 0 (List.iterate s.links.prev counterActive (2 ^ 32)) = []) := by
  by_cases zero : s.memChunks.card % 2 ^ 32 = 0
  · have passes : s.passes = 2 ^ 32 := if_pos zero
    obtain ⟨p, isP⟩ : ∃ p, p = s.picks swapFree memSwap 0
      (List.iterate s.links.prev counterActive s.passes) := ⟨_, rfl⟩
    have first := firstRound_passes s swapFree memSwap counterActive
    have whole : s.picks swapFree memSwap 0 (List.iterate s.links.prev counterActive (2 ^ 32)) =
        p := by rw [isP, passes]
    rw [← isP] at first
    rw [whole]
    constructor
    · intro agree _
      by_contra nonempty
      have notZero : s.sizes p ≠ 0 := fun nothing => nonempty (sizes_eq_zero (fun x mem => by
        have walked := (picks_sublist swapFree memSwap _ 0).subset (isP ▸ mem)
        rw [List.mem_iterate] at walked
        obtain ⟨k, _, rfl⟩ := walked
        exact positive k) nothing)
      exact swapOutPasses_wraps isP nonempty notZero zero agree
    · intro empty
      rw [State.swapOutPasses, first, Option.bind_some, start_bytes, empty zero,
        if_pos (sizes_nil s)]
      exact (agree_all_iff s []).mpr (by decide)
  · exact iff_of_true (swapOutPasses_agree positive zero) fun isZero => absurd isZero zero

theorem not_selects_of_picks {target : Nat} (pos : 0 < target) :
    ∀ (l : List Nat), s.picks swapFree target 0 l = [] → ∀ x ∈ l, s.selects swapFree 0 x = false
  | [], _ => fun _ mem => by cases mem
  | id :: l, empty => by
      intro x mem
      rw [State.picks, if_pos pos] at empty
      split_ifs at empty with selects
      rcases List.mem_cons.mp mem with rfl | mem
      · exact eq_false_of_ne_true selects
      · exact not_selects_of_picks pos l empty x mem

theorem memSwap_eq (s : State) (allocMax : Nat → Nat) (size : Nat) :
    s.memSwap allocMax size size = size := by
  unfold State.memSwap
  simp only
  split_ifs <;> omega

/-- With the limits that suit it, every eligible chunk that the first round passes is selected. -/
theorem swapOut_agree_iff {active counterActive : Nat}
    (positive : ∀ k, 0 < (s.chunk (s.links.prev^[k] counterActive)).size) :
    (∀ (swapFree minSize : Nat) (allocMax : Nat → Nat), Agree
        (s.swapOutPasses swapFree (s.memSwap allocMax swapFree minSize) active counterActive)) ↔
      (s.memChunks.card % 2 ^ 32 = 0 →
        ∀ k < 2 ^ 32, s.eligible (s.links.prev^[k] counterActive) = false) := by
  simp only [swapOutPasses_agree_iff positive]
  constructor
  · intro agree zero k less
    have empty := agree (s.chunk (s.links.prev^[k] counterActive)).size
      (s.chunk (s.links.prev^[k] counterActive)).size id zero
    rw [memSwap_eq] at empty
    have not := not_selects_of_picks (positive k) _ empty _
      (List.mem_iterate.mpr ⟨k, less, rfl⟩)
    simpa [State.selects] using not
  · intro ineligible swapFree minSize allocMax zero
    refine List.eq_nil_iff_forall_not_mem.mpr fun x mem => ?_
    have eligible := picks_eligible swapFree _ _ _ x mem
    obtain ⟨k, less, rfl⟩ := List.mem_iterate.mp ((picks_sublist swapFree _ _ _).subset mem)
    rw [ineligible zero k less] at eligible
    cases eligible

/-! ### The loops of `swapIn` -/

/-- The chunks that a loop of `swapIn` takes off the list. -/
def State.readPicks (s : State) (l : ReadLimits) : Reading → List Nat → List Nat
  | _, [] => []
  | r, id :: w =>
      if r.selects l (s.chunk id) then
        id :: if (r.add (s.chunk id).size).full l then []
          else readPicks s l (r.add (s.chunk id).size) w
      else readPicks s l r w

section
variable {l : ReadLimits} {oldBorder : Nat}

theorem selectPass_spec (s : State) (l : ReadLimits) : ∀ (w : List Nat) {cur fuel : Nat}
    {r : Reading} {c : Counted} (flags : Nat → Bool),
    Goes s.links.prev cur (cur :: w) oldBorder → oldBorder ∉ w → w.length < fuel →
    ∃ flags', State.selectPass l oldBorder fuel { s with preemptiveLoaded := flags } cur r c =
      some ({ s with preemptiveLoaded := flags' }, c.addAll s (s.readPicks l r (cur :: w))) := by
  intro w
  induction w with
  | nil =>
      intro cur fuel r c flags goes _ enough
      obtain ⟨fuel, rfl⟩ := Nat.exists_eq_succ_of_ne_zero (Nat.ne_zero_of_lt enough)
      have last : s.links.prev cur = oldBorder := goes.2
      simp only [State.selectPass, State.readPicks, last, or_true, if_true, ite_self]
      by_cases selects : r.selects l (s.chunk cur) = true
      · simp only [if_pos selects]
        exact ⟨_, congrArg (fun d => some (_, d)) ((Counted.addAll_nil _ s).symm.trans
          (c.add_addAll s cur []))⟩
      · simp only [if_neg selects, Counted.addAll_nil]
        exact ⟨flags, rfl⟩
  | cons y w ih =>
      intro cur fuel r c flags goes out enough
      obtain ⟨fuel, rfl⟩ := Nat.exists_eq_succ_of_ne_zero (Nat.ne_zero_of_lt enough)
      obtain ⟨_, isY, goes⟩ := goes
      subst isY
      simp only [List.mem_cons, not_or] at out
      have more : s.links.prev cur ≠ oldBorder := fun eq => out.1 eq.symm
      have enough' : w.length < fuel := Nat.lt_of_succ_lt_succ enough
      rw [State.selectPass, State.readPicks]
      simp only [more, or_false]
      by_cases selects : r.selects l (s.chunk cur) = true
      · simp only [if_pos selects]
        by_cases full : (r.add (s.chunk cur).size).full l = true
        · simp only [if_pos full]
          exact ⟨_, congrArg (fun d => some (_, d)) ((Counted.addAll_nil _ s).symm.trans
            (c.add_addAll s cur []))⟩
        · simp only [if_neg full]
          obtain ⟨flags', is⟩ := ih (r := r.add (s.chunk cur).size)
            (c := c.add cur (s.chunk cur).size)
            (Function.update flags cur (decide (0 < r.selectedReadinVol))) ⟨rfl, goes⟩ out.2
            enough'
          rw [Counted.add_addAll] at is
          exact ⟨flags', is⟩
      · simp only [if_neg selects]
        exact ih flags ⟨rfl, goes⟩ out.2 enough'

theorem fillPass_spec (s : State) (l : ReadLimits) (flags : Nat → Bool) : ∀ (w : List Nat)
    {cur fuel : Nat} {r : Reading} (chunks : List Nat),
    Goes s.links.prev cur (cur :: w) oldBorder → oldBorder ∉ w → w.length < fuel →
    State.fillPass { s with preemptiveLoaded := flags } l oldBorder fuel cur r chunks =
      some (chunks ++ s.readPicks l r (cur :: w)) := by
  intro w
  induction w with
  | nil =>
      intro cur fuel r chunks goes _ enough
      obtain ⟨fuel, rfl⟩ := Nat.exists_eq_succ_of_ne_zero (Nat.ne_zero_of_lt enough)
      have last : s.links.prev cur = oldBorder := goes.2
      simp only [State.fillPass, State.readPicks, last, or_true, if_true, ite_self]
      by_cases selects : r.selects l (s.chunk cur) = true
      · simp only [if_pos selects]
      · simp only [if_neg selects, List.append_nil]
  | cons y w ih =>
      intro cur fuel r chunks goes out enough
      obtain ⟨fuel, rfl⟩ := Nat.exists_eq_succ_of_ne_zero (Nat.ne_zero_of_lt enough)
      obtain ⟨_, isY, goes⟩ := goes
      subst isY
      simp only [List.mem_cons, not_or] at out
      have more : s.links.prev cur ≠ oldBorder := fun eq => out.1 eq.symm
      have enough' : w.length < fuel := Nat.lt_of_succ_lt_succ enough
      rw [State.fillPass, State.readPicks]
      simp only [more, or_false]
      by_cases selects : r.selects l (s.chunk cur) = true
      · simp only [if_pos selects]
        by_cases full : (r.add (s.chunk cur).size).full l = true
        · simp only [if_pos full]
        · simp only [if_neg full]
          rw [ih (chunks ++ [cur]) ⟨rfl, goes⟩ out.2 enough', List.append_assoc]
          rfl
      · simp only [if_neg selects]
        exact ih chunks ⟨rfl, goes⟩ out.2 enough'

theorem readPicks_sublist (s : State) (l : ReadLimits) : ∀ (w : List Nat) (r : Reading),
    (s.readPicks l r w).Sublist (w.filter fun id => s.status id = .swapped)
  | [], _ => .slnil
  | id :: w, r => by
      rw [State.readPicks]
      split_ifs with selects full
      · have swapped : s.status id = .swapped := by
          simp only [Reading.selects, decide_eq_true_eq] at selects
          exact selects.2.1
        rw [List.filter_cons_of_pos (by simpa using swapped)]
        exact (List.nil_sublist _).cons_cons id
      · have swapped : s.status id = .swapped := by
          simp only [Reading.selects, decide_eq_true_eq] at selects
          exact selects.2.1
        rw [List.filter_cons_of_pos (by simpa using swapped)]
        exact (readPicks_sublist s l w _).cons_cons id
      · rw [List.filter_cons]
        split_ifs
        · exact (readPicks_sublist s l w r).cons id
        · exact readPicks_sublist s l w r

/-- With enough room, every chunk in the swap is selected. -/
theorem readPicks_all (s : State) (m : Nat) : ∀ (w : List Nat) (r : Reading),
    r.preemptivelySelected ≤ r.selectedReadinVol → r.selectedReadinVol + s.sizes w ≤ m →
    s.readPicks ⟨m, 0, m + 1, m + 1⟩ r w = w.filter fun id => s.status id = .swapped
  | [], _, _, _ => rfl
  | id :: w, r, le, room => by
      rw [sizes_cons] at room
      rw [State.readPicks, List.filter_cons]
      by_cases swapped : s.status id = .swapped
      · have selects : r.selects ⟨m, 0, m + 1, m + 1⟩ (s.chunk id) = true := by
          simp only [Reading.selects, decide_eq_true_eq]
          refine ⟨by omega, swapped, .inr (by omega)⟩
        have le' : (r.add (s.chunk id).size).preemptivelySelected ≤
            (r.add (s.chunk id).size).selectedReadinVol := by
          simp only [Reading.add]
          split_ifs <;> omega
        have notFull : ¬ (r.add (s.chunk id).size).full ⟨m, 0, m + 1, m + 1⟩ = true := by
          simp only [Reading.full, decide_eq_true_eq, not_or, not_and]
          have vol : (r.add (s.chunk id).size).selectedReadinVol =
              r.selectedReadinVol + (s.chunk id).size := rfl
          refine ⟨by omega, fun _ => by omega⟩
        rw [if_pos selects, if_neg notFull, if_pos (by simpa using swapped),
          readPicks_all s m w _ le' (by simp only [Reading.add]; omega)]
      · have not : ¬ r.selects ⟨m, 0, m + 1, m + 1⟩ (s.chunk id) = true := by
          simp only [Reading.selects, decide_eq_true_eq]
          exact fun both => swapped both.2.1
        rw [if_neg not, if_neg (by simpa using swapped), readPicks_all s m w r le (by omega)]

theorem swapInPasses_spec {readEl : Nat}
    (reaches : Reaches s.links.prev oldBorder s.memChunks.card readEl) (l : ReadLimits) :
    ∃ p, p = s.readPicks l ⟨0, 0⟩ (walk s.links.prev oldBorder s.memChunks.card readEl) ∧
      s.swapInPasses l readEl oldBorder = some ⟨Counted.start.addAll s p, p⟩ := by
  obtain ⟨w, isWalk, goes, out, short⟩ := reaches.walk
  refine ⟨_, rfl, ?_⟩
  rw [isWalk]
  obtain ⟨flags, first⟩ := selectPass_spec s l w (r := ⟨0, 0⟩) (c := .start) s.preemptiveLoaded
    goes out short
  have second := fillPass_spec s l flags w (r := ⟨0, 0⟩) [] goes out short
  have same : ({ s with preemptiveLoaded := s.preemptiveLoaded } : State) = s := rfl
  rw [same] at first
  rw [State.swapInPasses, first, Option.bind_some]
  simp only [second, Option.map_some, List.nil_append]

theorem swapIn_agree_iff {readEl : Nat}
    (reaches : Reaches s.links.prev oldBorder s.memChunks.card readEl) :
    (∀ l, Agree (s.swapInPasses l readEl oldBorder)) ↔
      ((walk s.links.prev oldBorder s.memChunks.card readEl).filter fun id =>
        s.status id = .swapped).length < 2 ^ 32 := by
  constructor
  · intro agree
    obtain ⟨m, isM⟩ : ∃ m, m = s.sizes (walk s.links.prev oldBorder s.memChunks.card readEl) :=
      ⟨_, rfl⟩
    obtain ⟨p, isP, passes⟩ := swapInPasses_spec reaches ⟨m, 0, m + 1, m + 1⟩
    have all := agree ⟨m, 0, m + 1, m + 1⟩
    rw [passes, agree_all_iff, isP, readPicks_all s m _ _ le_rfl (by simp [isM])] at all
    exact all
  · intro less l
    obtain ⟨p, isP, passes⟩ := swapInPasses_spec reaches l
    rw [passes, agree_all_iff, isP]
    exact (readPicks_sublist s l _ _).length_le.trans_lt less

end

/-! ### The loops of `decay` -/

/-- The chunks that a loop of `decay` takes off the list. -/
def State.decayPicks (s : State) (l : DecayLimits) : Nat → List Nat → List Nat
  | _, [] => []
  | bytesselected, id :: w =>
      if bytesselected < l.target then
        if l.selects bytesselected (s.chunk id) then
          id :: decayPicks s l (bytesselected + (s.chunk id).size) w
        else decayPicks s l bytesselected w
      else []

/-- The chunks from `preemptiveStart` to the one before `active`. -/
def State.preemptives (s : State) (preemptiveStart active : Nat) : List Nat :=
  if preemptiveStart = active then []
  else walk s.links.next active s.memChunks.card preemptiveStart

/-- The first loop has passed the nodes `v` when it ends on `stop`. -/
theorem decayCount_spec (s : State) (l : DecayLimits) {active : Nat} : ∀ (w : List Nat)
    {cur fuel : Nat} {c : Counted} (flags : Nat → Bool),
    Goes s.links.next cur w active → active ∉ w → w.length < fuel →
    ∃ flags' stop v u, w = v ++ u ∧ Goes s.links.next cur v stop ∧
      Goes s.links.next stop u active ∧
      s.decayPicks l c.bytes v = s.decayPicks l c.bytes w ∧
      State.decayCount l active fuel { s with preemptiveLoaded := flags } cur c =
        some ({ s with preemptiveLoaded := flags' }, stop,
          c.addAll s (s.decayPicks l c.bytes w)) := by
  intro w
  induction w with
  | nil =>
      intro cur fuel c flags goes _ enough
      obtain ⟨fuel, rfl⟩ := Nat.exists_eq_succ_of_ne_zero (Nat.ne_zero_of_lt enough)
      have here : cur = active := goes
      refine ⟨flags, cur, [], [], rfl, rfl, goes, rfl, ?_⟩
      rw [State.decayCount, if_neg fun both => both.1 here, State.decayPicks, Counted.addAll_nil]
  | cons x w ih =>
      intro cur fuel c flags goes out enough
      obtain ⟨fuel, rfl⟩ := Nat.exists_eq_succ_of_ne_zero (Nat.ne_zero_of_lt enough)
      obtain ⟨rfl, goes⟩ := goes
      simp only [List.mem_cons, not_or] at out
      have enough' : w.length < fuel := Nat.lt_of_succ_lt_succ enough
      have ne : cur ≠ active := fun eq => out.1 eq.symm
      by_cases more : c.bytes < l.target
      · by_cases selects : l.selects c.bytes (s.chunk cur) = true
        · obtain ⟨flags', stop, v, u, rfl, first, second, same, is⟩ :=
            ih (c := c.add cur (s.chunk cur).size) (Function.update flags cur false) goes out.2
              enough'
          refine ⟨flags', stop, cur :: v, u, rfl, ⟨rfl, first⟩, second, ?_, ?_⟩
          · simp only [State.decayPicks, if_pos more, if_pos selects]
            exact congrArg (cur :: ·) same
          · simp only [State.decayCount, State.decayPicks, if_pos (And.intro ne more),
              if_pos more, if_pos selects]
            rw [Counted.add_addAll] at is
            exact is
        · obtain ⟨flags', stop, v, u, rfl, first, second, same, is⟩ := ih flags goes out.2 enough'
          refine ⟨flags', stop, cur :: v, u, rfl, ⟨rfl, first⟩, second, ?_, ?_⟩
          · simp only [State.decayPicks, if_pos more, if_neg selects]
            exact same
          · simp only [State.decayCount, State.decayPicks, if_pos (And.intro ne more),
              if_pos more, if_neg selects]
            exact is
      · refine ⟨flags, cur, [], cur :: w, rfl, rfl, ⟨rfl, goes⟩, ?_, ?_⟩
        · simp only [State.decayPicks, if_neg more]
        · rw [State.decayCount, if_neg fun both => more both.2, State.decayPicks, if_neg more,
            Counted.addAll_nil]

theorem decayFill_spec (s : State) (l : DecayLimits) (flags : Nat → Bool) {stop : Nat} :
    ∀ (w : List Nat) {cur fuel bytesselected : Nat} (chunklist : List Nat),
    Goes s.links.next cur w stop → stop ∉ w → w.length < fuel →
    State.decayFill { s with preemptiveLoaded := flags } l stop fuel cur bytesselected chunklist =
      some (chunklist ++ s.decayPicks l bytesselected w) := by
  intro w
  induction w with
  | nil =>
      intro cur fuel bytesselected chunklist goes _ enough
      obtain ⟨fuel, rfl⟩ := Nat.exists_eq_succ_of_ne_zero (Nat.ne_zero_of_lt enough)
      have here : cur = stop := goes
      rw [State.decayFill, if_neg fun both => both.1 here, State.decayPicks, List.append_nil]
  | cons x w ih =>
      intro cur fuel bytesselected chunklist goes out enough
      obtain ⟨fuel, rfl⟩ := Nat.exists_eq_succ_of_ne_zero (Nat.ne_zero_of_lt enough)
      obtain ⟨rfl, goes⟩ := goes
      simp only [List.mem_cons, not_or] at out
      have enough' : w.length < fuel := Nat.lt_of_succ_lt_succ enough
      have ne : cur ≠ stop := fun eq => out.1 eq.symm
      rw [State.decayFill, State.decayPicks]
      by_cases more : bytesselected < l.target
      · rw [if_pos ⟨ne, more⟩, if_pos more]
        by_cases selects : l.selects bytesselected (s.chunk cur) = true
        · simp only [if_pos selects]
          rw [ih (chunklist ++ [cur]) goes out.2 enough', List.append_assoc]
          rfl
        · simp only [if_neg selects]
          exact ih chunklist goes out.2 enough'
      · rw [if_neg fun both => more both.2, if_neg more, List.append_nil]

theorem decayPicks_sublist (s : State) (l : DecayLimits) : ∀ (w : List Nat) (bytesselected : Nat),
    (s.decayPicks l bytesselected w).Sublist (w.filter s.eligible)
  | [], _ => .slnil
  | id :: w, bytesselected => by
      rw [State.decayPicks]
      split_ifs with more selects
      · have eligible : s.eligible id = true := by
          simp only [DecayLimits.selects, decide_eq_true_eq] at selects
          exact decide_eq_true selects.2
        rw [List.filter_cons_of_pos eligible]
        exact (decayPicks_sublist s l w _).cons_cons id
      · rw [List.filter_cons]
        split_ifs
        · exact (decayPicks_sublist s l w _).cons id
        · exact decayPicks_sublist s l w _
      · exact List.nil_sublist _

/-- With enough room, every eligible chunk is selected. -/
theorem decayPicks_all (s : State) (m : Nat) : ∀ (w : List Nat) (bytesselected : Nat),
    bytesselected + s.sizes w ≤ m →
    s.decayPicks ⟨m + 1, m + 1, m + 1⟩ bytesselected w = w.filter s.eligible
  | [], _, _ => rfl
  | id :: w, bytesselected, room => by
      rw [sizes_cons] at room
      have more : bytesselected < DecayLimits.target ⟨m + 1, m + 1, m + 1⟩ := by
        simp only [DecayLimits.target, Nat.min_self]
        omega
      rw [State.decayPicks, if_pos more]
      have selects : DecayLimits.selects ⟨m + 1, m + 1, m + 1⟩ bytesselected (s.chunk id) =
          s.eligible id := by
        have small : (s.chunk id).size + bytesselected < m + 1 := by omega
        simp only [DecayLimits.selects, DecayLimits.swapleft, Nat.min_self, small, true_and]
        exact decide_eq_decide.mpr Iff.rfl
      rw [selects, List.filter_cons]
      split_ifs
      · rw [decayPicks_all s m w _ (by omega)]
      · exact decayPicks_all s m w _ (by omega)

section
variable {preemptiveStart active : Nat}

theorem preemptives_goes
    (reaches : Reaches s.links.next active s.memChunks.card preemptiveStart) :
    Goes s.links.next preemptiveStart (s.preemptives preemptiveStart active) active ∧
      active ∉ s.preemptives preemptiveStart active ∧
      (s.preemptives preemptiveStart active).length ≤ s.memChunks.card := by
  unfold State.preemptives
  split
  · next here => exact ⟨here, List.not_mem_nil, Nat.zero_le _⟩
  · next ne =>
      obtain ⟨w, isWalk, goes, out, short⟩ := reaches.walk
      rw [isWalk]
      refine ⟨goes, ?_, short⟩
      simp only [List.mem_cons, not_or]
      exact ⟨fun eq => ne eq.symm, out⟩

theorem decayPasses_spec
    (reaches : Reaches s.links.next active s.memChunks.card preemptiveStart) (l : DecayLimits) :
    ∃ p, p = s.decayPicks l 0 (s.preemptives preemptiveStart active) ∧
      s.decayPasses l preemptiveStart active = some ⟨Counted.start.addAll s p, p⟩ := by
  obtain ⟨goes, out, short⟩ := preemptives_goes reaches
  obtain ⟨flags, stop, v, u, is, first, second, same, count⟩ := decayCount_spec s l
    (s.preemptives preemptiveStart active) (c := .start) s.preemptiveLoaded goes out
    (Nat.lt_succ_of_le short)
  have stays : ({ s with preemptiveLoaded := s.preemptiveLoaded } : State) = s := rfl
  rw [is] at out
  have outStop := first.not_mem second out
  have shortV : v.length < s.memChunks.card + 1 := by
    rw [is, List.length_append] at short
    omega
  have fill := @decayFill_spec s l flags stop v preemptiveStart _ 0 [] first outStop shortV
  have zero : Counted.start.bytes = 0 := rfl
  rw [zero] at same count
  refine ⟨_, rfl, ?_⟩
  rw [stays] at count
  rw [State.decayPasses, count, Option.bind_some]
  by_cases here : stop = preemptiveStart
  · have empty : v = [] := by
      cases v with
      | nil => rfl
      | cons x v =>
          obtain ⟨rfl, _⟩ := first
          rw [here] at outStop
          exact absurd List.mem_cons_self outStop
    rw [empty, State.decayPicks] at same
    simp only [if_pos here, ← same]
  · simp only [if_neg here, fill, Option.map_some, List.nil_append, same]

theorem decay_agree_iff
    (reaches : Reaches s.links.next active s.memChunks.card preemptiveStart) :
    (∀ l, Agree (s.decayPasses l preemptiveStart active)) ↔
      ((s.preemptives preemptiveStart active).filter s.eligible).length < 2 ^ 32 := by
  constructor
  · intro agree
    obtain ⟨m, isM⟩ : ∃ m, m = s.sizes (s.preemptives preemptiveStart active) := ⟨_, rfl⟩
    obtain ⟨p, isP, passes⟩ := decayPasses_spec reaches ⟨m + 1, m + 1, m + 1⟩
    have all := agree ⟨m + 1, m + 1, m + 1⟩
    rw [passes, agree_all_iff, isP, decayPicks_all s m _ _ (by rw [isM, Nat.zero_add])] at all
    exact all
  · intro less l
    obtain ⟨p, isP, passes⟩ := decayPasses_spec reaches l
    rw [passes, agree_all_iff, isP]
    exact (decayPicks_sublist s l _ _).length_le.trans_lt less

end

/-! ### When the loops agree -/

theorem WellFormed.prev_mem {L : List Nat} (wf : WellFormed s L) {c : Nat} (mem : c ∈ L) (k : Nat) :
    s.links.prev^[k] c ∈ L := by
  induction k with
  | zero => exact mem
  | succ k ih =>
      rw [Function.iterate_succ_apply']
      exact wf.ring.prev_mem ih

theorem passes_agree_iff (s : State) (L : List Nat) (wf : WellFormed s L)
    (positive : ∀ x ∈ L, 0 < (s.chunk x).size)
    (active counterActive readEl oldBorder preemptiveStart : Nat)
    (isActive : s.active = some active) (isCounter : s.counterActive = some counterActive)
    (memEl : readEl ∈ L) (memBorder : oldBorder ∈ L) (memStart : preemptiveStart ∈ L) :
    ((∀ (swapFree minSize : Nat) (allocMax : Nat → Nat), Agree
          (s.swapOutPasses swapFree (s.memSwap allocMax swapFree minSize) active counterActive)) ∧
        (∀ l, Agree (s.swapInPasses l readEl oldBorder)) ∧
        ∀ l, Agree (s.decayPasses l preemptiveStart active)) ↔
      (s.memChunks.card % 2 ^ 32 = 0 →
          ∀ k < 2 ^ 32, s.eligible (s.links.prev^[k] counterActive) = false) ∧
        ((walk s.links.prev oldBorder s.memChunks.card readEl).filter fun id =>
          s.status id = .swapped).length < 2 ^ 32 ∧
        ((s.preemptives preemptiveStart active).filter s.eligible).length < 2 ^ 32 := by
  obtain ⟨a, memActive, isA⟩ := wf.active
  rw [isActive] at isA
  cases isA
  obtain ⟨c, memCounter, isC⟩ := wf.counter
  rw [isCounter] at isC
  cases isC
  have back := wf.ring.reaches_prev memEl memBorder
  have forth := wf.ring.reaches_next memStart memActive
  rw [wf.length] at back forth
  refine and_congr ?_ (and_congr ?_ ?_)
  · exact swapOut_agree_iff fun k => positive _ (wf.prev_mem memCounter k)
  · exact swapIn_agree_iff back
  · exact decay_agree_iff forth

/-- Five chunks are not too many. -/
theorem passes_agree_storedBetween :
    (∀ (swapFree minSize : Nat) (allocMax : Nat → Nat), Agree (storedBetween.swapOutPasses swapFree
        (storedBetween.memSwap allocMax swapFree minSize) 5 4)) ∧
      (∀ l, Agree (storedBetween.swapInPasses l 2 4)) ∧
      ∀ l, Agree (storedBetween.decayPasses l 1 5) := by
  apply (passes_agree_iff storedBetween [1, 2, 3, 4, 5] wellFormed_storedBetween
    (fun _ _ => Nat.one_pos) 5 4 2 4 1 rfl rfl (by decide) (by decide) (by decide)).mpr
  have card : storedBetween.memChunks.card = 5 := rfl
  refine ⟨fun zero => ?_, ?_, ?_⟩
  · rw [card] at zero
    exact absurd zero (by decide)
  · rw [card]
    decide
  · exact lt_of_le_of_lt (List.length_filter_le _ _) (by decide)

/-- The ring `1, ..., n` of chunks of one byte, none of them in use. -/
def crowded (n : Nat) : State where
  links := ⟨fun x => if x = n then 1 else x + 1, fun x => if x = 1 then n else x - 1⟩
  active := some 1
  counterActive := some 1
  chunk := fun _ => ⟨.fresh, 1⟩
  memChunks := Finset.Icc 1 n
  memIDPace := n + 1
  memoryUsed := n
  memoryMax := n
  clock := 0
  lastTouch := fun _ => 0
  preemptiveStart := none
  preemptiveLoaded := fun _ => false
  preemptiveBytes := 0

theorem path_crowded {n : Nat} : ∀ (m k : Nat), 0 < k → k + m ≤ n →
    Path (crowded n).links (List.range' k (m + 1))
  | 0, k, _, _ => path_singleton k
  | m + 1, k, pos, le => by
      have joined : (crowded n).links.Joined k (k + 1) := by
        constructor
        · exact if_neg (by omega)
        · exact if_neg (by omega)
      exact path_cons_cons.mpr ⟨joined, path_crowded m (k + 1) k.succ_pos (by omega)⟩

theorem wellFormed_crowded {n : Nat} (pos : 0 < n) :
    WellFormed (crowded n) (List.range' 1 n) where
  ring := by
    obtain ⟨m, rfl⟩ := Nat.exists_eq_succ_of_ne_zero pos.ne'
    constructor
    · exact List.nodup_range'
    · have last : List.range' 1 (m + 1) = List.range' 1 m ++ [m + 1] := by
        rw [List.range'_1_concat, Nat.add_comm 1 m]
      have head : (List.range' 1 (m + 1)).head?.toList = [1] := rfl
      have path := path_crowded (n := m + 1) m 1 Nat.one_pos (by omega)
      rw [head, last, List.append_assoc, List.singleton_append]
      rw [last] at path
      refine path_split.mpr ⟨path, path_cons_cons.mpr ⟨?_, path_singleton 1⟩⟩
      exact ⟨if_pos rfl, rfl⟩
  mem x := by
    rw [List.mem_range'_1, crowded, Finset.mem_Icc]
    omega
  active := ⟨1, by rw [List.mem_range'_1]; omega, rfl⟩
  counter := ⟨1, by rw [List.mem_range'_1]; omega, rfl⟩
  real mem := by
    rw [List.mem_range'_1] at mem
    omega

theorem crowded_disagrees {n : Nat} (around : n % 2 ^ 32 = 0) :
    ¬ Agree ((crowded n).swapOutPasses 1 ((crowded n).memSwap id 1 1) 1 1) := by
  rw [memSwap_eq, swapOutPasses_agree_iff fun _ => Nat.one_pos]
  intro agree
  have card : (crowded n).memChunks.card % 2 ^ 32 = 0 := by
    rw [crowded, Nat.card_Icc, Nat.add_sub_cancel, around]
  have not := not_selects_of_picks Nat.one_pos _ (agree card) 1
    (List.mem_iterate.mpr ⟨0, by decide, rfl⟩)
  have selected : (crowded n).selects 1 0 1 = true := rfl
  rw [selected] at not
  cases not

/-- With `2 ^ 32` chunks the second round of `swapOut` writes nothing. -/
theorem swapOut_crowded_disagrees :
    WellFormed (crowded (2 ^ 32)) (List.range' 1 (2 ^ 32)) ∧
      (∀ x, 0 < ((crowded (2 ^ 32)).chunk x).size) ∧
      ¬ Agree ((crowded (2 ^ 32)).swapOutPasses 1 ((crowded (2 ^ 32)).memSwap id 1 1) 1 1) := by
  refine ⟨wellFormed_crowded (by decide), fun _ => Nat.one_pos, ?_⟩
  exact crowded_disagrees (Nat.mod_self (2 ^ 32))

end Rambrain.Eviction
