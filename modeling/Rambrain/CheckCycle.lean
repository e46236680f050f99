import Rambrain.RingOps
import Mathlib.Dynamics.PeriodicPts.Defs
import Mathlib.Dynamics.PeriodicPts.Lemmas

/-!
`cyclicManagedMemory::checkCycle` as an oracle.

The checker walks once around the ring from `active` along `next`, then once from
`preemptiveStart` to `active` and on to `preemptiveStart` again. On broken pointers these walks
need not end, so they run on fuel.

`Sane` is what `true` is to mean of the cycle that the first walk goes around, and
`checkCycle_sane_iff` what it is worth: everything is as it should be, except that the flags are
not looked at when `preemptiveStart` stands at `active`, and that chunks are counted modulo
`2 ^ 32`.
-/

namespace Rambrain.Eviction

open Lib Cyclic Function

/-- The manager as `checkCycle` sees it. In a build with `PARENTAL_CONTROL` the root chunk is in
`memChunks` and not on the ring; it is left out here, as it is from `no_reg`. -/
structure Manager extends toPreemptive : State where
  memoryTobefreed : Nat
  /-- `swap->getUsedSwap()`. -/
  usedSwap : Nat

/-- The locals of the first walk. -/
structure Checked where
  encountered : UInt32
  cur : Nat
  usedBytes : Nat
  tobef : Nat
  swappedBytes : Nat
  inActiveOnlySection : Bool
  inSwapsection : Bool
  memerror : Bool
  hasPreemptives : Bool

namespace Manager

variable (m : Manager)

/-- `status == MEM_SWAPPED || status == MEM_SWAPOUT`. -/
def isOut (id : Nat) : Bool := m.status id = .swapped ∨ m.status id = .swapout

/-- What a chunk adds to `memory_used`. -/
def usedBytes (id : Nat) : Nat :=
  if m.inRam id ∨ m.status id = .swapin ∨ m.status id = .swapout then (m.chunk id).size else 0

/-- What a chunk adds to `memory_tobefreed`. -/
def tobefreedBytes (id : Nat) : Nat := if m.status id = .swapout then (m.chunk id).size else 0

/-- What a chunk adds to the used swap. -/
def swappedBytes (id : Nat) : Nat :=
  if m.status id = .swapped ∨ m.status id = .swapin ∨ m.status id = .swapout then
    (m.chunk id).size
  else 0

/-- One round of the first walk. -/
def visit (w : Checked) : Checked :=
  let oldcur := w.cur
  let cur := m.links.next oldcur
  { encountered := w.encountered + 1
    cur
    usedBytes := w.usedBytes + m.usedBytes cur
    tobef := w.tobef + m.tobefreedBytes cur
    swappedBytes := w.swappedBytes + m.swappedBytes cur
    inActiveOnlySection := w.inActiveOnlySection && !decide (m.counterActive = some oldcur)
    inSwapsection :=
      if w.inActiveOnlySection then w.inSwapsection else w.inSwapsection && m.isOut oldcur
    memerror := w.memerror || decide (oldcur ≠ m.links.prev cur) ||
      (if w.inActiveOnlySection then m.isOut oldcur
        else decide (m.status oldcur = .swapped) && !w.inSwapsection)
    hasPreemptives := w.hasPreemptives || m.preemptiveLoaded cur }

/-- The first walk, up to `active`. -/
def walk (active : Nat) : Nat → Checked → Option Checked
  | 0, _ => none
  | fuel + 1, w =>
      if (m.visit w).cur = active then some (m.visit w) else walk active fuel (m.visit w)

/-- Whether all chunks from `cur` up to `stop` have the flag set, or all have it cleared. -/
def eachLoaded (loaded : Bool) (stop : Nat) : Nat → Nat → Option Bool
  | 0, _ => none
  | fuel + 1, cur =>
      if cur = stop then some true
      else (eachLoaded loaded stop fuel (m.links.next cur)).map fun rest =>
        (m.preemptiveLoaded cur == loaded) && rest

/-- The checks of `preemptiveLoaded`: whether they find an error. -/
def illicit (fuel active : Nat) (hasPreemptives : Bool) : Option Bool :=
  match m.preemptiveStart with
  | some start =>
      (m.eachLoaded true active fuel start).bind fun preemptives =>
        (m.eachLoaded false start fuel active).map fun others => !preemptives || !others
  | none => some hasPreemptives

/-- `checkCycle`; `none` when a walk has not ended. -/
def checkCycle (fuel : Nat) : Option Bool :=
  let noReg := UInt32.ofNat m.memChunks.card
  match m.active with
  | none => some (noReg = 0 ∧ m.counterActive = none)
  | some active =>
      (m.walk active fuel ⟨0, active, 0, 0, 0, !m.isOut active, true, false, false⟩).bind
        fun w => (m.illicit fuel active w.hasPreemptives).map fun illicit =>
          !(w.memerror || decide (w.usedBytes ≠ m.memoryUsed) ||
            decide (w.tobef ≠ m.memoryTobefreed) || decide (w.swappedBytes ≠ m.usedSwap) ||
            illicit || decide (w.encountered ≠ noReg))

/-- Following `next` from `active` returns to it, for the first time after `n` steps. -/
structure Returns (active n : Nat) : Prop where
  isActive : m.active = some active
  pos : 0 < n
  back : m.links.next^[n] active = active
  first : ∀ i, 0 < i → i < n → m.links.next^[i] active ≠ active

/-- The chunks from `preemptiveStart` up to `active`, which is the first one of the list. -/
def preemptiveSection (l : List Nat) : List Nat :=
  l.tail.dropWhile fun id => m.preemptiveStart ≠ some id

/-- What `true` is to mean of the nodes on the way from `active` back to it. -/
structure Sane (l : List Nat) : Prop where
  /-- The nodes are distinct and the `prev` links consistent. -/
  ring : Ring m.links l
  count : l.length = m.memChunks.card
  /-- No chunk that is out of RAM lies between a resident `active` and `counterActive`. -/
  active : (∀ a, m.active = some a → m.isOut a = false) →
    ∀ xs id ys, l = xs ++ id :: ys → (∀ x ∈ xs, m.counterActive ≠ some x) →
      m.isOut id = false
  used : m.memoryUsed = (l.map m.usedBytes).sum
  tobefreed : m.memoryTobefreed = (l.map m.tobefreedBytes).sum
  swapped : m.usedSwap = (l.map m.swappedBytes).sum
  preemptive : ∀ id ∈ l, m.preemptiveLoaded id = true ↔ id ∈ m.preemptiveSection l

end Manager

variable {m : Manager} {active : Nat}

/-! ### The first walk -/

theorem walk_spec : ∀ (fuel : Nat) {w w' : Checked}, m.walk active fuel w = some w' →
    ∃ n, 0 < n ∧ w' = m.visit^[n] w ∧ (m.visit^[n] w).cur = active ∧
      ∀ i, 0 < i → i < n → (m.visit^[i] w).cur ≠ active := by
  intro fuel
  induction fuel with
  | zero =>
      intro w w' walked
      cases walked
  | succ fuel ih =>
      intro w w' walked
      rw [Manager.walk] at walked
      split_ifs at walked with arrived
      · cases walked
        exact ⟨1, Nat.one_pos, rfl, arrived, fun i pos lt => by omega⟩
      · obtain ⟨n, pos, is, arrives, before⟩ := ih walked
        refine ⟨n + 1, Nat.succ_pos n, is, arrives, fun i posI lt => ?_⟩
        obtain ⟨i, rfl⟩ : ∃ j, i = j + 1 := ⟨i - 1, by omega⟩
        by_cases zero : i = 0
        · subst zero
          exact arrived
        · exact before i (by omega) (by omega)

theorem visits_cur (n : Nat) (w : Checked) :
    (m.visit^[n] w).cur = m.links.next^[n] w.cur := by
  induction n generalizing w with
  | zero => rfl
  | succ n ih =>
      rw [iterate_succ_apply, ih]
      rfl

theorem visits_encountered (n : Nat) (w : Checked) :
    (m.visit^[n] w).encountered = w.encountered + UInt32.ofNat n := by
  induction n generalizing w with
  | zero => simp
  | succ n ih =>
      rw [iterate_succ_apply, ih, UInt32.ofNat_add]
      simp only [Manager.visit]
      rw [UInt32.add_assoc, UInt32.add_comm 1]
      rfl

/-- The bytes are summed up over the nodes behind the ones passed. -/
theorem visits_bytes (n : Nat) (w : Checked) :
    let passed := List.iterate m.links.next (m.links.next w.cur) n
    (m.visit^[n] w).usedBytes = w.usedBytes + (passed.map m.usedBytes).sum ∧
      (m.visit^[n] w).tobef = w.tobef + (passed.map m.tobefreedBytes).sum ∧
      (m.visit^[n] w).swappedBytes = w.swappedBytes + (passed.map m.swappedBytes).sum ∧
      (m.visit^[n] w).hasPreemptives = (w.hasPreemptives || passed.any m.preemptiveLoaded) := by
  induction n generalizing w with
  | zero => simp
  | succ n ih =>
      obtain ⟨used, tobef, swapped, has⟩ := ih (m.visit w)
      rw [iterate_succ_apply]
      refine ⟨used.trans ?_, tobef.trans ?_, swapped.trans ?_, has.trans ?_⟩
      · simp [Manager.visit, List.iterate, Nat.add_assoc]
      · simp [Manager.visit, List.iterate, Nat.add_assoc]
      · simp [Manager.visit, List.iterate, Nat.add_assoc]
      · simp [Manager.visit, List.iterate, Bool.or_assoc]

/-- Without an error, every link has been found mutual, and no chunk out of RAM has been met
before `counterActive`. -/
theorem visits_memerror (n : Nat) (w : Checked) (ok : (m.visit^[n] w).memerror = false) :
    w.memerror = false ∧
      (∀ id ∈ List.iterate m.links.next w.cur n, m.links.prev (m.links.next id) = id) ∧
      (w.inActiveOnlySection = true → ∀ xs id ys,
        List.iterate m.links.next w.cur n = xs ++ id :: ys →
        (∀ x ∈ xs, m.counterActive ≠ some x) → m.isOut id = false) := by
  induction n generalizing w with
  | zero =>
      refine ⟨ok, fun id mem => absurd mem List.not_mem_nil, fun _ xs id ys is => ?_⟩
      exact absurd is.symm (by simp)
  | succ n ih =>
      obtain ⟨here, links, isSection⟩ := ih (m.visit w) ok
      simp only [Manager.visit, Bool.or_eq_false_iff, decide_eq_false_iff_not, not_not] at here
      obtain ⟨⟨before, inverse⟩, swapped⟩ := here
      refine ⟨before, fun id mem => ?_, fun only xs id ys is untilHere => ?_⟩
      · rcases List.mem_cons.mp mem with rfl | mem
        · exact inverse.symm
        · exact links id mem
      · rw [if_pos only] at swapped
        cases xs with
        | nil =>
            obtain ⟨rfl, _⟩ := List.cons.inj is
            exact swapped
        | cons x xs =>
            obtain ⟨rfl, rest⟩ := List.cons.inj is
            have notCounter := untilHere _ List.mem_cons_self
            refine isSection ?_ xs id ys rest fun x mem => untilHere x (List.mem_cons_of_mem _ mem)
            simp [Manager.visit, only, notCounter]

/-! ### The cycle -/

section
variable {n : Nat} (returns : m.Returns active n)
include returns

theorem Manager.Returns.period : minimalPeriod m.links.next active = n := by
  have periodic : IsPeriodicPt m.links.next n active := returns.back
  refine Nat.le_antisymm (periodic.minimalPeriod_le returns.pos) (Nat.le_of_not_lt fun less => ?_)
  exact returns.first _ (periodic.minimalPeriod_pos returns.pos) less
    (isPeriodicPt_minimalPeriod m.links.next active)

theorem Manager.Returns.nodup : (List.iterate m.links.next active n).Nodup := by
  rw [← List.range_map_iterate]
  refine List.Nodup.map_on (fun i hi j hj same => ?_) List.nodup_range
  have injective := iterate_injOn_Iio_minimalPeriod (f := m.links.next) (x := active)
  rw [returns.period] at injective
  exact injective (List.mem_range.mp hi) (List.mem_range.mp hj) same

/-- One round on from `active`, the same nodes are passed. -/
theorem Manager.Returns.turned :
    (List.iterate m.links.next (m.links.next active) n).Perm
      (List.iterate m.links.next active n) := by
  have both := List.iterate_add m.links.next active n 1
  rw [returns.back] at both
  have last : List.iterate m.links.next active (n + 1) =
      active :: List.iterate m.links.next (m.links.next active) n := rfl
  rw [last] at both
  apply (List.perm_cons active).mp
  rw [both]
  exact List.perm_append_comm

end

theorem path_iterate (n p : Nat)
    (links : ∀ id ∈ List.iterate m.links.next p n, m.links.prev (m.links.next id) = id) :
    Path m.links (List.iterate m.links.next p n ++ [m.links.next^[n] p]) := by
  induction n generalizing p with
  | zero => exact path_singleton p
  | succ n ih =>
      refine List.isChain_cons.mpr ⟨fun b head => ?_, ih (m.links.next p) fun id mem =>
        links id (List.mem_cons_of_mem p mem)⟩
      have is : b = m.links.next p := by
        cases n with
        | zero => simpa using head.symm
        | succ n => simpa [List.iterate] using head.symm
      subst is
      exact ⟨rfl, links p List.mem_cons_self⟩

/-! ### The flags -/

theorem eachLoaded_spec {loaded : Bool} {stop : Nat} : ∀ (fuel : Nat) {p : Nat} {all : Bool},
    m.eachLoaded loaded stop fuel p = some all →
    ∃ n, m.links.next^[n] p = stop ∧ (∀ i < n, m.links.next^[i] p ≠ stop) ∧
      (all = true ↔ ∀ id ∈ List.iterate m.links.next p n, m.preemptiveLoaded id = loaded) := by
  intro fuel
  induction fuel with
  | zero =>
      intro p all walked
      cases walked
  | succ fuel ih =>
      intro p all walked
      rw [Manager.eachLoaded] at walked
      split_ifs at walked with atStart
      · cases walked
        exact ⟨0, atStart, fun i lt => absurd lt (Nat.not_lt_zero i), by simp⟩
      · obtain ⟨rest, further, rfl⟩ := Option.map_eq_some_iff.mp walked
        obtain ⟨n, arrives, before, is⟩ := ih further
        refine ⟨n + 1, arrives, fun i lt => ?_, ?_⟩
        · cases i with
          | zero => exact atStart
          | succ i => exact before i (by omega)
        · rw [Bool.and_eq_true, is]
          simp [List.iterate]

/-- A node off `active` at which the ring is cut in two: the part behind it is what
`preemptiveSection` says. -/
theorem section_eq {start k j : Nat} (atStart : m.preemptiveStart = some start)
    (arrives : m.links.next^[k + 1] active = start)
    (before : ∀ i < k + 1, m.links.next^[i] active ≠ start) :
    m.preemptiveSection (List.iterate m.links.next active (k + 1 + (j + 1))) =
      List.iterate m.links.next start (j + 1) := by
  have parts := List.iterate_add m.links.next (m.links.next active) k (j + 1)
  have atActive : m.links.next^[k] (m.links.next active) = start := arrives
  rw [atActive] at parts
  have body : List.iterate m.links.next active (k + 1 + (j + 1)) =
      active :: (List.iterate m.links.next (m.links.next active) k ++
        List.iterate m.links.next start (j + 1)) := by
    rw [← parts, show k + 1 + (j + 1) = k + (j + 1) + 1 by omega]
    rfl
  rw [Manager.preemptiveSection, body, List.tail_cons, List.dropWhile_append_of_pos]
  · rw [List.iterate, List.dropWhile_cons_of_neg]
    simp [atStart]
  · intro x mem
    obtain ⟨i, lt, rfl⟩ := List.mem_iterate.mp mem
    have ne := before (i + 1) (by omega)
    rw [iterate_succ_apply] at ne
    simp [atStart, Ne.symm ne]

/-- Unless `preemptiveStart` stands at `active`, the flags have been found where they belong. -/
theorem illicit_spec {n fuel : Nat} {has : Bool} (returns : m.Returns active n)
    (found : m.illicit fuel active has = some false)
    (hasIs : has = (List.iterate m.links.next active n).any m.preemptiveLoaded)
    (away : m.preemptiveStart ≠ some active) :
    ∀ id ∈ List.iterate m.links.next active n, m.preemptiveLoaded id = true ↔
      id ∈ m.preemptiveSection (List.iterate m.links.next active n) := by
  intro id mem
  unfold Manager.illicit at found
  cases atStart : m.preemptiveStart with
  | none =>
      rw [atStart] at found
      have lacks : has = false := Option.some.inj found
      rw [lacks] at hasIs
      have clear : m.preemptiveLoaded id = false := by
        have all := List.any_eq_false.mp hasIs.symm id mem
        simpa using all
      have empty : m.preemptiveSection (List.iterate m.links.next active n) = [] := by
        simp [Manager.preemptiveSection, atStart]
      simp [clear, empty]
  | some start =>
      rw [atStart] at found away
      obtain ⟨preemptives, first, found⟩ := Option.bind_eq_some_iff.mp found
      obtain ⟨others, second, found⟩ := Option.map_eq_some_iff.mp found
      simp only [Bool.or_eq_false_iff, Bool.not_eq_false'] at found
      obtain ⟨j, toActive, notBefore, flagged⟩ := eachLoaded_spec fuel first
      obtain ⟨k, toStart, before, cleared⟩ := eachLoaded_spec fuel second
      have flagged := flagged.mp found.1
      have cleared := cleared.mp found.2
      have ne : active ≠ start := fun same => away (same ▸ rfl)
      have posK : k ≠ 0 := by
        rintro rfl
        exact ne toStart
      have less : k < n := by
        by_contra notLess
        have split : m.links.next^[k - n + n] active = start := by
          rw [show k - n + n = k by omega]
          exact toStart
        rw [iterate_add_apply, returns.back] at split
        exact before (k - n) (by have := returns.pos; omega) split
      have whole : k + j = n := by
        have round : m.links.next^[j + k] active = active := by
          rw [iterate_add_apply, toStart]
          exact toActive
        have closes : m.links.next^[n - k] start = active := by
          rw [← toStart, ← iterate_add_apply, show n - k + k = n by omega]
          exact returns.back
        have le : j ≤ n - k := Nat.le_of_not_lt fun more => notBefore _ more closes
        by_contra notWhole
        exact returns.first (j + k) (by omega) (by omega) round
      have posJ : j ≠ 0 := by omega
      obtain ⟨k, rfl⟩ := Nat.exists_eq_succ_of_ne_zero posK
      obtain ⟨j, rfl⟩ := Nat.exists_eq_succ_of_ne_zero posJ
      have nodup := returns.nodup
      have parts := List.iterate_add m.links.next active (k + 1) (j + 1)
      subst whole
      rw [section_eq atStart toStart before]
      rw [toStart] at parts
      rw [parts] at mem nodup
      rcases List.mem_append.mp mem with mem | mem
      · have clear := cleared id mem
        have apart := (List.nodup_append.mp nodup).2.2 id mem
        simp only [clear, Bool.false_eq_true, false_iff]
        exact fun mem' => apart id mem' rfl
      · simp only [flagged id mem, mem]

/-! ### The verdict -/

/-- The locals before the first walk. -/
def Manager.unchecked (m : Manager) (active : Nat) : Checked :=
  ⟨0, active, 0, 0, 0, !m.isOut active, true, false, false⟩

/-- What a walk with the verdict `true` has found. -/
theorem checkCycle_found {n fuel : Nat} (returns : m.Returns active n)
    (ok : m.checkCycle fuel = some true) :
    let w := m.visit^[n] (m.unchecked active)
    w.memerror = false ∧ w.usedBytes = m.memoryUsed ∧ w.tobef = m.memoryTobefreed ∧
      w.swappedBytes = m.usedSwap ∧ m.illicit fuel active w.hasPreemptives = some false ∧
      w.encountered = UInt32.ofNat m.memChunks.card := by
  simp only [Manager.checkCycle, returns.isActive] at ok
  obtain ⟨w, walked, ok⟩ := Option.bind_eq_some_iff.mp ok
  obtain ⟨illicit, found, ok⟩ := Option.map_eq_some_iff.mp ok
  obtain ⟨k, pos, rfl, arrives, before⟩ := walk_spec fuel walked
  rw [visits_cur] at arrives
  -- the walk ends where `next` returns for the first time
  obtain rfl : k = n := by
    refine Nat.le_antisymm (Nat.le_of_not_lt fun more => ?_) (Nat.le_of_not_lt fun less => ?_)
    · apply before n returns.pos more
      rw [visits_cur]
      exact returns.back
    · exact returns.first k pos less arrives
  simp only [Bool.not_eq_true', Bool.or_eq_false_iff, decide_eq_false_iff_not, not_not] at ok
  obtain ⟨⟨⟨⟨⟨memerror, used⟩, tobef⟩, swapped⟩, rfl⟩, encountered⟩ := ok
  exact ⟨memerror, used, tobef, swapped, found, encountered⟩

/-- The loop from `preemptiveStart` to `active` is empty when both are the same. -/
theorem section_at_active {rest : List Nat} (atActive : m.preemptiveStart = some active)
    (nodup : (active :: rest).Nodup) : m.preemptiveSection (active :: rest) = [] := by
  rw [Manager.preemptiveSection, List.tail_cons, List.dropWhile_eq_nil_iff]
  intro x mem
  have ne : active ≠ x := fun same => (List.nodup_cons.mp nodup).1 (same ▸ mem)
  simp [atActive, ne]

/-- When following `next` from `active` returns to it and the verdict is `true`, the ring is sane
in everything the checker is for, if and only if no chunk has its flag set while `preemptiveStart`
stands at `active`, and the nodes and the registered chunks are as many when they are modulo
`2 ^ 32`. -/
theorem checkCycle_sane_iff {n fuel : Nat} (returns : m.Returns active n)
    (ok : m.checkCycle fuel = some true) :
    m.Sane (List.iterate m.links.next active n) ↔
      (m.preemptiveStart = some active →
        ∀ id ∈ List.iterate m.links.next active n, m.preemptiveLoaded id = false) ∧
      (n % 2 ^ 32 = m.memChunks.card % 2 ^ 32 → n = m.memChunks.card) := by
  obtain ⟨memerror, used, tobef, swapped, found, encountered⟩ := checkCycle_found returns ok
  obtain ⟨usedIs, tobefIs, swappedIs, hasIs⟩ := visits_bytes n (m.unchecked active)
  obtain ⟨_, links, isSection⟩ := visits_memerror n (m.unchecked active) memerror
  have turned := returns.turned
  have nodup := returns.nodup
  have length : (List.iterate m.links.next active n).length = n := List.length_iterate _ _ _
  have congruent : n % 2 ^ 32 = m.memChunks.card % 2 ^ 32 := by
    rw [visits_encountered] at encountered
    have toNat := congrArg UInt32.toNat encountered
    simpa [Manager.unchecked] using toNat
  have someNode : ∃ rest, List.iterate m.links.next active n = active :: rest := by
    obtain ⟨k, rfl⟩ := Nat.exists_eq_succ_of_ne_zero returns.pos.ne'
    exact ⟨_, rfl⟩
  obtain ⟨rest, body⟩ := someNode
  constructor
  · intro sane
    refine ⟨fun atActive id mem => ?_, fun _ => length.symm.trans sane.count⟩
    have flagged := sane.preemptive id mem
    rw [body] at flagged nodup
    rw [section_at_active atActive nodup] at flagged
    simpa using flagged
  · rintro ⟨flags, counted⟩
    refine ⟨⟨nodup, ?_⟩, length.trans (counted congruent), fun resident => ?_, ?_, ?_, ?_, ?_⟩
    · have path := path_iterate n active links
      rw [returns.back] at path
      rw [body] at path ⊢
      exact path
    · apply isSection
      simp [Manager.unchecked, resident active returns.isActive]
    · rw [← used, usedIs]
      simpa [Manager.unchecked] using (turned.map m.usedBytes).sum_eq
    · rw [← tobef, tobefIs]
      simpa [Manager.unchecked] using (turned.map m.tobefreedBytes).sum_eq
    · rw [← swapped, swappedIs]
      simpa [Manager.unchecked] using (turned.map m.swappedBytes).sum_eq
    · by_cases atActive : m.preemptiveStart = some active
      · intro id mem
        have clear := flags atActive id mem
        rw [body] at nodup ⊢
        rw [section_at_active atActive nodup]
        simp [clear]
      · refine illicit_spec returns found ?_ atActive
        rw [hasIs]
        simp only [Manager.unchecked, Bool.false_or]
        exact turned.any_eq

/-- A sound ring: `3` is preemptively loaded. -/
def soundCycle : Manager where
  toPreemptive := threeChunks.toPreemptive
  memoryTobefreed := 0
  usedSwap := 0

theorem returns_soundCycle : soundCycle.Returns 1 3 where
  isActive := rfl
  pos := by decide
  back := by decide
  first i pos less := by
    have : i = 1 ∨ i = 2 := by omega
    rcases this with rfl | rfl <;> decide

theorem checkCycle_sane_iff_soundCycle : soundCycle.Sane [1, 2, 3] := by
  have away : soundCycle.preemptiveStart ≠ some 1 := by decide
  have ok : soundCycle.checkCycle 4 = some true := by decide
  exact (checkCycle_sane_iff returns_soundCycle ok).mpr
    ⟨fun atActive => absurd atActive away, fun _ => by decide⟩

/-- The same ring with `preemptiveStart` on `active`. -/
def unseenFlag : Manager where
  toPreemptive := { threeChunks.toPreemptive with preemptiveStart := some 1 }
  memoryTobefreed := 0
  usedSwap := 0

/-- The flag of `3` is not looked at. -/
theorem checkCycle_misses_flag :
    ¬ ∀ (m : Manager) (active n fuel : Nat), m.Returns active n → m.checkCycle fuel = some true →
      m.Sane (List.iterate m.links.next active n) := by
  intro always
  have returns : unseenFlag.Returns 1 3 := ⟨rfl, by decide, returns_soundCycle.back,
    returns_soundCycle.first⟩
  have sane := always unseenFlag 1 3 4 returns (by decide)
  have flagged : 3 ∈ unseenFlag.preemptiveSection [1, 2, 3] :=
    (sane.preemptive 3 (by decide)).mp rfl
  exact absurd flagged (by decide)

end Rambrain.Eviction
