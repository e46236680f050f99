import Mathlib

/-!
A text scattered over a store.

A store has several media, each with byte offsets. The text is cut into consecutive pieces, and
every piece lies in one stretch. `byteAt es i` is where byte `i` of the text lies, so a text of
`total es` bytes is kept in the stretches `es`, in this order. Stretches that do not meet give the
bytes different places (`byteAt_inj`, `byteAt_ne`). `windows` are the pieces with the positions
where they begin: every byte is in one of them (`mem_windows`, `windows_cover`).

`Keeps store es text known` says that the store holds the known bytes of the text in the stretches.
A byte put where it belongs becomes known (`Keeps.put_own`), and a byte put elsewhere changes
nothing (`Keeps.put_other`).
-/

namespace Rambrain.Lib

universe u v

/-- `size` bytes of a medium, from `offset` on. -/
structure Stretch (ι : Type u) where
  medium : ι
  offset : Nat
  size : Nat
  deriving DecidableEq, Repr

namespace Stretch

variable {ι : Type u} {es fs : List (Stretch ι)} {i j : Nat} {place : ι × Nat}

/-- The place is in the stretch. -/
def Contains (e : Stretch ι) (place : ι × Nat) : Prop :=
  place.1 = e.medium ∧ e.offset ≤ place.2 ∧ place.2 < e.offset + e.size

/-- The stretches have no place in common. -/
def Apart (e f : Stretch ι) : Prop :=
  e.medium = f.medium → e.offset + e.size ≤ f.offset ∨ f.offset + f.size ≤ e.offset

theorem Apart.symm {e f : Stretch ι} (apart : e.Apart f) : f.Apart e :=
  fun same => (apart same.symm).symm

theorem Apart.not_contains {e f : Stretch ι} (apart : e.Apart f) (mem : e.Contains place) :
    ¬ f.Contains place := by
  rintro ⟨medium, le, less⟩
  obtain ⟨medium', le', less'⟩ := mem
  have := apart (medium'.symm.trans medium)
  omega

/-- The bytes of the text. -/
def total (es : List (Stretch ι)) : Nat := (es.map size).sum

@[simp] theorem total_nil : total ([] : List (Stretch ι)) = 0 := rfl

@[simp] theorem total_cons (e : Stretch ι) (es : List (Stretch ι)) :
    total (e :: es) = e.size + total es := rfl

/-- The place of byte `i`. -/
def byteAt : List (Stretch ι) → Nat → Option (ι × Nat)
  | [], _ => none
  | e :: es, i => if i < e.size then some (e.medium, e.offset + i) else byteAt es (i - e.size)

theorem byteAt_eq_none (le : total es ≤ i) : byteAt es i = none := by
  induction es generalizing i with
  | nil => rfl
  | cons e es ih =>
      rw [total_cons] at le
      rw [byteAt, if_neg (by omega)]
      exact ih (by omega)

/-- A byte lies in one of the stretches. -/
theorem byteAt_mem (is : byteAt es i = some place) : ∃ e ∈ es, e.Contains place := by
  induction es generalizing i with
  | nil => cases is
  | cons e es ih =>
      rw [byteAt] at is
      split at is
      · rename_i inside
        cases is
        exact ⟨e, List.mem_cons_self, rfl, Nat.le_add_right _ _, Nat.add_lt_add_left inside _⟩
      · obtain ⟨f, mem, contains⟩ := ih is
        exact ⟨f, List.mem_cons_of_mem _ mem, contains⟩

/-- Two bytes of a text have different places. -/
theorem byteAt_inj (apart : es.Pairwise Apart) (is : byteAt es i = some place)
    (is' : byteAt es j = some place) : i = j := by
  induction es generalizing i j with
  | nil => cases is
  | cons e es ih =>
      obtain ⟨first, rest⟩ := List.pairwise_cons.mp apart
      have beside : ∀ {k}, byteAt es k = some place → ¬ e.Contains place := by
        intro k later contains
        obtain ⟨f, mem, contains'⟩ := byteAt_mem later
        exact (first f mem).not_contains contains contains'
      have inside : ∀ {k}, k < e.size → some (e.medium, e.offset + k) = some place →
          e.Contains place := by
        intro k less here
        cases here
        exact ⟨rfl, Nat.le_add_right _ _, Nat.add_lt_add_left less _⟩
      rw [byteAt] at is is'
      split at is <;> split at is'
      · have same := Option.some.inj (is.trans is'.symm)
        have offset := congrArg Prod.snd same
        exact Nat.add_left_cancel offset
      · exact absurd (inside ‹_› is) (beside is')
      · exact absurd (inside ‹_› is') (beside is)
      · have eq := ih rest is is'
        omega

/-- Texts in stretches that do not meet have no place in common. -/
theorem byteAt_ne (apart : ∀ e ∈ es, ∀ f ∈ fs, e.Apart f) (is : byteAt es i = some place)
    (is' : byteAt fs j = some place) : False := by
  obtain ⟨e, memE, here⟩ := byteAt_mem is
  obtain ⟨f, memF, there⟩ := byteAt_mem is'
  exact (apart e memE f memF).not_contains here there

/-- The pieces of the text, each with the position of its first byte. -/
def windows : Nat → List (Stretch ι) → List (Nat × Stretch ι)
  | _, [] => []
  | start, e :: es => (start, e) :: windows (start + e.size) es

@[simp] theorem windows_snd (start : Nat) (es : List (Stretch ι)) :
    (windows start es).map Prod.snd = es := by
  induction es generalizing start with
  | nil => rfl
  | cons e es ih => rw [windows, List.map_cons, ih]

/-- A window lies in the text. -/
theorem windows_bounds {start : Nat} {w : Nat × Stretch ι} (mem : w ∈ windows start es) :
    start ≤ w.1 ∧ w.1 + w.2.size ≤ start + total es := by
  induction es generalizing start with
  | nil => cases mem
  | cons e es ih =>
      rw [total_cons]
      rcases List.mem_cons.mp mem with rfl | mem
      · exact ⟨Nat.le_refl _, Nat.add_le_add_left (Nat.le_add_right _ _) _⟩
      · obtain ⟨le, le'⟩ := ih mem
        omega

/-- A window shows the bytes that its stretch holds. -/
theorem mem_windows {start : Nat} {w : Nat × Stretch ι} (mem : w ∈ windows start es)
    (less : j < w.2.size) :
    byteAt es (w.1 - start + j) = some (w.2.medium, w.2.offset + j) := by
  induction es generalizing start with
  | nil => cases mem
  | cons e es ih =>
      rcases List.mem_cons.mp mem with rfl | mem
      · rw [byteAt, Nat.sub_self, Nat.zero_add, if_pos less]
      · have above := (windows_bounds mem).1
        rw [byteAt, if_neg (by omega), ← ih mem]
        congr 1
        omega

/-- Every byte is in a window. -/
theorem windows_cover (start : Nat) (less : i < total es) :
    ∃ w ∈ windows start es, w.1 ≤ start + i ∧ start + i < w.1 + w.2.size := by
  induction es generalizing start i with
  | nil => cases less
  | cons e es ih =>
      by_cases here : i < e.size
      · exact ⟨(start, e), List.mem_cons_self, Nat.le_add_right _ _, Nat.add_lt_add_left here _⟩
      · rw [total_cons] at less
        obtain ⟨w, mem, le, within⟩ := ih (start + e.size) (by omega : i - e.size < total es)
        exact ⟨w, List.mem_cons_of_mem _ mem, by omega, by omega⟩

/-- The second window lies behind the first, in another part of the store. -/
def Behind (w x : Nat × Stretch ι) : Prop := w.1 + w.2.size ≤ x.1 ∧ w.2.Apart x.2

theorem windows_behind {start : Nat} (apart : es.Pairwise Apart) :
    (windows start es).Pairwise Behind := by
  induction es generalizing start with
  | nil => exact .nil
  | cons e es ih =>
      obtain ⟨first, rest⟩ := List.pairwise_cons.mp apart
      refine List.pairwise_cons.mpr ⟨fun w mem => ⟨?_, first w.2 ?_⟩, ih rest⟩
      · exact (windows_bounds mem).1
      · rw [← windows_snd (start + e.size) es]
        exact List.mem_map_of_mem mem

/-! ### What a store holds -/

variable {β : Type v} {store : ι → Nat → β} {text : Nat → β} {known known' : Nat → Prop}

/-- The store with one byte changed. -/
def put [DecidableEq ι] (store : ι → Nat → β) (place : ι × Nat) (byte : β) : ι → Nat → β :=
  fun medium offset => if (medium, offset) = place then byte else store medium offset

/-- The known bytes of the text are where they belong. -/
def Keeps (store : ι → Nat → β) (es : List (Stretch ι)) (text : Nat → β) (known : Nat → Prop) :
    Prop :=
  ∀ i place, byteAt es i = some place → known i → store place.1 place.2 = text i

theorem Keeps.mono (keeps : Keeps store es text known)
    (less : ∀ i, i < total es → known' i → known i) : Keeps store es text known' := by
  intro i place is isKnown
  by_cases inside : i < total es
  · exact keeps i place is (less i inside isKnown)
  · rw [byteAt_eq_none (Nat.le_of_not_lt inside)] at is
    cases is

theorem Keeps.put_own [DecidableEq ι] (keeps : Keeps store es text known)
    (apart : es.Pairwise Apart) (is : byteAt es i = some place) :
    Keeps (put store place (text i)) es text fun j => known j ∨ j = i := by
  intro j there isJ isKnown
  unfold put
  split
  · rename_i same
    have same : there = place := same
    rw [byteAt_inj apart is (isJ.trans (congrArg some same))]
  · rename_i other
    apply keeps j there isJ
    rcases isKnown with isKnown | rfl
    · exact isKnown
    · exact absurd (Option.some.inj (isJ.symm.trans is)) other

theorem Keeps.put_other [DecidableEq ι] {byte : β} (keeps : Keeps store es text known)
    (out : ∀ j, byteAt es j ≠ some place) : Keeps (put store place byte) es text known := by
  intro j there isJ isKnown
  unfold put
  split
  · rename_i same
    have same : there = place := same
    exact absurd (isJ.trans (congrArg some same)) (out j)
  · exact keeps j there isJ isKnown

end Stretch

end Rambrain.Lib
