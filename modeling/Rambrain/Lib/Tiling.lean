import Mathlib

/-!
Intervals laid end to end.

A list of entries `(start, a)` tiles `[lo, hi)` when each entry begins where the one before it
ends; `shape` writes the end of each interval next to it. Some entries are gaps (`held a = none`),
and two gaps that meet at a position where they may be joined are one gap.

`Tiles.unique` is the main result: the tiling of an interval is determined by the entries that are
not gaps. Whatever removes some entries and joins the gaps again therefore ends in a state that
does not depend on the order.
-/

namespace Rambrain.Lib

universe u v

variable {α : Type u} {β : Type v}

/-- The entries tile `[lo, hi)`, each with an interval it allows. -/
def Tiles (ok : Nat → α → Nat → Prop) : Nat → List (Nat × α) → Nat → Prop
  | lo, [], hi => lo = hi
  | lo, e :: l, hi => e.1 = lo ∧ ∃ mid, lo < mid ∧ ok lo e.2 mid ∧ Tiles ok mid l hi

/-- Where the entries begin, or the end if there are none. -/
def start : List (Nat × α) → Nat → Nat
  | [], hi => hi
  | e :: _, _ => e.1

/-- The entries with the ends of their intervals. -/
def shape (held : α → Option β) : List (Nat × α) → Nat → List (Nat × Option β × Nat)
  | [], _ => []
  | e :: l, hi => (e.1, held e.2, start l hi) :: shape held l hi

/-- The intervals that are not gaps. -/
def kept (l : List (Nat × Option β × Nat)) : List (Nat × β × Nat) :=
  l.filterMap fun e => e.2.1.map fun b => (e.1, b, e.2.2)

/-- No two gaps meet where they may be joined. -/
def Merged (joins : Nat → Prop) (held : α → Option β) (l : List (Nat × α)) : Prop :=
  l.IsChain fun e f => held e.2 = none → held f.2 = none → ¬ joins f.1

section
variable {ok : Nat → α → Nat → Prop} {joins : Nat → Prop} {held : α → Option β}
  {lo mid hi : Nat} {l l' : List (Nat × α)}

@[simp] theorem tiles_nil : Tiles ok lo [] hi ↔ lo = hi := Iff.rfl

theorem tiles_cons {e : Nat × α} :
    Tiles ok lo (e :: l) hi ↔ e.1 = lo ∧ ∃ mid, lo < mid ∧ ok lo e.2 mid ∧ Tiles ok mid l hi :=
  Iff.rfl

@[simp] theorem start_nil : start ([] : List (Nat × α)) hi = hi := rfl

@[simp] theorem start_cons (e : Nat × α) : start (e :: l) hi = e.1 := rfl

theorem start_append : start (l ++ l') hi = start l (start l' hi) := by
  cases l <;> rfl

theorem Tiles.start_eq (tiles : Tiles ok lo l hi) : start l hi = lo := by
  cases l with
  | nil => exact tiles.symm
  | cons e l => exact tiles.1

theorem Tiles.le (tiles : Tiles ok lo l hi) : lo ≤ hi := by
  induction l generalizing lo with
  | nil => exact tiles.le
  | cons e l ih =>
      obtain ⟨_, mid, less, _, rest⟩ := tiles
      exact less.le.trans (ih rest)

theorem tiles_append :
    Tiles ok lo (l ++ l') hi ↔ ∃ mid, Tiles ok lo l mid ∧ Tiles ok mid l' hi := by
  induction l generalizing lo with
  | nil => simp
  | cons e l ih =>
      simp only [List.cons_append, tiles_cons, ih]
      constructor
      · rintro ⟨begins, mid, less, allowed, mid', first, second⟩
        exact ⟨mid', ⟨begins, mid, less, allowed, first⟩, second⟩
      · rintro ⟨mid', ⟨begins, mid, less, allowed, first⟩, second⟩
        exact ⟨begins, mid, less, allowed, mid', first, second⟩

/-- At a place of the list: what is before it, its interval, what is behind it. -/
theorem tiles_place {k : Nat} {a : α} :
    Tiles ok lo (l ++ (k, a) :: l') hi ↔
      ∃ mid, Tiles ok lo l k ∧ k < mid ∧ ok k a mid ∧ Tiles ok mid l' hi := by
  rw [tiles_append]
  constructor
  · rintro ⟨_, first, rfl, mid, less, allowed, second⟩
    exact ⟨mid, first, less, allowed, second⟩
  · rintro ⟨mid, first, less, allowed, second⟩
    exact ⟨k, first, rfl, mid, less, allowed, second⟩

theorem Tiles.mem_bounds (tiles : Tiles ok lo l hi) {e : Nat × α} (mem : e ∈ l) :
    lo ≤ e.1 ∧ e.1 < hi := by
  induction l generalizing lo with
  | nil => cases mem
  | cons f l ih =>
      obtain ⟨rfl, mid, less, _, rest⟩ := tiles
      rcases List.mem_cons.mp mem with rfl | mem
      · exact ⟨le_rfl, less.trans_le rest.le⟩
      · exact ⟨less.le.trans (ih rest mem).1, (ih rest mem).2⟩

@[simp] theorem shape_nil : shape held ([] : List (Nat × α)) hi = [] := rfl

theorem shape_append :
    shape held (l ++ l') hi = shape held l (start l' hi) ++ shape held l' hi := by
  induction l with
  | nil => rfl
  | cons e l ih => rw [List.cons_append, shape, ih, start_append, shape, List.cons_append]

@[simp] theorem kept_nil : kept ([] : List (Nat × Option β × Nat)) = [] := rfl

theorem kept_append (r r' : List (Nat × Option β × Nat)) : kept (r ++ r') = kept r ++ kept r' :=
  List.filterMap_append

theorem mem_kept {r : List (Nat × Option β × Nat)} {k : Nat} {b : β} :
    (k, b, mid) ∈ kept r ↔ (k, some b, mid) ∈ r := by
  rw [kept, List.mem_filterMap]
  constructor
  · rintro ⟨⟨j, h, m⟩, mem, is⟩
    obtain ⟨c, rfl, eq⟩ := Option.map_eq_some_iff.mp is
    cases eq
    exact mem
  · intro mem
    exact ⟨_, mem, rfl⟩

theorem Merged.left (merged : Merged joins held (l ++ l')) : Merged joins held l :=
  (List.isChain_append.mp merged).1

theorem Merged.right (merged : Merged joins held (l ++ l')) : Merged joins held l' :=
  (List.isChain_append.mp merged).2.1

theorem mem_of_mem_shape {k m : Nat} {h : Option β} (mem : (k, h, m) ∈ shape held l hi) :
    ∃ a, (k, a) ∈ l ∧ held a = h := by
  induction l with
  | nil => cases mem
  | cons e l ih =>
      rcases List.mem_cons.mp mem with eq | mem
      · cases eq
        exact ⟨e.2, List.mem_cons_self, rfl⟩
      · obtain ⟨a, memA, is⟩ := ih mem
        exact ⟨a, List.mem_cons_of_mem _ memA, is⟩

theorem Tiles.of_mem_shape {k m : Nat} {h : Option β} (tiles : Tiles ok lo l hi)
    (mem : (k, h, m) ∈ shape held l hi) : ∃ a, held a = h ∧ k < m ∧ ok k a m := by
  induction l generalizing lo with
  | nil => cases mem
  | cons e l ih =>
      obtain ⟨rfl, mid, less, allowed, rest⟩ := tiles
      rcases List.mem_cons.mp mem with eq | mem
      · cases eq
        rw [rest.start_eq]
        exact ⟨e.2, rfl, less, allowed⟩
      · exact ih rest mem

/-- Every interval ends before the next ones begin. -/
theorem Tiles.apart (tiles : Tiles ok lo l hi) :
    (shape held l hi).Pairwise fun e f => e.2.2 ≤ f.1 := by
  induction l generalizing lo with
  | nil => exact List.Pairwise.nil
  | cons e l ih =>
      obtain ⟨_, mid, _, _, rest⟩ := tiles
      refine List.pairwise_cons.mpr ⟨?_, ih rest⟩
      rintro ⟨k, h, m⟩ mem
      obtain ⟨a, memA, _⟩ := mem_of_mem_shape mem
      rw [rest.start_eq]
      exact (rest.mem_bounds memA).1

/-- What is held where the tiling begins is held by its first entry. -/
theorem Tiles.head_of_kept {e : Nat × α} {m : Nat} {b : β} (tiles : Tiles ok lo (e :: l) hi)
    (mem : (lo, b, m) ∈ kept (shape held (e :: l) hi)) :
    held e.2 = some b ∧ start l hi = m := by
  obtain ⟨_, mid, less, _, rest⟩ := tiles
  rcases List.mem_cons.mp (mem_kept.mp mem) with eq | later
  · obtain ⟨is, meets⟩ := Prod.ext_iff.mp (Prod.ext_iff.mp eq).2
    exact ⟨is.symm, meets.symm⟩
  · obtain ⟨a, memA, _⟩ := mem_of_mem_shape later
    have bound := (rest.mem_bounds memA).1
    exact absurd less (Nat.not_lt.mpr bound)

/-- A gap of one tiling does not end inside a gap of another that holds the same. -/
theorem Tiles.gap_le {e e' : Nat × α} (tiles : Tiles ok lo (e :: l) hi)
    (tiles' : Tiles ok lo (e' :: l') hi)
    (inner : ∀ k a mid, ok k a mid → ∀ p, k < p → p < mid → joins p)
    (merged : Merged joins held (e :: l)) (gap : held e.2 = none)
    (same : kept (shape held (e :: l) hi) = kept (shape held (e' :: l') hi)) :
    start l' hi ≤ start l hi := by
  obtain ⟨_, mid, less, _, rest⟩ := tiles
  obtain ⟨at', mid', less', allowed', rest'⟩ := tiles'
  rw [rest.start_eq, rest'.start_eq]
  by_contra inside
  rw [Nat.not_le] at inside
  cases l with
  | nil =>
      have eq : mid = hi := rest
      have le := rest'.le
      omega
  | cons f l =>
      have joined : joins f.1 := by
        rw [rest.1]
        exact inner lo _ mid' allowed' mid less inside
      obtain ⟨c, is⟩ := Option.ne_none_iff_exists'.mp fun unheld =>
        (List.isChain_cons_cons.mp merged).1 gap unheld joined
      have mem : (f.1, c, start l hi) ∈ kept (shape held (e :: f :: l) hi) := by
        refine mem_kept.mpr (List.mem_cons_of_mem _ ?_)
        rw [shape, is]
        exact List.mem_cons_self
      rw [same] at mem
      have begins := rest.1
      rcases List.mem_cons.mp (mem_kept.mp mem) with eq | later
      · have key := (Prod.ext_iff.mp eq).1
        simp only at key
        omega
      · obtain ⟨a, memA, _⟩ := mem_of_mem_shape later
        have bound := (rest'.mem_bounds memA).1
        simp only at bound
        omega

/-- The shapes of two tilings agree when they hold the same. -/
theorem Tiles.unique (tiles : Tiles ok lo l hi) (tiles' : Tiles ok lo l' hi)
    (inner : ∀ k a mid, ok k a mid → ∀ p, k < p → p < mid → joins p)
    (merged : Merged joins held l) (merged' : Merged joins held l')
    (same : kept (shape held l hi) = kept (shape held l' hi)) :
    shape held l hi = shape held l' hi := by
  induction l generalizing lo l' with
  | nil =>
      cases l' with
      | nil => rfl
      | cons e' l' =>
          obtain ⟨_, mid, less, _, rest⟩ := tiles'
          have le := rest.le
          have eq : lo = hi := tiles
          omega
  | cons e l ih =>
      cases l' with
      | nil =>
          obtain ⟨_, mid, less, _, rest⟩ := tiles
          have le := rest.le
          have eq : lo = hi := tiles'
          omega
      | cons e' l' =>
          have heads : held e.2 = held e'.2 ∧ start l hi = start l' hi := by
            cases is : held e.2 with
            | some b =>
                have mem : (lo, b, start l hi) ∈ kept (shape held (e :: l) hi) := by
                  rw [← tiles.1, mem_kept, shape, is]
                  exact List.mem_cons_self
                rw [same] at mem
                obtain ⟨is', meets⟩ := tiles'.head_of_kept mem
                exact ⟨is'.symm, meets.symm⟩
            | none =>
                cases is' : held e'.2 with
                | some b =>
                    have mem : (lo, b, start l' hi) ∈ kept (shape held (e' :: l') hi) := by
                      rw [← tiles'.1, mem_kept, shape, is']
                      exact List.mem_cons_self
                    rw [← same] at mem
                    rw [(tiles.head_of_kept mem).1] at is
                    cases is
                | none =>
                    exact ⟨rfl, le_antisymm
                      (tiles'.gap_le tiles inner merged' is' same.symm)
                      (tiles.gap_le tiles' inner merged is same)⟩
          obtain ⟨begins, mid, less, allowed, rest⟩ := tiles
          obtain ⟨at', mid', less', allowed', rest'⟩ := tiles'
          have mids : mid = mid' := by
            rw [← rest.start_eq, ← rest'.start_eq]
            exact heads.2
          subst mids
          have keeps : kept (shape held l hi) = kept (shape held l' hi) := by
            rw [shape, shape, heads.1, heads.2, begins, at'] at same
            cases is : held e'.2 with
            | some b =>
                rw [is] at same
                exact (List.cons_eq_cons.mp same).2
            | none =>
                rw [is] at same
                exact same
          rw [shape, shape, ih rest rest' (merged.right (l := [e])) (merged'.right (l := [e']))
            keeps, heads.1, heads.2, begins, at']

end

end Rambrain.Lib
