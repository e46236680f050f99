import Mathlib

/-!
Counting the places of threads.

`n` threads are numbered from 0, and `place i` is where thread `i` stands. `tally n f place` adds up
what `f` gives for their places: with an indicator it counts the threads at a place, with weights it
measures what they have still to do. A step of one thread changes the tally by what it changes at
that thread (`tally_update`), so an invariant over all threads is linear arithmetic after one step.
-/

namespace Rambrain.Lib

universe u

variable {α : Type u} {n i : Nat} {f : α → Nat} {place : Nat → α}

def tally (n : Nat) (f : α → Nat) (place : Nat → α) : Nat := ∑ i ∈ Finset.range n, f (place i)

/-- Thread `i` goes to `x`. -/
theorem tally_update (f : α → Nat) (place : Nat → α) (less : i < n) (x : α) :
    tally n f (Function.update place i x) + f (place i) = tally n f place + f x := by
  have mem : i ∈ Finset.range n := Finset.mem_range.mpr less
  have after := Finset.add_sum_erase (Finset.range n) (fun j => f (Function.update place i x j)) mem
  have before := Finset.add_sum_erase (Finset.range n) (fun j => f (place j)) mem
  have others : ∑ j ∈ (Finset.range n).erase i, f (Function.update place i x j) =
      ∑ j ∈ (Finset.range n).erase i, f (place j) := by
    apply Finset.sum_congr rfl
    intro j memJ
    simp only [Function.update_of_ne (Finset.ne_of_mem_erase memJ)]
  simp only [Function.update_self, others] at after
  unfold tally
  omega

/-- A step that `f` does not see. -/
theorem tally_update_same (f : α → Nat) (place : Nat → α) (less : i < n) {x : α}
    (same : f (place i) = f x) : tally n f (Function.update place i x) = tally n f place := by
  have moved := tally_update f place less x
  omega

theorem le_tally (f : α → Nat) (place : Nat → α) (less : i < n) : f (place i) ≤ tally n f place :=
  Finset.single_le_sum (f := fun j => f (place j)) (fun _ _ => Nat.zero_le _)
    (Finset.mem_range.mpr less)

/-- Something is counted where some thread counts. -/
theorem tally_pos (pos : 0 < tally n f place) : ∃ i, i < n ∧ 0 < f (place i) := by
  by_contra nowhere
  have zero : tally n f place = 0 := by
    apply Finset.sum_eq_zero
    intro i mem
    by_contra positive
    exact nowhere ⟨i, Finset.mem_range.mp mem, Nat.pos_of_ne_zero positive⟩
  omega

theorem tally_of_all (all : ∀ i, i < n → f (place i) = 1) : tally n f place = n := by
  have ones := Finset.sum_congr rfl fun i mem => all i (Finset.mem_range.mp mem)
  unfold tally
  simpa using ones

/-- When as many threads are counted as there are, every thread is. -/
theorem tally_eq_all (f : α → Nat) (place : Nat → α) (most : ∀ x, f x ≤ 1)
    (all : n ≤ tally n f place) (less : i < n) : f (place i) = 1 := by
  by_contra not
  have zero : f (place i) = 0 := by
    have := most (place i)
    omega
  have apart := Finset.add_sum_erase (Finset.range n) (fun j => f (place j))
    (Finset.mem_range.mpr less)
  have rest : ∑ j ∈ (Finset.range n).erase i, f (place j) ≤ ((Finset.range n).erase i).card := by
    have le := Finset.sum_le_card_nsmul ((Finset.range n).erase i) (fun j => f (place j)) 1
      fun j _ => most (place j)
    simpa using le
  simp only [Finset.card_erase_of_mem (Finset.mem_range.mpr less), Finset.card_range] at rest
  unfold tally at all
  omega

end Rambrain.Lib
