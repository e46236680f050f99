import Mathlib

/-!
Arrays of arrays.

A `Nested α d` is an array of arrays of … of `α`, `d` levels deep; the arrays of one level may
have different lengths. `leaves` lists the elements in order.
-/

namespace Rambrain.Lib

universe u v

def Nested (α : Type u) : Nat → Type u
  | 0 => α
  | d + 1 => List (Nested α d)

namespace Nested

variable {α : Type u} {β : Type v}

def leaves : (d : Nat) → Nested α d → List α
  | 0, x => [x]
  | d + 1, xs => List.flatMap (leaves d) xs

def map (f : α → β) : (d : Nat) → Nested α d → Nested β d
  | 0, x => f x
  | d + 1, xs => List.map (map f d) xs

/-- One element, in arrays of length one. -/
def single (x : α) : (d : Nat) → Nested α d
  | 0 => x
  | d + 1 => [single x d]

@[simp] theorem leaves_single (x : α) : ∀ d, leaves d (single x d) = [x]
  | 0 => rfl
  | d + 1 => by
      show List.flatMap (leaves d) [single x d] = [x]
      rw [List.flatMap_singleton, leaves_single x d]

theorem leaves_singles (d : Nat) (xs : List α) :
    (xs.map fun x => single x d).flatMap (leaves d) = xs := by
  induction xs with
  | nil => rfl
  | cons x xs ih => rw [List.map_cons, List.flatMap_cons, leaves_single, ih, List.singleton_append]

theorem leaves_map (f : α → β) : ∀ (d : Nat) (x : Nested α d),
    leaves d (map f d x) = (leaves d x).map f
  | 0, _ => rfl
  | d + 1, (xs : List (Nested α d)) => by
      have inner := funext fun x => leaves_map f d x
      calc (xs.map (map f d)).flatMap (leaves d) = xs.flatMap fun x => leaves d (map f d x) :=
            List.flatMap_map ..
        _ = xs.flatMap fun x => (leaves d x).map f := congrArg (List.flatMap · xs) inner
        _ = (xs.flatMap (leaves d)).map f := List.map_flatMap.symm

end Nested

end Rambrain.Lib
