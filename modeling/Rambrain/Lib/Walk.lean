import Rambrain.Lib.Ring

/-!
Walks along one pointer, up to a node that stops them.

`Goes step p w z` says that the walk from `p` passes the nodes `w` and stands on `z` then, and
`walk` computes the nodes up to the first `stop`. A walk is determined by where it begins and where
it first stops (`Goes.unique`), so it passes no node twice (`Goes.not_mem`). On a ring every node
is reached from every other, along either pointer (`Ring.reaches_next`, `Ring.reaches_prev`).
-/

namespace Rambrain.Lib

universe u

variable {N : Type u} {step : N → N} {p q z : N} {v w : List N}

/-- The walk from `p` passes `w` and stands on `z`. -/
def Goes (step : N → N) : N → List N → N → Prop
  | p, [], z => p = z
  | p, x :: w, z => p = x ∧ Goes step (step x) w z

theorem goes_append : Goes step p (v ++ w) z ↔ ∃ q, Goes step p v q ∧ Goes step q w z := by
  induction v generalizing p with
  | nil => simp [Goes]
  | cons x v ih => simp only [List.cons_append, Goes, ih, and_assoc, exists_and_left]

theorem Goes.append (first : Goes step p v q) (second : Goes step q w z) :
    Goes step p (v ++ w) z := goes_append.mpr ⟨q, first, second⟩

/-- There is one walk to the first `z`. -/
theorem Goes.unique (first : Goes step p v z) (second : Goes step p w z) (outV : z ∉ v)
    (outW : z ∉ w) : v = w := by
  induction v generalizing p w with
  | nil =>
      cases first
      cases w with
      | nil => rfl
      | cons x w =>
          cases second.1
          exact absurd List.mem_cons_self outW
  | cons x v ih =>
      obtain ⟨rfl, first⟩ := first
      cases w with
      | nil =>
          cases second
          exact absurd List.mem_cons_self outV
      | cons y w =>
          obtain ⟨rfl, second⟩ := second
          rw [ih first second (fun mem => outV (List.mem_cons_of_mem p mem))
            fun mem => outW (List.mem_cons_of_mem p mem)]

/-- Of two walks from one node, the shorter one is the beginning of the longer one. -/
theorem Goes.begins {z' : N} (first : Goes step p v z) (second : Goes step p w z')
    (le : v.length ≤ w.length) : v <+: w := by
  induction v generalizing p w with
  | nil => exact List.nil_prefix
  | cons x v ih =>
      obtain ⟨rfl, first⟩ := first
      cases w with
      | nil => cases le
      | cons y w =>
          obtain ⟨rfl, second⟩ := second
          exact (List.prefix_cons_inj p).mpr (ih first second (Nat.le_of_succ_le_succ le))

/-- A walk that goes on to its first `z` does not come back to where it is. -/
theorem Goes.not_mem (first : Goes step p v q) (second : Goes step q w z) (out : z ∉ v ++ w) :
    q ∉ v := by
  intro mem
  obtain ⟨a, b, rfl⟩ := List.append_of_mem mem
  obtain ⟨x, _, rest⟩ := goes_append.mp first
  obtain ⟨rfl, rest⟩ := rest
  have long : Goes step x (x :: (b ++ w)) z := ⟨rfl, goes_append.mpr ⟨x, rest, second⟩⟩
  have same := long.unique second (fun mem => out (by simp at mem ⊢; tauto))
    fun mem => out (List.mem_append_right _ mem)
  have length := congrArg List.length same
  simp at length
  omega

section
variable [DecidableEq N] {stop : N} {n : Nat}

/-- The nodes from `x` on, as far as the node before `stop`; at least `x` itself. -/
def walk (step : N → N) (stop : N) : Nat → N → List N
  | 0, _ => []
  | n + 1, x => x :: if step x = stop then [] else walk step stop n (step x)

/-- The walk comes to `stop` within `n` steps, and at least one. -/
def Reaches (step : N → N) (stop : N) : Nat → N → Prop
  | 0, _ => False
  | n + 1, x => step x = stop ∨ Reaches step stop n (step x)

theorem Reaches.walk (reaches : Reaches step stop n p) :
    ∃ w, walk step stop n p = p :: w ∧ Goes step p (p :: w) stop ∧ stop ∉ w ∧ w.length < n := by
  induction n generalizing p with
  | zero => exact reaches.elim
  | succ n ih =>
      rw [Lib.walk]
      by_cases here : step p = stop
      · exact ⟨[], by rw [if_pos here], ⟨rfl, here⟩, List.not_mem_nil, n.succ_pos⟩
      · obtain ⟨w, is, goes, out, short⟩ := ih (reaches.resolve_left here)
        refine ⟨step p :: w, by rw [if_neg here, is], ⟨rfl, goes⟩, ?_, Nat.succ_lt_succ short⟩
        simp only [List.mem_cons, not_or]
        exact ⟨fun eq => here eq.symm, out⟩

end

section
variable {k : Links N} {l : List N} {a b : N}

theorem Path.reaches_next (path : Path k (a :: l)) (mem : b ∈ l) :
    Reaches k.next b l.length a := by
  induction l generalizing a with
  | nil => cases mem
  | cons x l ih =>
      obtain ⟨joined, path⟩ := path_cons_cons.mp path
      rcases List.mem_cons.mp mem with rfl | mem
      · exact .inl joined.1
      · refine .inr ?_
        rw [joined.1]
        exact ih path mem

theorem Path.reaches_prev (path : Path k (l ++ [a])) (mem : b ∈ l) :
    Reaches k.prev b l.length a := by
  induction l using List.reverseRecOn generalizing a with
  | nil => cases mem
  | append_singleton l x ih =>
      rw [List.append_assoc, List.singleton_append] at path
      obtain ⟨before, last⟩ := path_split.mp path
      have joined := (path_cons_cons.mp last).1
      rw [List.length_append, List.length_singleton]
      rcases List.mem_append.mp mem with mem | mem
      · refine .inr ?_
        rw [joined.2]
        exact ih before mem
      · rw [List.mem_singleton] at mem
        exact .inl (joined.2.trans mem.symm)

/-- A ring, read from one of its nodes and back to it. -/
theorem Ring.turn (ring : Ring k l) (mem : a ∈ l) :
    ∃ m, Path k (a :: m ++ [a]) ∧ (a :: m).length = l.length ∧ ∀ x, x ∈ l ↔ x ∈ a :: m := by
  obtain ⟨xs, ys, rfl⟩ := List.append_of_mem mem
  have turned : Ring k (a :: (ys ++ xs)) := ring.rotate
  refine ⟨ys ++ xs, turned.path, ?_, fun x => ?_⟩
  · simp only [List.length_cons, List.length_append]
    omega
  · simp only [List.mem_cons, List.mem_append]
    tauto

theorem Ring.reaches_next (ring : Ring k l) (memA : a ∈ l) (memB : b ∈ l) :
    Reaches k.next b l.length a := by
  obtain ⟨m, path, length, same⟩ := ring.turn memA
  have reaches := Path.reaches_next (l := m ++ [a]) path (b := b) (by
    have mem := (same b).mp memB
    simp only [List.mem_cons, List.mem_append] at mem ⊢
    tauto)
  rwa [List.length_append, List.length_singleton, ← List.length_cons, length] at reaches

theorem Ring.reaches_prev (ring : Ring k l) (memA : a ∈ l) (memB : b ∈ l) :
    Reaches k.prev b l.length a := by
  obtain ⟨m, path, length, same⟩ := ring.turn memA
  rw [← length]
  exact Path.reaches_prev path ((same b).mp memB)

theorem Ring.prev_mem (ring : Ring k l) (mem : a ∈ l) : k.prev a ∈ l := by
  obtain ⟨m, path, _, same⟩ := ring.turn mem
  obtain ⟨init, z, is⟩ := exists_concat (List.cons_ne_nil a m)
  rw [is, List.append_assoc, List.singleton_append] at path
  have joined := (path_cons_cons.mp (path_split.mp path).2).1
  rw [joined.2, same z, is]
  exact List.mem_append_right init List.mem_cons_self

end

end Rambrain.Lib
