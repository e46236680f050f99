import Mathlib

/-!
Doubly linked rings.

`Links` holds the two pointers of every node and `connect a b` writes both ends of one
link. A `Path` is a list whose neighbours are linked both ways, a `Ring` a list without
repetition that is a path and closes on itself. A ring may be read from any of its nodes
(`Ring.rotate`). The surgery lemmas say which list the ring is after nodes are hooked out
(`Ring.unhook`) or a path is hooked in (`Ring.insert`); `Path.connect_off` and
`Path.connect_join` are the two facts they rest on.
-/

namespace Rambrain.Lib

universe u

/-- The pointers of all nodes. -/
structure Links (N : Type u) where
  next : N → N
  prev : N → N

variable {N : Type u}

namespace Links

/-- `a->next = b; b->prev = a;` -/
def connect [DecidableEq N] (k : Links N) (a b : N) : Links N :=
  ⟨Function.update k.next a b, Function.update k.prev b a⟩

/-- The link from `a` to `b`. -/
def Joined (k : Links N) (a b : N) : Prop := k.next a = b ∧ k.prev b = a

end Links

/-- The neighbours in the list are linked. -/
def Path (k : Links N) (l : List N) : Prop := l.IsChain k.Joined

/-- The list is a ring, read from its first node on. -/
structure Ring (k : Links N) (l : List N) : Prop where
  nodup : l.Nodup
  path : Path k (l ++ l.head?.toList)

theorem exists_concat {l : List N} (ne : l ≠ []) : ∃ init z, l = init ++ [z] :=
  ⟨_, _, (List.dropLast_append_getLast ne).symm⟩

/-- The first and the last node of a list. -/
def ends : List N → Option (N × N)
  | [] => none
  | a :: l => some (a, (a :: l).getLast (List.cons_ne_nil a l))

@[simp] theorem ends_nil : ends ([] : List N) = none := rfl

@[simp] theorem ends_singleton (a : N) : ends [a] = some (a, a) := rfl

theorem ends_eq_some {l : List N} {a z : N} :
    ends l = some (a, z) ↔ l.head? = some a ∧ l.getLast? = some z := by
  cases l with
  | nil => simp [ends]
  | cons b l => simp [ends, List.getLast?_cons, List.getLast_eq_getLastD]

theorem ends_of_eq {a z : N} {l init : List N} (is : a :: l = init ++ [z]) :
    ends (a :: l) = some (a, z) :=
  ends_eq_some.mpr ⟨rfl, by rw [is, List.getLast?_concat]⟩

section
variable {k : Links N} {l xs ys : List N} {a b : N}

@[simp] theorem path_nil : Path k [] := .nil

@[simp] theorem path_singleton (a : N) : Path k [a] := .singleton a

theorem path_cons_cons : Path k (a :: b :: l) ↔ k.Joined a b ∧ Path k (b :: l) :=
  List.isChain_cons_cons

/-- A path is split at a node that both parts keep. -/
theorem path_split : Path k (xs ++ a :: ys) ↔ Path k (xs ++ [a]) ∧ Path k (a :: ys) :=
  List.isChain_split

theorem path_append_cons_cons :
    Path k (xs ++ a :: b :: ys) ↔ Path k (xs ++ [a]) ∧ k.Joined a b ∧ Path k (b :: ys) := by
  rw [path_split, path_cons_cons]

theorem Path.left (path : Path k (xs ++ ys)) : Path k xs := List.IsChain.left_of_append path

theorem Path.right (path : Path k (xs ++ ys)) : Path k ys := List.IsChain.right_of_append path

/-- A path depends on the pointers between its nodes only. -/
theorem Path.congr {k' : Links N} (path : Path k l)
    (next : ∀ x ∈ l.dropLast, k'.next x = k.next x) (prev : ∀ y ∈ l.tail, k'.prev y = k.prev y) :
    Path k' l := by
  induction l with
  | nil => exact path_nil
  | cons x l ih =>
      cases l with
      | nil => exact path_singleton x
      | cons y l =>
          obtain ⟨⟨hn, hp⟩, rest⟩ := path_cons_cons.mp path
          refine path_cons_cons.mpr ⟨⟨?_, ?_⟩, ?_⟩
          · rw [next x (by simp), hn]
          · rw [prev y (by simp), hp]
          · refine ih rest (fun z mem => next z ?_) (fun z mem => prev z ?_)
            · simp [mem]
            · exact List.mem_cons_of_mem y mem

end

section
variable [DecidableEq N] {k : Links N} {l xs ys : List N} {a b c d : N}

theorem Links.joined_connect (k : Links N) (a b : N) : (k.connect a b).Joined a b :=
  ⟨Function.update_self .., Function.update_self ..⟩

theorem Links.connect_next (k : Links N) (ne : c ≠ a) : (k.connect a b).next c = k.next c :=
  Function.update_of_ne ne ..

theorem Links.connect_prev (k : Links N) (ne : c ≠ b) : (k.connect a b).prev c = k.prev c :=
  Function.update_of_ne ne ..

theorem Links.connect_comm (k : Links N) (ne : a ≠ c) (ne' : b ≠ d) :
    (k.connect a b).connect c d = (k.connect c d).connect a b := by
  simp [Links.connect, Function.update_comm ne, Function.update_comm ne']

/-- A new link leaves the paths that do not cross its ends. -/
theorem Path.connect_off (path : Path k l) (ha : a ∉ l.dropLast) (hb : b ∉ l.tail) :
    Path (k.connect a b) l :=
  path.congr (fun _ mem => k.connect_next fun is => ha (is ▸ mem))
    fun _ mem => k.connect_prev fun is => hb (is ▸ mem)

/-- A new link joins the path that ends in `a` with the one that starts in `b`. -/
theorem Path.connect_join (left : Path k (xs ++ [a])) (right : Path k (b :: ys))
    (ha : a ∉ xs) (ha' : a ∉ (b :: ys).dropLast) (hb : b ∉ (xs ++ [a]).tail) (hb' : b ∉ ys) :
    Path (k.connect a b) (xs ++ a :: b :: ys) := by
  refine path_append_cons_cons.mpr ⟨?_, k.joined_connect a b, ?_⟩
  · exact left.connect_off (by simpa using ha) hb
  · exact right.connect_off ha' (by simpa using hb')

theorem Path.connect_apart (path : Path k l) (ha : a ∉ l) (hb : b ∉ l) :
    Path (k.connect a b) l :=
  path.connect_off (fun mem => ha (List.mem_of_mem_dropLast mem))
    fun mem => hb (List.mem_of_mem_tail mem)

/-- Link the end of a path to the start of another one. -/
theorem Path.link (left : Path k xs) (right : Path k ys) (endsLeft : ends xs = some (c, a))
    (endsRight : ends ys = some (b, d)) (nodup : (xs ++ ys).Nodup) :
    Path (k.connect a b) (xs ++ ys) := by
  obtain ⟨init, rfl⟩ := List.getLast?_eq_some_iff.mp (ends_eq_some.mp endsLeft).2
  obtain ⟨tail, rfl⟩ := List.head?_eq_some_iff.mp (ends_eq_some.mp endsRight).1
  have apart := (List.nodup_append.mp nodup).2.2
  have nodupLeft := (List.nodup_append.mp nodup).1
  have nodupRight := (List.nodup_append.mp nodup).2.1
  rw [List.append_assoc]
  refine left.connect_join right ?_ (fun mem => ?_) (fun mem => ?_) ?_
  · grind
  · exact apart a (by simp) a (List.mem_of_mem_dropLast mem) rfl
  · exact apart b (List.mem_of_mem_tail mem) b (by simp) rfl
  · exact (List.nodup_cons.mp nodupRight).1

end

/-! ### Rings -/

section
variable {k : Links N} {l xs ys : List N} {a b : N}

theorem Ring.cons (ring : Ring k (a :: l)) : Path k (a :: l ++ [a]) := ring.path

/-- A ring can be read from any node. -/
theorem Ring.rotate (ring : Ring k (xs ++ ys)) : Ring k (ys ++ xs) := by
  have nodup : (ys ++ xs).Nodup := List.nodup_append_comm.mp ring.nodup
  refine ⟨nodup, ?_⟩
  cases xs with
  | nil => simpa using ring.path
  | cons x xs =>
      cases ys with
      | nil => simpa using ring.path
      | cons y ys =>
          have path : Path k ((x :: xs) ++ y :: (ys ++ [x])) := by simpa using ring.path
          obtain ⟨first, second⟩ := path_split.mp path
          have closed : Path k ((y :: ys) ++ x :: (xs ++ [y])) :=
            path_split.mpr ⟨by simpa using second, by simpa using first⟩
          simpa using closed

theorem Ring.joined (ring : Ring k (xs ++ a :: b :: ys)) : k.Joined a b := by
  have path : Path k (xs ++ a :: b :: (ys ++ ((xs ++ a :: b :: ys).head?.toList))) := by
    simpa using ring.path
  exact (path_append_cons_cons.mp path).2.1

/-- The last node links to the first. -/
theorem Ring.joined_last (ring : Ring k (b :: l)) (is : b :: l = xs ++ [a]) : k.Joined a b := by
  have path := ring.cons
  rw [is, List.append_assoc] at path
  exact (path_append_cons_cons.mp path).2.1

/-- Around a ring the node before `a` is the last of the others, read from `a` on. -/
theorem Ring.prev_eq {z : N} (ring : Ring k (xs ++ a :: ys))
    (last : (ys ++ xs).getLast? = some z) : k.prev a = z := by
  obtain ⟨init, body⟩ := List.getLast?_eq_some_iff.mp last
  have turned : Ring k (a :: (ys ++ xs)) := ring.rotate
  exact (turned.joined_last (show a :: (ys ++ xs) = (a :: init) ++ [z] by rw [body]; rfl)).2

theorem Ring.next_eq {z : N} (ring : Ring k (xs ++ a :: ys))
    (head : (ys ++ xs).head? = some z) : k.next a = z := by
  obtain ⟨tail, body⟩ := List.head?_eq_some_iff.mp head
  have turned : Ring k (a :: (ys ++ xs)) := ring.rotate
  rw [body] at turned
  exact (path_cons_cons.mp turned.cons).1.1

theorem Ring.next_prev (ring : Ring k l) (mem : a ∈ l) : k.next (k.prev a) = a := by
  obtain ⟨xs, ys, rfl⟩ := List.append_of_mem mem
  have turned : Ring k (a :: (ys ++ xs)) := ring.rotate
  obtain ⟨init, z, body⟩ := exists_concat (List.cons_ne_nil a _)
  obtain ⟨next, prev⟩ := turned.joined_last body
  rw [prev, next]

end

section
variable [DecidableEq N] {k : Links N} {l sep : List N} {a b f t : N}

/-- Link the end of a path to its own start. -/
theorem Ring.close {z : N} (path : Path k l) (nodup : l.Nodup) (is : ends l = some (a, z)) :
    Ring (k.connect z a) l := by
  refine ⟨nodup, ?_⟩
  obtain ⟨init, rfl⟩ := List.getLast?_eq_some_iff.mp (ends_eq_some.mp is).2
  rw [(ends_eq_some.mp is).1, List.append_assoc]
  obtain ⟨tail, body⟩ := List.head?_eq_some_iff.mp (ends_eq_some.mp is).1
  have ha : a ∉ (init ++ [z]).tail := by
    rw [body] at nodup ⊢
    exact (List.nodup_cons.mp nodup).1
  exact path.connect_join (path_singleton a) (by grind) (by simp) ha (by simp)

/-- Hook the node `a` out. -/
theorem Ring.unhook (ring : Ring k (a :: b :: l)) :
    Ring (k.connect (k.prev a) (k.next a)) (b :: l) := by
  have next : k.next a = b := (path_cons_cons.mp ring.cons).1.1
  obtain ⟨init, z, is⟩ := exists_concat (List.cons_ne_nil b l)
  have prev : k.prev a = z :=
    (ring.joined_last (show a :: b :: l = (a :: init) ++ [z] by rw [is]; rfl)).2
  have nodup : (b :: l).Nodup := (List.nodup_cons.mp ring.nodup).2
  refine ⟨nodup, ?_⟩
  have path : Path k (b :: l) := (path_cons_cons.mp ring.cons).2.left
  rw [next, prev]
  change Path _ (b :: l ++ [b])
  rw [is] at path nodup ⊢
  rw [List.append_assoc]
  have hz : z ∉ init := by grind
  have hb : b ∉ (init ++ [z]).tail := by grind
  exact path.connect_join (path_singleton b) hz (by simp) hb (by simp)

/-- Hook a path in before the node `a`. -/
theorem Ring.insert (ring : Ring k (a :: l)) (path : Path k sep) (is : ends sep = some (f, t))
    (nodup : (sep ++ a :: l).Nodup) :
    Ring ((k.connect (k.prev a) f).connect t a) (sep ++ a :: l) := by
  refine ⟨nodup, ?_⟩
  obtain ⟨init, z, body⟩ := exists_concat (List.cons_ne_nil a l)
  have prev : k.prev a = z := (ring.joined_last body).2
  obtain ⟨rest, rfl⟩ : ∃ rest, sep = f :: rest := by
    obtain ⟨head, _⟩ := ends_eq_some.mp is
    cases sep with
    | nil => cases head
    | cons x rest => exact ⟨rest, by cases head; rfl⟩
  obtain ⟨front, last⟩ := List.getLast?_eq_some_iff.mp (ends_eq_some.mp is).2
  have fresh : ∀ x ∈ f :: rest, x ∉ a :: l := fun x mem mem' =>
    (List.nodup_append.mp nodup).2.2 x mem x mem' rfl
  have nodupSep : (f :: rest).Nodup := (List.nodup_append.mp nodup).1
  have hz : z ∉ f :: rest := fun mem => fresh z mem (by rw [body]; simp)
  -- the old end now leads to `f`
  have wrap : Path (k.connect z f) (a :: (l ++ [f])) := by
    have old : Path k (init ++ [z]) := body ▸ ring.cons.left
    have hf : f ∉ (init ++ [z]).tail := fun mem =>
      fresh f List.mem_cons_self (body ▸ List.mem_of_mem_tail mem)
    have hz' : z ∉ init := by
      have nodupInit := body ▸ ring.nodup
      grind
    have joined := old.connect_join (path_singleton f) hz' (by simp) hf (by simp)
    have same : init ++ [z, f] = a :: (l ++ [f]) := by
      rw [← List.cons_append, body, List.append_assoc]
      rfl
    rwa [same] at joined
  have kept : Path (k.connect z f) (front ++ [t]) := by
    rw [← last]
    exact path.connect_off (fun mem => hz (List.mem_of_mem_dropLast mem))
      (List.nodup_cons.mp nodupSep).1
  have ha : a ∉ front ++ [t] := by
    rw [← last]
    exact fun mem => fresh a mem List.mem_cons_self
  have ht : t ∉ a :: l := fresh t (by rw [last]; simp)
  have closed := kept.connect_join (a := t) (b := a) wrap
    (by rw [last] at nodupSep; grind)
    (by rw [← List.cons_append, List.dropLast_concat]; exact ht)
    (fun mem => ha (List.mem_of_mem_tail mem))
    (by
      have nodupRing := (List.nodup_cons.mp ring.nodup).1
      grind)
  rw [prev]
  have same : front ++ t :: a :: (l ++ [f]) = f :: rest ++ a :: l ++ [f] := by
    rw [last]
    simp
  rw [same] at closed
  exact closed

end

end Rambrain.Lib
