import Rambrain.Lru
import Rambrain.Lib.Walk

/-!
`swapOut` keeps the order of the ring and evicts by recency.

Both rounds walk the ring backwards from `counterActive`. `countUnload_le` and
`collectUnload_spec` say where they stop: every eligible chunk they pass is taken, and the
second round ends inside the chunks in RAM. `reorder_spec` is the surgery after the swap, and
`Order.swapOut` puts them together.
-/

namespace Rambrain.Cyclic

open Lib

variable {s : State} {R S : List Nat}

/-! ### The two rounds -/

/-- From `p` backwards through the list to `z`. -/
abbrev Walks (k : Links Nat) : Nat → List Nat → Nat → Prop := Lib.Goes k.prev

/-- A path is walked back from its last node, to the node before its first one. -/
theorem Path.walks {k : Links Nat} {a z : Nat} {l : List Nat} (path : Lib.Path k (z :: l ++ [a])) :
    Walks k a (a :: l.reverse) z := by
  induction l generalizing z with
  | nil => exact ⟨rfl, (path_cons_cons.mp path).1.2⟩
  | cons x l ih =>
      obtain ⟨joined, rest⟩ := path_cons_cons.mp path
      have tail := ih (z := x) rest
      rw [List.reverse_cons, ← List.cons_append]
      exact tail.append ⟨rfl, joined.2⟩

/-- The bytes of the eligible chunks in a list. -/
def State.bytes (s : State) (l : List Nat) : Nat :=
  ((l.filter s.eligible).map fun id => (s.chunk id).size).sum

@[simp] theorem bytes_nil (s : State) : s.bytes [] = 0 := rfl

theorem bytes_cons_of_eligible {x : Nat} {l : List Nat} (eligible : s.eligible x = true) :
    s.bytes (x :: l) = (s.chunk x).size + s.bytes l := by
  simp [State.bytes, eligible]

theorem bytes_cons_of_not {x : Nat} {l : List Nat} (not : ¬ s.eligible x = true) :
    s.bytes (x :: l) = s.bytes l := by
  simp [State.bytes, not]

theorem bytes_append (s : State) (l l' : List Nat) :
    s.bytes (l ++ l') = s.bytes l + s.bytes l' := by
  simp [State.bytes]

theorem bytes_reverse (s : State) (l : List Nat) : s.bytes l.reverse = s.bytes l := by
  simp [State.bytes, List.filter_reverse, List.sum_reverse]

theorem bytes_eq_zero {l : List Nat} (never : ∀ x ∈ l, ¬ s.eligible x = true) : s.bytes l = 0 := by
  have empty : l.filter s.eligible = [] := List.filter_eq_nil_iff.mpr never
  rw [State.bytes, empty]
  rfl

/-- The first round takes at most what a part of its walk holds that is enough, and at most
what its whole walk holds. -/
theorem countUnload_le (s : State) (memSwap : Nat) {z : Nat} :
    ∀ (w1 w2 : List Nat) {left p size n : Nat}, Walks s.links p (w1 ++ w2) z →
      left ≤ (w1 ++ w2).length → memSwap ≤ size + s.bytes w1 ∨ w2 = [] →
      (s.countUnload memSwap left p size n).1 ≤ size + s.bytes w1 := by
  intro w1
  induction w1 with
  | nil =>
      intro w2 left p size n walks short enough
      cases left with
      | zero => simp [State.countUnload]
      | succ left =>
          rcases enough with enough | rfl
          · rw [State.countUnload, if_neg (by simpa using enough)]
            simp
          · simp at short
  | cons x w1 ih =>
      intro w2 left p size n walks short enough
      obtain ⟨rfl, walks⟩ := walks
      cases left with
      | zero => simp [State.countUnload]
      | succ left =>
          have short : left ≤ (w1 ++ w2).length := by simpa using short
          rw [State.countUnload]
          split
          · split
            · rename_i eligible
              rw [bytes_cons_of_eligible eligible] at enough ⊢
              rw [← Nat.add_assoc] at enough ⊢
              exact ih w2 walks short enough
            · rename_i not
              rw [bytes_cons_of_not not] at enough ⊢
              exact ih w2 walks short enough
          · exact Nat.le_add_right _ _

/-- The second round stops inside a walk that holds enough: it takes every eligible chunk it
passes, and moves `active` only when it takes the last chunk of that walk. -/
theorem collectUnload_spec (s : State) (unloadSize : Nat) {z active : Nat} :
    ∀ (w acc : List Nat) {left p size : Nat}, Walks s.links p w z → w.Nodup →
      w.getLast? = some active → w.length ≤ left → unloadSize ≤ size + s.bytes w →
      ∃ w1 w2 p', w = w1 ++ w2 ∧ Walks s.links p w1 p' ∧ Walks s.links p' w2 z ∧
        unloadSize ≤ size + s.bytes w1 ∧
        s.collectUnload unloadSize left p size acc active =
          (p', acc ++ w1.filter s.eligible, if active ∈ w1.filter s.eligible then z else active) ∧
        (active ∈ w1.filter s.eligible → w2 = [] ∧ size + s.bytes w.dropLast < unloadSize) := by
  intro w
  induction w with
  | nil =>
      intro acc left p size walks nodup last
      cases last
  | cons x w ih =>
      intro acc left p size walks nodup last long enough
      obtain ⟨rfl, walks⟩ := walks
      obtain ⟨left, rfl⟩ : ∃ n, left = n + 1 := ⟨left - 1, by simp at long; omega⟩
      by_cases more : size < unloadSize
      · cases w with
        | nil =>
            obtain rfl : p = active := by simpa using last
            have here : s.links.prev p = z := walks
            by_cases eligible : s.eligible p = true
            · have full : unloadSize ≤ size + (s.chunk p).size := by
                simpa [bytes_cons_of_eligible eligible] using enough
              have stop :
                  s.collectUnload unloadSize left z (size + (s.chunk p).size) (acc ++ [p]) z =
                  (z, acc ++ [p], z) := by
                cases left with
                | zero => rfl
                | succ left => rw [State.collectUnload, if_neg (Nat.not_lt.mpr full)]
              refine ⟨[p], [], z, rfl, ⟨rfl, here⟩, rfl, enough, ?_, fun _ => ⟨rfl, more⟩⟩
              rw [State.collectUnload, if_pos more, if_pos eligible, if_pos rfl, here, stop]
              simp [eligible]
            · rw [bytes_cons_of_not eligible] at enough
              exact absurd more (Nat.not_lt.mpr enough)
        | cons y w =>
            have last : (y :: w).getLast? = some active := by
              rwa [List.getLast?_cons_cons] at last
            have memActive : active ∈ y :: w := List.mem_of_getLast? last
            have ne : active ≠ p := fun eq => (List.nodup_cons.mp nodup).1 (eq ▸ memActive)
            have rest := (List.nodup_cons.mp nodup).2
            have long : (y :: w).length ≤ left := Nat.le_of_succ_le_succ long
            by_cases eligible : s.eligible p = true
            · rw [bytes_cons_of_eligible eligible, ← Nat.add_assoc] at enough
              obtain ⟨w1, w2, p', cut, before, after, full, collected, taken⟩ :=
                ih (acc ++ [p]) walks rest last long enough
              refine ⟨p :: w1, w2, p', by rw [cut]; rfl, ⟨rfl, before⟩, after, ?_, ?_, ?_⟩
              · rwa [bytes_cons_of_eligible eligible, ← Nat.add_assoc]
              · rw [State.collectUnload, if_pos more, if_pos eligible, if_neg ne, collected]
                simp [eligible, ne]
              · intro mem
                have mem : active ∈ w1.filter s.eligible := by simpa [eligible, ne] using mem
                obtain ⟨done, less⟩ := taken mem
                refine ⟨done, ?_⟩
                rw [List.dropLast_cons_cons, bytes_cons_of_eligible eligible, ← Nat.add_assoc]
                exact less
            · rw [bytes_cons_of_not eligible] at enough
              obtain ⟨w1, w2, p', cut, before, after, full, collected, taken⟩ :=
                ih acc walks rest last long enough
              refine ⟨p :: w1, w2, p', by rw [cut]; rfl, ⟨rfl, before⟩, after, ?_, ?_, ?_⟩
              · rwa [bytes_cons_of_not eligible]
              · rw [State.collectUnload, if_pos more, if_neg eligible, collected]
                simp [eligible]
              · intro mem
                have mem : active ∈ w1.filter s.eligible := by simpa [eligible] using mem
                obtain ⟨done, less⟩ := taken mem
                refine ⟨done, ?_⟩
                rw [List.dropLast_cons_cons, bytes_cons_of_not eligible]
                exact less
      · refine ⟨[], p :: w, p, rfl, rfl, ⟨rfl, walks⟩, by simpa using more, ?_, by simp⟩
        rw [State.collectUnload, if_neg more]
        simp

/-! ### The surgery -/

/-- Where `counterActive` stands after the surgery. -/
def Border (kept S2 : List Nat) (active counterActive : Nat) : Prop :=
  kept.getLast? = some counterActive ∨
    (kept = [] ∧ (S2.getLast? = some counterActive ∨ (S2 = [] ∧ counterActive = active)))

/-- `swapOut` takes the separated chunks of the arc out and puts them back behind it. -/
theorem reorder_spec {t : State} {A1 arc S2 : List Nat} {first last fromPos : Nat} (active : Nat)
    (ring : Ring t.links (A1 ++ (arc ++ S2))) (is : ends arc = some (first, last))
    (zero : 0 ∉ A1 ++ (arc ++ S2)) (enough : arc.length ≤ t.memChunks.card)
    (next : t.links.next fromPos = first) (prev : t.links.prev first = fromPos)
    (nonempty : arc.filter t.separateThis ≠ []) :
    ∃ k' counterActive, t.reorder fromPos last active = some { t with
        links := k'
        counterActive := some counterActive
        active := some (if t.inRam active ∨ t.status active = .swapin then active
          else counterActive) } ∧
      Ring k' ((A1 ++ arc.filter fun x => !t.separateThis x) ++
        (arc.filter t.separateThis ++ S2)) ∧
      Border (A1 ++ arc.filter fun x => !t.separateThis x) S2 active counterActive := by
  have turned : Ring t.links (arc ++ (S2 ++ A1)) := by
    have turned := ring.rotate
    rwa [List.append_assoc] at turned
  have zero' : 0 ∉ arc ++ (S2 ++ A1) := by
    simp only [List.mem_append, not_or] at zero ⊢
    tauto
  obtain ⟨k1, filtered, ring1, path1⟩ :=
    filterChain_spec t.separateThis turned is zero' enough
  have nodup := turned.nodup
  have apart := (List.nodup_append.mp nodup).2.2
  have nodupArc := (List.nodup_append.mp nodup).1
  obtain ⟨f, l, sepEnds, sepHead, sepLast⟩ := ends_isSome nonempty
  have fArc : f ∈ arc := (List.mem_filter.mp (List.mem_of_head? sepHead)).1
  have firstArc : first ∈ arc := List.mem_of_head? (ends_eq_some.mp is).1
  -- the chunks separated are none of the others
  have nodupAll : ∀ xs, xs.Perm (arc.filter (fun x => !t.separateThis x) ++ (S2 ++ A1)) →
      (arc.filter t.separateThis ++ xs).Nodup := by
    intro xs perm
    refine (List.Perm.nodup_iff ?_).mp nodup
    have arcPerm : arc.Perm
        (arc.filter t.separateThis ++ arc.filter fun x => !t.separateThis x) :=
      (List.filter_append_perm t.separateThis arc).symm
    refine (arcPerm.append_right _).trans ?_
    rw [List.append_assoc]
    exact List.Perm.append_left _ perm.symm
  generalize keptIs : arc.filter (fun x => !t.separateThis x) = kept at filtered ring1 nodupAll ⊢
  generalize sepIs : arc.filter t.separateThis = sep at *
  have afterIs : ∀ b, (S2 ++ A1).head? = some b → t.links.next last = b ∧ b ≠ first := by
    intro b head
    obtain ⟨init, body⟩ := List.getLast?_eq_some_iff.mp (ends_eq_some.mp is).2
    refine ⟨?_, fun eq => apart first firstArc b (List.mem_of_head? head) eq.symm⟩
    have turned := turned
    rw [body, List.append_assoc] at turned
    refine turned.next_eq (show ((S2 ++ A1) ++ init).head? = some b from ?_)
    rw [List.head?_append, head]
    rfl
  have wholeIs : S2 ++ A1 = [] → t.links.next last = first := by
    intro empty
    obtain ⟨init, body⟩ := List.getLast?_eq_some_iff.mp (ends_eq_some.mp is).2
    obtain ⟨tail, cons⟩ := List.head?_eq_some_iff.mp (ends_eq_some.mp is).1
    have turned := turned
    rw [empty, List.append_nil, cons] at turned
    exact (turned.joined_last (show first :: tail = init ++ [last] by rw [← cons, body])).1
  have rest : Ring k1 ((S2 ++ A1) ++ kept) := ring1.rotate
  -- hooking the separated chunks in before `pos`
  have hooked : ∀ pos, ((S2 ++ A1) ++ kept).head? = some pos →
      Ring (insertBefore k1 pos (some (f, l))) ((A1 ++ kept) ++ (sep ++ S2)) := by
    intro pos head
    obtain ⟨tail, body⟩ := List.head?_eq_some_iff.mp head
    have ring2 : Ring k1 (pos :: tail) := body ▸ rest
    have inserted := insertBefore_spec ring2 path1
      (nodupAll _ (by rw [← body]; exact List.perm_append_comm))
    rw [← body, sepEnds] at inserted
    have same : sep ++ ((S2 ++ A1) ++ kept) = (sep ++ S2) ++ (A1 ++ kept) := by simp
    rw [same] at inserted
    exact inserted.rotate
  have border : ∀ links, Ring links ((A1 ++ kept) ++ (sep ++ S2)) → kept ≠ [] →
      (A1 ++ kept).getLast? = some (links.prev f) := by
    intro links ring2 ne
    obtain ⟨init, z, body⟩ := exists_concat (show A1 ++ kept ≠ [] by simp [ne])
    obtain ⟨sep', rfl⟩ := List.head?_eq_some_iff.mp sepHead
    rw [body, List.append_assoc] at ring2
    rw [body, List.getLast?_concat, (Ring.joined ring2).2]
  by_cases isEmpty : kept = []
  · by_cases whole : S2 ++ A1 = []
    · -- the separated chunks are the whole ring
      obtain ⟨rfl, rfl⟩ := List.append_eq_nil_iff.mp whole
      subst isEmpty
      refine ⟨k1.connect l f, active, ?_, ?_, .inr ⟨rfl, .inr ⟨rfl, rfl⟩⟩⟩
      · simp only [State.reorder, next, filtered, sepEnds, ends_nil, wholeIs rfl, if_true]
      · have nodupSep : sep.Nodup := by simpa using nodupAll [] (List.Perm.refl [])
        simpa using Ring.close path1 nodupSep sepEnds
    · obtain ⟨b, tail, body⟩ := List.exists_cons_of_ne_nil whole
      have head : (S2 ++ A1).head? = some b := by rw [body]; rfl
      obtain ⟨after, ne⟩ := afterIs b head
      subst isEmpty
      refine ⟨insertBefore k1 b (some (f, l)), fromPos, ?_, hooked b (by simpa using head), ?_⟩
      · simp only [State.reorder, next, prev, filtered, sepEnds, ends_nil, after, if_neg ne]
      · rw [List.append_nil]
        obtain ⟨tail', cons⟩ := List.head?_eq_some_iff.mp (ends_eq_some.mp is).1
        have turned := turned
        rw [cons] at turned
        have before : ∀ z, (tail' ++ (S2 ++ A1)).getLast? = some z → fromPos = z := by
          intro z atLast
          rw [← prev]
          exact (show Ring t.links ([] ++ first :: (tail' ++ (S2 ++ A1))) from turned).prev_eq
            (by simpa using atLast)
        rcases List.eq_nil_or_concat A1 with rfl | ⟨A1, z, rfl⟩
        · have ne : S2 ≠ [] := by simpa using whole
          obtain ⟨init, z, rfl⟩ := exists_concat ne
          rw [before z (by simp [List.getLast?_append])]
          exact .inr ⟨rfl, .inl (by simp)⟩
        · rw [List.concat_eq_append] at before ⊢
          rw [before z (by simp [List.getLast?_append])]
          exact .inl (by simp)
  · obtain ⟨a, z, keptEnds, keptHead, keptLast⟩ := ends_isSome isEmpty
    by_cases whole : S2 ++ A1 = []
    · obtain ⟨rfl, rfl⟩ := List.append_eq_nil_iff.mp whole
      have head : (([] ++ []) ++ kept).head? = some a := keptHead
      have closed : k1.next z = a := by
        obtain ⟨init, body⟩ := List.getLast?_eq_some_iff.mp keptLast
        obtain ⟨tail, cons⟩ := List.head?_eq_some_iff.mp keptHead
        have rest : Ring k1 kept := rest
        rw [cons] at rest
        exact (rest.joined_last (show a :: tail = init ++ [z] by rw [← cons, body])).1
      have ring2 := hooked a head
      refine ⟨_, _, ?_, ring2, .inl (border _ ring2 isEmpty)⟩
      simp only [State.reorder, next, filtered, sepEnds, keptEnds, wholeIs rfl, if_true,
        Option.getD_none, closed]
    · obtain ⟨b, tail, body⟩ := List.exists_cons_of_ne_nil whole
      have head : (S2 ++ A1).head? = some b := by rw [body]; rfl
      obtain ⟨after, ne⟩ := afterIs b head
      have ring2 := hooked b (by rw [List.head?_append, head]; rfl)
      refine ⟨_, _, ?_, ring2, .inl (border _ ring2 isEmpty)⟩
      simp only [State.reorder, next, filtered, sepEnds, keptEnds, after, if_neg ne,
        Option.getD_some]

/-! ### The whole call -/

theorem Walks.prev_last {k : Links Nat} {p z x : Nat} {w : List Nat} (walks : Walks k p w z)
    (last : w.getLast? = some x) : k.prev x = z := by
  induction w generalizing p with
  | nil => cases last
  | cons y w ih =>
      cases w with
      | nil =>
          obtain rfl : y = x := by simpa using last
          obtain ⟨rfl, here⟩ := walks
          exact here
      | cons y' w => exact ih walks.2 (by rwa [List.getLast?_cons_cons] at last)

/-- `counterActive` splits the swapped chunks. -/
theorem Counter.split {counterActive : Nat} (counter : Counter R S (some counterActive)) :
    ∃ S1 S2, S = S1 ++ S2 ∧ (R ++ S1).getLast? = some counterActive := by
  rcases counter with ⟨c, hc, is⟩ | ⟨_, is⟩
  · cases is
    obtain ⟨xs, ys, rfl⟩ := List.append_of_mem hc
    exact ⟨xs ++ [counterActive], ys, by simp, by rw [← List.append_assoc, List.getLast?_concat]⟩
  · exact ⟨[], S, rfl, by rw [List.append_nil]; exact is.symm⟩

/-- The walk from `counterActive` back to `active`, and on around the ring. -/
theorem Ring.walks {k : Links Nat} {L S2 : List Nat} {c : Nat} (ring : Lib.Ring k (L ++ S2))
    (last : L.getLast? = some c) :
    ∃ z, (S2.getLast? = some z ∨ (S2 = [] ∧ z = c)) ∧ Walks k c L.reverse z ∧
      ∃ z', Walks k c (L.reverse ++ S2.reverse) z' := by
  obtain ⟨l, rfl⟩ := List.getLast?_eq_some_iff.mp last
  have back : ∀ z, Lib.Path k (z :: l ++ [c]) → Walks k c (l ++ [c]).reverse z := by
    intro z path
    rw [List.reverse_append, List.reverse_singleton]
    exact Path.walks path
  rcases List.eq_nil_or_concat S2 with rfl | ⟨init, z, rfl⟩
  · have path : Lib.Path k (c :: l ++ [c]) := by
      rw [List.append_nil] at ring
      have turned : Lib.Ring k ([c] ++ l) := ring.rotate
      exact turned.path
    exact ⟨c, .inr ⟨rfl, rfl⟩, back c path, c, by simpa using back c path⟩
  · rw [List.concat_eq_append] at ring ⊢
    have path : Lib.Path k (z :: l ++ [c]) := by
      have turned := ring.rotate
      rw [List.append_assoc] at turned
      exact (show Lib.Path k (init ++ ([z] ++ (l ++ [c]))) from turned.path.left).right
    have more : Lib.Path k (c :: init ++ [z]) := by
      rw [List.append_assoc] at ring
      exact (show Lib.Path k (l ++ ([c] ++ (init ++ [z]))) from ring.path.left).right
    refine ⟨z, .inl (by simp), back z path, c, (back z path).append ?_⟩
    rw [List.reverse_append, List.reverse_singleton]
    exact Path.walks more

theorem Order.length (order : Order s R S) : (R ++ S).length = s.memChunks.card := by
  have same : (R ++ S).toFinset = s.memChunks := by
    ext x
    rw [List.mem_toFinset]
    exact order.mem x
  rw [← same, List.toFinset_card_of_nodup order.ring.nodup]

theorem Order.eligible_inRam (order : Order s R S) {x : Nat} (mem : x ∈ R ++ S)
    (eligible : s.eligible x = true) : x ∈ R := by
  refine (List.mem_append.mp mem).resolve_right fun hS => ?_
  have swapped := order.swapped x hS
  simp [State.eligible, swapped] at eligible

/-- What a call of `swapOut` that swaps something has done: `A1` is what its second round has
not reached, `R2` the chunks in RAM it has passed. -/
structure Unloaded (allocMax : Nat → Nat) (minSize : Nat) (s : State) (R S : List Nat) (t : State)
    (A1 R2 S1 S2 unloadlist : List Nat) (active moved counterActive : Nat) : Prop where
  inRam : R = A1 ++ R2
  swapped : S = S1 ++ S2
  isActive : s.active = some active
  limit : minSize ≤ s.memoryMax
  list : ∀ x, x ∈ unloadlist ↔ x ∈ R2 ∧ s.eligible x = true
  nonempty : unloadlist ≠ []
  isMoved : moved = active ∧ active ∉ unloadlist ∨
    active ∈ unloadlist ∧ (S2.getLast? = some moved ∨ (S2 = [] ∧ (R2 ++ S1).getLast? = some moved))
  all : active ∈ unloadlist → A1 = [] ∧
    s.bytes R.tail < s.memSwap allocMax minSize
  ring : Ring t.links ((A1 ++ R2.filter fun x => !s.eligible x) ++
    (R2.filter s.eligible ++ (S1 ++ S2)))
  border : Border (A1 ++ R2.filter fun x => !s.eligible x) S2 moved counterActive
  result : t = { s.dummySwapOut unloadlist with
    links := t.links
    counterActive := some counterActive
    active := some (if (s.dummySwapOut unloadlist).inRam moved ∨
        (s.dummySwapOut unloadlist).status moved = .swapin then moved else counterActive) }

theorem dummySwapOut_status (s : State) (unloadlist : List Nat) (x : Nat) :
    (s.dummySwapOut unloadlist).status x = if x ∈ unloadlist then .swapped else s.status x := by
  by_cases mem : x ∈ unloadlist
  · simp [State.status, State.dummySwapOut, mem]
  · simp [State.status, State.dummySwapOut, mem]

theorem Order.swapOut_cases (order : Order s R S) {allocMax : Nat → Nat} {minSize : Nat}
    {t : State} (taken : s.swapOut allocMax minSize = some t) :
    t = s ∨ ∃ A1 R2 S1 S2 unloadlist active moved counterActive,
      Unloaded allocMax minSize s R S t A1 R2 S1 S2 unloadlist active moved counterActive := by
  cases isActive : s.active with
  | none =>
      simp only [State.swapOut, isActive] at taken
      exact .inl (Option.some.inj taken).symm
  | some active =>
  cases isCounter : s.counterActive with
  | none =>
      simp only [State.swapOut, isActive, isCounter] at taken
      exact .inl (Option.some.inj taken).symm
  | some counterActive =>
  simp only [State.swapOut, isActive, isCounter] at taken
  split at taken
  · exact .inl (Option.some.inj taken).symm
  rename_i limit
  have counter : Counter R S (some counterActive) := isCounter ▸ order.counter
  obtain ⟨S1, S2, rfl, last⟩ := counter.split
  have ring : Ring s.links ((R ++ S1) ++ S2) := by
    rw [List.append_assoc]
    exact order.ring
  have nodup := ring.nodup
  have nodupL : (R ++ S1).Nodup := (List.nodup_append.mp nodup).1
  obtain ⟨z, zIs, walk, z', around⟩ := Ring.walks ring last
  have size : s.memChunks.card = ((R ++ S1).reverse ++ S2.reverse).length := by
    rw [← order.length]
    simp only [List.length_append, List.length_reverse]
    omega
  generalize counted : s.countUnload (s.memSwap allocMax minSize) s.memChunks.card counterActive
    0 0 = count at taken
  have total : count.1 ≤ s.bytes (R ++ S1) := by
    have le : (s.countUnload (s.memSwap allocMax minSize) s.memChunks.card counterActive 0 0).1 ≤
        0 + s.bytes ((R ++ S1).reverse ++ S2.reverse) :=
      countUnload_le s (s.memSwap allocMax minSize) ((R ++ S1).reverse ++ S2.reverse) []
        (by rw [List.append_nil]; exact around) (by rw [List.append_nil, size]) (.inr rfl)
    have noneS2 : s.bytes S2 = 0 := bytes_eq_zero fun x hx eligible =>
      (List.nodup_append.mp nodup).2.2 x
        (List.mem_append_left S1 (order.eligible_inRam (by simp [hx]) eligible)) x hx rfl
    rw [counted, bytes_append, bytes_reverse, bytes_reverse, noneS2] at le
    simpa using le
  split at taken
  · exact .inl (Option.some.inj taken).symm
  rename_i positive
  refine .inr ?_
  -- some chunk in RAM is eligible, so `active` is in RAM
  have someR : R ≠ [] := by
    rintro rfl
    have zero : s.bytes ([] ++ S1) = 0 := bytes_eq_zero fun x hx eligible => by
      cases order.eligible_inRam (by simpa using Or.inl hx) eligible
    omega
  obtain ⟨a, R', rfl⟩ := List.exists_cons_of_ne_nil someR
  obtain rfl : active = a := by
    have head := order.active
    rw [isActive] at head
    exact Option.some.inj head
  have lastWalk : (active :: R' ++ S1).reverse.getLast? = some active := by
    rw [List.getLast?_reverse]
    rfl
  have long : (active :: R' ++ S1).reverse.length ≤ s.memChunks.card := by
    rw [size, List.length_append]
    exact Nat.le_add_right _ _
  obtain ⟨w1, w2, fromPos, body, before, after, full, collected, takes⟩ :=
    collectUnload_spec s count.1 (active :: R' ++ S1).reverse [] walk
      (List.nodup_reverse.mpr nodupL) lastWalk long
      (show count.1 ≤ 0 + s.bytes _ by rw [bytes_reverse, Nat.zero_add]; exact total)
  rw [collected] at taken
  simp only [List.nil_append] at taken
  split at taken
  case isFalse => cases taken
  rename_i complete
  rw [Nat.zero_add] at full
  have bytesPos : s.bytes w1 ≠ 0 := by omega
  have parts : active :: R' ++ S1 = w2.reverse ++ w1.reverse := by
    rw [← List.reverse_append, ← body, List.reverse_reverse]
  -- the second round has gone into the chunks in RAM
  obtain ⟨R2, rIs, arcIs⟩ : ∃ R2, active :: R' = w2.reverse ++ R2 ∧ w1.reverse = R2 ++ S1 := by
    rcases List.append_eq_append_iff.mp parts with ⟨as, _, inS1⟩ | found
    · refine absurd (bytes_eq_zero fun x hx eligible => ?_) bytesPos
      have memS1 : x ∈ S1 := by
        rw [inS1]
        simp [hx]
      have inR := order.eligible_inRam (by simp [memS1]) eligible
      exact (List.nodup_append.mp nodupL).2.2 x inR x memS1 rfl
    · exact found
  have w1Ne : w1 ≠ [] := by
    rintro rfl
    exact bytesPos rfl
  obtain ⟨first, firstTail, w1Is⟩ := List.exists_cons_of_ne_nil (List.reverse_ne_nil_iff.mpr w1Ne)
  have arcLast : w1.reverse.getLast? = some counterActive := by
    rw [parts, List.getLast?_append_of_ne_nil _ (List.reverse_ne_nil_iff.mpr w1Ne)] at last
    exact last
  have arcEnds : ends w1.reverse = some (first, counterActive) :=
    ends_eq_some.mpr ⟨by rw [w1Is]; rfl, arcLast⟩
  have w1Last : w1.getLast? = some first := by
    rw [← List.head?_reverse, w1Is]
    rfl
  have prev : s.links.prev first = fromPos := before.prev_last w1Last
  have ringParts : Ring s.links (w2.reverse ++ (w1.reverse ++ S2)) := by
    rw [← List.append_assoc, ← parts]
    exact ring
  have firstMem : first ∈ w2.reverse ++ (w1.reverse ++ S2) := by
    rw [w1Is]
    simp
  have next : s.links.next fromPos = first := by
    rw [← prev]
    exact ringParts.next_prev firstMem
  have zero : 0 ∉ w2.reverse ++ (w1.reverse ++ S2) := by
    rw [← List.append_assoc, ← parts, List.append_assoc]
    exact fun mem => Nat.lt_irrefl 0 (order.ids 0 ((order.mem 0).mp mem)).1
  have inList : ∀ x, x ∈ w1.filter s.eligible ↔ x ∈ R2 ∧ s.eligible x = true := by
    intro x
    rw [List.mem_filter, ← List.mem_reverse, arcIs, List.mem_append]
    refine ⟨fun ⟨mem, eligible⟩ => ⟨mem.resolve_right fun hS => ?_, eligible⟩,
      fun ⟨mem, eligible⟩ => ⟨.inl mem, eligible⟩⟩
    have inR := order.eligible_inRam (by simp [hS]) eligible
    exact (List.nodup_append.mp nodupL).2.2 x inR x hS rfl
  have separates : ∀ x ∈ R2 ++ S1, (s.dummySwapOut (w1.filter s.eligible)).separateThis x =
      (decide (x ∈ S1) || s.eligible x) := by
    intro x mem
    unfold State.separateThis
    rw [dummySwapOut_status]
    rcases List.mem_append.mp mem with hR | hS
    · have out : x ∉ S1 := fun hS => by
        have memR : x ∈ active :: R' := by
          rw [rIs]
          simp [hR]
        exact (List.nodup_append.mp nodupL).2.2 x memR x hS rfl
      have inRam : (s.status x).hasFlag .allocated = true :=
        order.inRam x (by rw [rIs]; simp [hR])
      by_cases eligible : s.eligible x = true
      · rw [if_pos ((inList x).mpr ⟨hR, eligible⟩), eligible]
        simp
      · rw [if_neg (fun h => eligible ((inList x).mp h).2)]
        rcases (MemoryStatus.hasFlag_allocated _).mp inRam with is | is | is <;>
          simp [is, out, eligible]
    · have swapped := order.swapped x (by simp [hS])
      have notIn : x ∉ w1.filter s.eligible := fun h => by
        have eligible := ((inList x).mp h).2
        simp [State.eligible, swapped] at eligible
      rw [if_neg notIn, swapped]
      simp [hS]
  have disjoint : ∀ x ∈ R2, x ∉ S1 := fun x hR hS => by
    have memR : x ∈ active :: R' := by
      rw [rIs]
      simp [hR]
    exact (List.nodup_append.mp nodupL).2.2 x memR x hS rfl
  have sepIs : w1.reverse.filter (s.dummySwapOut (w1.filter s.eligible)).separateThis =
      R2.filter s.eligible ++ S1 := by
    rw [arcIs, List.filter_append]
    congr 1
    · refine List.filter_congr fun x hx => ?_
      rw [separates x (by simp [hx])]
      simp [disjoint x hx]
    · refine List.filter_eq_self.mpr fun x hx => ?_
      rw [separates x (by simp [hx])]
      simp [hx]
  have keptIs : w1.reverse.filter
      (fun x => !(s.dummySwapOut (w1.filter s.eligible)).separateThis x) =
      R2.filter fun x => !s.eligible x := by
    rw [arcIs, List.filter_append]
    have isEmpty :
        S1.filter (fun x => !(s.dummySwapOut (w1.filter s.eligible)).separateThis x) = [] := by
      refine List.filter_eq_nil_iff.mpr fun x hx => ?_
      rw [separates x (by simp [hx])]
      simp [hx]
    rw [isEmpty, List.append_nil]
    refine List.filter_congr fun x hx => ?_
    rw [separates x (by simp [hx])]
    simp [disjoint x hx]
  have listNe : w1.filter s.eligible ≠ [] := fun empty => by
    refine bytesPos ?_
    rw [State.bytes, empty]
    rfl
  have sepNe : w1.reverse.filter (s.dummySwapOut (w1.filter s.eligible)).separateThis ≠ [] := by
    obtain ⟨x, l, cons⟩ := List.exists_cons_of_ne_nil listNe
    have mem := (inList x).mp (by rw [cons]; simp)
    rw [sepIs]
    have inFilter : x ∈ R2.filter s.eligible := List.mem_filter.mpr mem
    intro empty
    rw [List.append_eq_nil_iff.mp empty |>.1] at inFilter
    cases inFilter
  obtain ⟨k', border, reordered, ring', borderIs⟩ := reorder_spec
    (t := s.dummySwapOut (w1.filter s.eligible))
    (if active ∈ w1.filter s.eligible then z else active) ringParts arcEnds zero
    (by
      have short : w1.reverse.length ≤ (active :: R' ++ S1).reverse.length := by
        rw [body, List.length_reverse, List.length_append]
        exact Nat.le_add_right _ _
      exact Nat.le_trans short long) next prev sepNe
  rw [sepIs, keptIs, List.append_assoc (R2.filter s.eligible)] at ring'
  rw [keptIs] at borderIs
  rw [reordered] at taken
  obtain rfl := Option.some.inj taken
  refine ⟨w2.reverse, R2, S1, S2, w1.filter s.eligible, active,
    if active ∈ w1.filter s.eligible then z else active, border, rIs, rfl, isActive,
    Nat.le_of_not_lt limit, inList, listNe, ?_, ?_, ring', borderIs, rfl⟩
  · by_cases mem : active ∈ w1.filter s.eligible
    · rw [if_pos mem]
      refine .inr ⟨mem, ?_⟩
      rcases zIs with is | ⟨is, rfl⟩
      · exact .inl is
      · exact .inr ⟨is, arcIs ▸ arcLast⟩
    · rw [if_neg mem]
      exact .inl ⟨rfl, mem⟩
  · intro mem
    obtain ⟨done, less⟩ := takes mem
    refine ⟨by rw [done]; rfl, ?_⟩
    by_contra enough
    have enough : s.memSwap allocMax minSize ≤ s.bytes R' := Nat.le_of_not_lt enough
    have early : (active :: R' ++ S1).reverse.dropLast = (R' ++ S1).reverse := by
      rw [List.cons_append, List.reverse_cons, List.dropLast_concat]
    have le : (s.countUnload (s.memSwap allocMax minSize) s.memChunks.card counterActive 0 0).1 ≤
        0 + s.bytes (R' ++ S1).reverse := by
      refine countUnload_le s (s.memSwap allocMax minSize) (R' ++ S1).reverse
        ([active] ++ S2.reverse) (z := z') ?_ ?_ (.inl ?_)
      · have around := around
        rw [List.cons_append, List.reverse_cons, List.append_assoc] at around
        exact around
      · rw [size]
        simp
      · rw [bytes_reverse, bytes_append]
        omega
    rw [counted] at le
    rw [early] at less
    omega

/-- What `swapOut` evicts was touched before what it leaves. -/
theorem Order.evicts (order : Order s R S) {allocMax : Nat → Nat} {minSize : Nat} {t : State}
    (taken : s.swapOut allocMax minSize = some t) {x y : Nat} (wasIn : s.status x ≠ .swapped)
    (evicted : t.status x = .swapped) (memY : y ∈ s.memChunks) (eligible : s.eligible y = true)
    (left : t.status y ≠ .swapped) : s.lastTouch x < s.lastTouch y := by
  rcases order.swapOut_cases taken with rfl | ⟨A1, R2, S1, S2, unloadlist, active, moved,
    counterActive, unloaded⟩
  · exact absurd evicted wasIn
  · have status : ∀ z, t.status z = if z ∈ unloadlist then .swapped else s.status z := by
      intro z
      rw [← dummySwapOut_status, unloaded.result]
      rfl
    rw [status] at evicted left
    have memX : x ∈ unloadlist := by
      by_contra out
      rw [if_neg out] at evicted
      exact wasIn evicted
    have outY : y ∉ unloadlist := fun mem => left (by rw [if_pos mem])
    have inR : y ∈ R := order.eligible_inRam ((order.mem y).mpr memY) eligible
    rw [unloaded.inRam] at inR
    have early : y ∈ A1 := (List.mem_append.mp inR).resolve_right fun h =>
      outY ((unloaded.list y).mpr ⟨h, eligible⟩)
    have recent := order.recent
    rw [unloaded.inRam] at recent
    exact (List.pairwise_append.mp recent).2.2 y early x ((unloaded.list x).mp memX).1

section
variable {allocMax : Nat → Nat} {minSize : Nat} {t : State} {A1 R2 S1 S2 unloadlist : List Nat}
  {active moved counterActive : Nat}

theorem Unloaded.status (unloaded : Unloaded allocMax minSize s R S t A1 R2 S1 S2 unloadlist
    active moved counterActive) (x : Nat) :
    t.status x = if x ∈ unloadlist then .swapped else s.status x := by
  rw [← dummySwapOut_status, unloaded.result]
  rfl

/-- The order after a call, once `active` and `counterActive` are seen to be right. -/
theorem Unloaded.order (unloaded : Unloaded allocMax minSize s R S t A1 R2 S1 S2 unloadlist
    active moved counterActive) (order : Order s R S) {R' S' : List Nat}
    (ring : Ring t.links (R' ++ S')) (head : t.active = (R' ++ S').head?)
    (counter : Counter R' S' t.counterActive)
    (inR : ∀ x, x ∈ R' ↔ x ∈ A1 ++ R2.filter fun x => !s.eligible x)
    (inS : ∀ x, x ∈ S' ↔ x ∈ R2.filter s.eligible ++ (S1 ++ S2))
    (sub : R'.Sublist R) : Order t R' S' := by
  have memChunks : t.memChunks = s.memChunks := by rw [unloaded.result]; rfl
  have lastTouch : t.lastTouch = s.lastTouch := by rw [unloaded.result]; rfl
  have clock : t.clock = s.clock := by rw [unloaded.result]; rfl
  have pace : t.memIDPace = s.memIDPace := by rw [unloaded.result]; rfl
  have nodup := order.ring.nodup
  have nodupR : (A1 ++ R2).Nodup := unloaded.inRam ▸ (List.nodup_append.mp nodup).1
  refine ⟨ring, head, counter, fun x => ?_, fun x hx => ?_, fun x hx => ?_, ?_, ?_, ?_, ?_⟩
  · rw [memChunks, ← order.mem x, List.mem_append, inR, inS, unloaded.inRam, unloaded.swapped]
    by_cases eligible : s.eligible x = true
    · simp [eligible]
    · simp [eligible]
      tauto
  · have old : x ∈ R := sub.subset hx
    have out : x ∉ unloadlist := fun mem => by
      obtain ⟨inR2, eligible⟩ := (unloaded.list x).mp mem
      rcases List.mem_append.mp ((inR x).mp hx) with h | h
      · exact (List.nodup_append.mp nodupR).2.2 x h x inR2 rfl
      · simp [eligible] at h
    rw [State.inRam, unloaded.status, if_neg out]
    exact order.inRam x old
  · rw [unloaded.status]
    split
    · rfl
    · rename_i out
      rcases List.mem_append.mp ((inS x).mp hx) with h | h
      · exact absurd ((unloaded.list x).mpr (List.mem_filter.mp h)) out
      · exact order.swapped x (by rw [unloaded.swapped]; exact h)
  · rw [lastTouch]
    exact order.recent.sublist sub
  · rw [lastTouch, clock]
    exact order.clock
  · rw [pace]
    exact order.pace
  · rw [memChunks, pace]
    exact order.ids

/-- What the condition says when the chunk at `active` is evicted. -/
theorem Unloaded.few (unloaded : Unloaded allocMax minSize s R S t A1 R2 S1 S2 unloadlist
    active moved counterActive) (order : Order s R S)
    (keeps : KeepsOrder allocMax s (.swapOut minSize)) (mem : active ∈ unloadlist) :
    (R2.filter fun x => !s.eligible x).length ≤ 1 := by
  obtain ⟨rfl, less⟩ := unloaded.all mem
  obtain rfl : R = R2 := unloaded.inRam
  have nodupR : R.Nodup := (List.nodup_append.mp order.ring.nodup).1
  obtain ⟨memR, eligible⟩ := (unloaded.list active).mp mem
  have inRamIff : ∀ x ∈ s.memChunks, s.inRam x = true → x ∈ R := by
    intro x hx inRam
    refine (List.mem_append.mp ((order.mem x).mpr hx)).resolve_right fun hS => ?_
    rw [State.inRam, order.swapped x hS] at inRam
    exact absurd inRam (by decide)
  rcases keeps unloaded.limit active unloaded.isActive eligible with enough | few
  · refine absurd less (Nat.not_lt.mpr ?_)
    obtain ⟨R', rfl⟩ : ∃ R', R = active :: R' := by
      have head := order.active
      rw [unloaded.isActive] at head
      obtain ⟨b, R', rfl⟩ := List.exists_cons_of_ne_nil (List.ne_nil_of_mem memR)
      exact ⟨R', by rw [Option.some.inj head]⟩
    have out : active ∉ R' := (List.nodup_cons.mp nodupR).1
    have same : {x ∈ s.memChunks.erase active | s.eligible x} =
        (R'.filter s.eligible).toFinset := by
      ext x
      simp only [Finset.mem_filter, Finset.mem_erase, List.mem_toFinset, List.mem_filter]
      constructor
      · rintro ⟨⟨ne, hx⟩, el⟩
        have inR := order.eligible_inRam ((order.mem x).mpr hx) el
        exact ⟨(List.mem_cons.mp inR).resolve_left ne, el⟩
      · rintro ⟨hx, el⟩
        exact ⟨⟨fun eq => out (eq ▸ hx), (order.mem x).mp (by simp [hx])⟩, el⟩
    rw [same, List.sum_toFinset _ ((List.nodup_cons.mp nodupR).2.filter _)] at enough
    exact enough
  · have same : {x ∈ s.memChunks | s.inRam x ∧ ¬ s.eligible x} =
        (R.filter fun x => !s.eligible x).toFinset := by
      ext x
      simp only [Finset.mem_filter, List.mem_toFinset, List.mem_filter]
      constructor
      · rintro ⟨hx, inRam, el⟩
        exact ⟨inRamIff x hx inRam, by simpa using el⟩
      · rintro ⟨hx, el⟩
        exact ⟨(order.mem x).mp (by simp [hx]), order.inRam x hx, by simpa using el⟩
    rw [same, List.toFinset_card_of_nodup (nodupR.filter _)] at few
    exact few

end

/-- `swapOut` keeps the order of the ring. -/
theorem Order.swapOut (order : Order s R S) {allocMax : Nat → Nat} {minSize : Nat} {t : State}
    (keeps : KeepsOrder allocMax s (.swapOut minSize))
    (taken : s.swapOut allocMax minSize = some t) : ∃ R' S', Order t R' S' := by
  rcases order.swapOut_cases taken with rfl | ⟨A1, R2, S1, S2, unloadlist, active, moved,
    counterActive, unloaded⟩
  · exact ⟨R, S, order⟩
  have sub : (A1 ++ R2.filter fun x => !s.eligible x).Sublist R := by
    rw [unloaded.inRam]
    exact List.Sublist.append_left List.filter_sublist A1
  have counterIs : t.counterActive = some counterActive := by rw [unloaded.result]
  have activeIs : t.active = some (if t.inRam moved ∨ t.status moved = .swapin then moved
      else counterActive) := by
    rw [unloaded.result]
    rfl
  rcases unloaded.isMoved with ⟨rfl, out⟩ | ⟨mem, found⟩
  · -- the chunk at `active` stays
    obtain ⟨R', ringHead⟩ : ∃ l, R ++ S = moved :: l := by
      have head := order.active
      rw [unloaded.isActive] at head
      exact List.head?_eq_some_iff.mp head.symm
    have someR : R ≠ [] := by
      rintro rfl
      obtain ⟨x, l, cons⟩ := List.exists_cons_of_ne_nil unloaded.nonempty
      have inR2 := ((unloaded.list x).mp (by rw [cons]; simp)).1
      have empty := unloaded.inRam
      rw [List.append_eq_nil_iff.mp empty.symm |>.2] at inR2
      cases inR2
    obtain ⟨b, Rtail, rfl⟩ := List.exists_cons_of_ne_nil someR
    obtain rfl : b = moved := by
      rw [List.cons_append] at ringHead
      exact (List.cons.inj ringHead).1
    have headR' : (A1 ++ R2.filter fun x => !s.eligible x).head? = some b := by
      cases A1 with
      | nil =>
          have r2 : b :: Rtail = R2 := unloaded.inRam
          have not : ¬ s.eligible b = true := fun el =>
            out ((unloaded.list b).mpr ⟨by rw [← r2]; simp, el⟩)
          rw [← r2]
          simp [not]
      | cons a A1 =>
          have r2 : b :: Rtail = a :: (A1 ++ R2) := unloaded.inRam
          rw [(List.cons.inj r2).1]
          rfl
    have inRam : t.inRam b = true := by
      rw [State.inRam, unloaded.status, if_neg out]
      exact order.inRam b (by simp)
    refine ⟨_, _, unloaded.order order unloaded.ring ?_ ?_ (fun _ => Iff.rfl) (fun _ => Iff.rfl)
      sub⟩
    · rw [activeIs, if_pos (.inl inRam), List.head?_append, headR']
      rfl
    · rw [counterIs]
      rcases unloaded.border with is | ⟨empty, _⟩
      · refine .inr ⟨.inl fun empty => ?_, is.symm⟩
        rw [empty] at headR'
        cases headR'
      · rw [empty] at headR'
        cases headR'
  · -- it is evicted, and with it every other eligible chunk
    obtain ⟨rfl, _⟩ := unloaded.all mem
    have few := unloaded.few order keeps mem
    have ring := unloaded.ring
    have border := unloaded.border
    simp only [List.nil_append] at ring border sub
    have place : ∀ x, (S2.getLast? = some x ∨ (S2 = [] ∧ (R2 ++ S1).getLast? = some x)) →
        x ∈ R2 ++ (S1 ++ S2) := by
      rintro x (is | ⟨_, is⟩)
      · simp [List.mem_of_getLast? is]
      · rw [← List.append_assoc]
        exact List.mem_append_left S2 (List.mem_of_getLast? is)
    have memMoved := place moved found
    have status : ∀ x ∈ R2.filter s.eligible ++ (S1 ++ S2), t.status x = .swapped := by
      intro x hx
      rw [unloaded.status]
      split
      · rfl
      · rename_i out
        rcases List.mem_append.mp hx with h | h
        · exact absurd ((unloaded.list x).mpr (List.mem_filter.mp h)) out
        · exact order.swapped x (by rw [unloaded.swapped]; exact h)
    have outside : moved ∉ R2.filter (fun x => !s.eligible x) →
        ¬ (t.inRam moved = true ∨ t.status moved = .swapin) := by
      intro out
      have here : moved ∈ R2.filter s.eligible ++ (S1 ++ S2) := by
        rcases List.mem_append.mp memMoved with h | h
        · by_cases el : s.eligible moved = true
          · exact List.mem_append_left _ (List.mem_filter.mpr ⟨h, el⟩)
          · exact absurd (List.mem_filter.mpr ⟨h, by simpa using el⟩) out
        · exact List.mem_append_right _ h
      rw [State.inRam, status moved here]
      decide
    generalize keptIs : R2.filter (fun x => !s.eligible x) = kept at *
    cases kept with
    | nil =>
        -- nothing is left in RAM
        rw [if_neg (outside (by simp))] at activeIs
        have memS : counterActive ∈ R2.filter s.eligible ++ (S1 ++ S2) := by
          rcases border with is | ⟨_, is | ⟨empty, rfl⟩⟩
          · cases is
          · simp [List.mem_of_getLast? is]
          · rcases List.mem_append.mp memMoved with h | h
            · by_cases el : s.eligible counterActive = true
              · exact List.mem_append_left _ (List.mem_filter.mpr ⟨h, el⟩)
              · have no : counterActive ∈ R2.filter fun x => !s.eligible x :=
                  List.mem_filter.mpr ⟨h, by simpa using el⟩
                rw [keptIs] at no
                cases no
            · exact List.mem_append_right _ h
        obtain ⟨xs, ys, body⟩ := List.append_of_mem memS
        rw [List.nil_append, body] at ring
        refine ⟨[], (counterActive :: ys) ++ xs, unloaded.order order ring.rotate ?_ ?_ ?_ ?_
          (List.nil_sublist R)⟩
        · rw [activeIs]
          rfl
        · rw [counterIs]
          exact .inl ⟨counterActive, by simp, rfl⟩
        · intro x
          rw [List.nil_append, keptIs]
        · intro x
          rw [body]
          simp only [List.mem_append, List.mem_cons]
          tauto
    | cons x kept =>
        -- one chunk is left
        obtain rfl : kept = [] :=
          List.length_eq_zero_iff.mp (Nat.le_zero.mp (Nat.le_of_succ_le_succ few))
        have isX : counterActive = x := by
          rcases border with is | ⟨no, _⟩
          · exact (Option.some.inj is).symm
          · cases no
        subst isX
        have activeX : t.active = some counterActive := by
          rw [activeIs]
          by_cases here : moved = counterActive
          · rw [here, ite_self]
          · rw [if_neg (outside (by simpa using here))]
        refine ⟨[counterActive], _, unloaded.order order ring ?_ ?_ ?_ (fun _ => Iff.rfl) sub⟩
        · rw [activeX]
          rfl
        · rw [counterIs]
          exact .inr ⟨.inl (List.cons_ne_nil _ _), rfl⟩
        · intro x
          rw [List.nil_append, keptIs]

/-! ### Runs -/

/-- The ring is ordered. -/
def Ordered (s : State) : Prop := ∃ R S, Order s R S

/-- Every event that meets the condition keeps the ring ordered. -/
theorem step_ordered {allocMax : Nat → Nat} {t : State} (event : Event) (ordered : Ordered s)
    (keeps : KeepsOrder allocMax s event) (taken : step allocMax s event = some t) :
    Ordered t := by
  obtain ⟨R, S, order⟩ := ordered
  cases event with
  | mmalloc size =>
      obtain rfl := Option.some.inj taken
      exact ⟨_, _, order.mmalloc size⟩
  | mfree id =>
      simp only [step] at taken
      split at taken
      · rename_i can
        obtain rfl := Option.some.inj taken
        have deleted := order.delete can.1
        exact ⟨_, _, { deleted with }⟩
      · cases taken
  | setUse id writeAccess =>
      simp only [step] at taken
      split at taken
      · rename_i mem
        obtain rfl := Option.some.inj taken
        obtain ⟨R', used⟩ := order.use mem (setUse (s.chunk id).toManagedMemoryChunk writeAccess)
          (fun hR => setUse_inRam _ _ (order.inRam id hR))
          (fun hS => by
            have swapped : (s.chunk id).status = .swapped := order.swapped id hS
            simp [setUse, swapped, prepareUse, usePrepared])
        exact ⟨R', S, used⟩
      · cases taken
  | resumeUse id writeAccess =>
      simp only [step] at taken
      split at taken
      · rename_i mem
        obtain rfl := Option.some.inj taken
        obtain ⟨R', used⟩ := order.use mem
          (resumeUse (s.chunk id).toManagedMemoryChunk writeAccess .swapIn true)
          (fun hR => resumeUse_inRam _ _ (order.inRam id hR))
          (fun hS => by
            have swapped : (s.chunk id).status = .swapped := order.swapped id hS
            simp [resumeUse, swapped, usePrepared, useSwapin, waitForSwapin, MemoryStatus.hasFlag,
              MemoryStatus.code])
        exact ⟨R', S, used⟩
      · cases taken
  | unsetUse id noUnsets =>
      simp only [step] at taken
      split at taken
      · split at taken
        · rename_i c ok
          obtain rfl := Option.some.inj taken
          exact ⟨R, S, order.unsetUse ok⟩
        · obtain rfl := Option.some.inj taken
          exact ⟨R, S, order⟩
      · cases taken
  | swapOut minSize => exact order.swapOut keeps taken
  | swapIn id =>
      simp only [step] at taken
      split at taken
      · rename_i can
        obtain rfl := Option.some.inj taken
        exact ⟨_, _, order.swapIn can.1 can.2 keeps⟩
      · cases taken
  | limit size =>
      obtain rfl := Option.some.inj taken
      exact ⟨R, S, { order with }⟩

/-- A call of `swapOut` evicts by recency: what it evicts was touched before every eligible
chunk that it leaves in RAM. -/
def EvictsLru (s t : State) : Prop :=
  ∀ x ∈ s.memChunks, ∀ y ∈ s.memChunks, s.status x = .allocated → t.status x = .swapped →
    s.eligible y = true → t.status y = .allocated → s.lastTouch x < s.lastTouch y

/-- Eviction is least recently used in every run whose steps meet the condition. -/
theorem evicts_lru (allocMax : Nat → Nat) (memoryMax : Nat) (events : List Event) (minSize : Nat)
    (s t : State) (reached : run (step allocMax) (init memoryMax) events = some s)
    (keeps : Along (step allocMax) (KeepsOrder allocMax) (init memoryMax) events)
    (taken : step allocMax s (.swapOut minSize) = some t) : EvictsLru s t := by
  obtain ⟨R, S, order⟩ : Ordered s :=
    run_invariant_of_guard Ordered
      (fun _ event _ ordered keeps taken => step_ordered event ordered keeps taken) events
      ⟨[], [], order_init memoryMax⟩ keeps reached
  intro x _ y memY wasIn evicted eligible left
  exact order.evicts taken (by rw [wasIn]; decide) evicted memY eligible (by rw [left]; decide)

/-- The product with `swapOutFrac` for the small limits of the runs below. -/
def eightTenths (n : Nat) : Nat := n * 8 / 10

theorem evicts_lru_twoChunks :
    ∃ s t, run (step eightTenths) (init 10) [.mmalloc 3, .mmalloc 6] = some s ∧
      step eightTenths s (.swapOut 1) = some t ∧ EvictsLru s t ∧
      s.status 1 = .allocated ∧ t.status 1 = .swapped ∧
      s.eligible 2 = true ∧ t.status 2 = .allocated := by
  have ran : ((run (step eightTenths) (init 10) [.mmalloc 3, .mmalloc 6]).bind fun s =>
      (step eightTenths s (.swapOut 1)).map fun t =>
        decide (s.status 1 = .allocated ∧ t.status 1 = .swapped ∧
          s.eligible 2 = true ∧ t.status 2 = .allocated)) = some true := by decide +kernel
  obtain ⟨s, reached, rest⟩ := Option.bind_eq_some_iff.mp ran
  obtain ⟨t, taken, facts⟩ := Option.map_eq_some_iff.mp rest
  exact ⟨s, t, reached, taken,
    evicts_lru eightTenths 10 [.mmalloc 3, .mmalloc 6] 1 s t reached
      ⟨trivial, fun _ _ => ⟨trivial, fun _ _ => trivial⟩⟩ taken, of_decide_eq_true facts⟩

/-- Two chunks in use while the newest one is evicted, which is at `active`. -/
def isolatingRun : List Event :=
  [.mmalloc 3, .mmalloc 2, .setUse 1 false, .setUse 2 false, .mmalloc 3, .swapOut 1, .mmalloc 3,
    .unsetUse 2 1]

/-- After the newest chunk was evicted over two chunks in use, the older of what is eligible is
left and the newer evicted. -/
theorem newest_evicted :
    ¬ ∀ (memoryMax : Nat) (events : List Event) (minSize : Nat) (s t : State),
      run (step eightTenths) (init memoryMax) events = some s →
      step eightTenths s (.swapOut minSize) = some t → EvictsLru s t := by
  intro always
  have ran : ((run (step eightTenths) (init 10) isolatingRun).bind fun s =>
      (step eightTenths s (.swapOut 1)).map fun t =>
        decide (4 ∈ s.memChunks ∧ 2 ∈ s.memChunks ∧ s.status 4 = .allocated ∧
          t.status 4 = .swapped ∧ s.eligible 2 = true ∧ t.status 2 = .allocated ∧
          s.lastTouch 2 < s.lastTouch 4)) = some true := by decide +kernel
  obtain ⟨s, reached, rest⟩ := Option.bind_eq_some_iff.mp ran
  obtain ⟨t, taken, facts⟩ := Option.map_eq_some_iff.mp rest
  obtain ⟨mem4, mem2, was, evicted, eligible, left, older⟩ := of_decide_eq_true facts
  have lru := always 10 isolatingRun 1 s t reached taken 4 mem4 2 mem2 was evicted eligible left
  exact Nat.lt_asymm older lru

end Rambrain.Cyclic
