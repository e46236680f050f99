import Rambrain.Lib.Ring

/-!
`insertBefore` and `filterChain` of `cyclicManagedMemory`, pointer by pointer.

`filterChain` walks an arc of the ring up to a sentinel that it has linked in after the
arc, cuts out every stretch of separated nodes when it meets the node behind it, and links
the stretches to one chain. `filterChain_spec` says what that comes to: the nodes kept
stay a ring with the rest, and the separated ones are a path, both in their old order.
-/

namespace Rambrain.Cyclic

open Lib

variable {N : Type} [DecidableEq N]

/-- `struct chain`; `none` for `from == NULL`. -/
abbrev Chain (N : Type) := Option (N × N)

def insertBefore (k : Links N) (pos : N) (separated : Chain N) : Links N :=
  match separated with
  | none => k
  | some (first, last) => (k.connect (k.prev pos) first).connect last pos

/-- The locals of `filterChain`'s loop. -/
structure Filter (N : Type) where
  links : Links N
  sepaStart : Option N
  separated : Chain N
  firstValid : Option N
  lastValid : Option N

/-- `if ( sepaStart )`: cut the current stretch out before `cur`. -/
def Filter.cut (f : Filter N) (cur : N) : Filter N :=
  match f.sepaStart with
  | none => f
  | some sepaStart =>
      let newTo := f.links.prev cur
      let links := f.links.connect (f.links.prev sepaStart) cur
      match f.separated with
      | none =>
          { f with links, separated := some (sepaStart, newTo), sepaStart := none }
      | some (first, last) =>
          { f with links := links.connect last sepaStart, separated := some (first, newTo),
                   sepaStart := none }

@[simp] theorem Filter.cut_firstValid (f : Filter N) (cur : N) :
    (f.cut cur).firstValid = f.firstValid := by
  unfold Filter.cut
  split
  · rfl
  · split <;> rfl

@[simp] theorem Filter.cut_lastValid (f : Filter N) (cur : N) :
    (f.cut cur).lastValid = f.lastValid := by
  unfold Filter.cut
  split
  · rfl
  · split <;> rfl

/-- One round of the loop. -/
def Filter.visit (separateThis : N → Bool) (f : Filter N) (cur : N) : Filter N :=
  if separateThis cur then { f with sepaStart := f.sepaStart.or (some cur) }
  else
    { f with firstValid := f.firstValid.or (some cur), lastValid := some cur }.cut cur

/-- The loop up to the sentinel `stop`, and the cut after it. -/
def Filter.walk (separateThis : N → Bool) (stop : N) : Nat → Filter N → N → Option (Filter N)
  | 0, _, _ => none
  | fuel + 1, f, cur =>
      let f := f.visit separateThis cur
      if f.links.next cur = stop then some (f.cut stop)
      else Filter.walk separateThis stop fuel f (f.links.next cur)

/-- What `filterChain` leaves: the links, the filtered `toFilter`, and the separated
chain. The loop runs on fuel. -/
def filterChain (separateThis : N → Bool) (stop : N) (fuel : Nat) (k : Links N) (first last : N) :
    Option (Links N × Chain N × Chain N) :=
  let after := k.next last
  let before := k.prev first
  let cyclic := after = first
  let links := (k.connect last stop).connect stop first
  (Filter.walk separateThis stop fuel ⟨links, none, none, none, none⟩ first).map fun f =>
    match f.firstValid, f.lastValid with
    | some firstValid, some lastValid =>
        let links :=
          if cyclic then f.links.connect lastValid firstValid
          else (f.links.connect before firstValid).connect lastValid after
        (links, some (firstValid, lastValid), f.separated)
    | _, _ =>
        let links := if cyclic then f.links else f.links.connect before after
        (links, none, f.separated)

/-! ### The loop -/

/-- The loop at a node of the arc: `kept` and `sep` are what the nodes passed have been
sorted into, `pend` is the stretch being passed, `todo` what is left of the arc. -/
structure Filter.Inv (k : Links N) (stop : N) (f : Filter N) (kept pend sep todo : List N) :
    Prop where
  nodup : (stop :: kept ++ pend ++ todo ++ sep).Nodup
  path : Path f.links (stop :: kept ++ pend ++ todo ++ [stop])
  sepPath : Path f.links sep
  start : f.sepaStart = pend.head?
  separated : f.separated = ends sep
  firstValid : f.firstValid = kept.head?
  lastValid : f.lastValid = kept.getLast?
  frame : ∀ x, x ∉ stop :: kept ++ pend ++ todo ++ sep →
    f.links.next x = k.next x ∧ f.links.prev x = k.prev x

variable {k : Links N} {stop cur : N} {f : Filter N} {kept pend sep todo rest : List N}

/-- A cut takes the stretch out of the path and puts it behind what is separated. -/
theorem Filter.cut_spec (pending : pend ≠ []) (start : f.sepaStart = pend.head?)
    (separated : f.separated = ends sep)
    (path : Path f.links (stop :: kept ++ pend ++ cur :: rest)) (sepPath : Path f.links sep)
    (nodup : (stop :: kept ++ pend ++ sep).Nodup)
    (apart : ∀ x ∈ kept ++ pend ++ sep, x ∉ cur :: rest) (once : cur ∉ rest)
    (close : stop ∉ (cur :: rest).dropLast) :
    Path (f.cut cur).links (stop :: kept ++ cur :: rest) ∧
      Path (f.cut cur).links (sep ++ pend) ∧
      (f.cut cur).separated = ends (sep ++ pend) ∧
      (f.cut cur).sepaStart = none ∧
      ∀ x, x ∉ stop :: kept ++ pend ++ sep ++ [cur] →
        (f.cut cur).links.next x = f.links.next x ∧ (f.cut cur).links.prev x = f.links.prev x := by
  obtain ⟨p, pend', rfl⟩ := List.exists_cons_of_ne_nil pending
  obtain ⟨init, a, front⟩ := exists_concat (List.cons_ne_nil stop kept)
  obtain ⟨pinit, q, back⟩ := exists_concat (List.cons_ne_nil p pend')
  have prevStart : f.links.prev p = a := by
    have path := path
    rw [front, List.append_assoc, List.append_assoc] at path
    exact (path_append_cons_cons.mp path).2.1.2
  have prevCur : f.links.prev cur = q := by
    have path := path
    rw [back, ← List.append_assoc, List.append_assoc] at path
    exact (path_append_cons_cons.mp path).2.1.2
  have mem_a : a ∈ stop :: kept := by rw [front]; simp
  have ha : a ∉ p :: pend' ++ sep := by grind
  have ha' : a ∉ (cur :: rest).dropLast := by
    rcases List.mem_cons.mp mem_a with is | mem
    · rwa [is]
    · exact fun mem' => apart a (by simp [mem]) (List.mem_of_mem_dropLast mem')
  -- the stretch is bridged
  have left : Path f.links (init ++ [a]) := by
    rw [← front]
    exact (path.left).left
  have bridged : Path (f.links.connect a cur) (stop :: kept ++ cur :: rest) := by
    have hinit : a ∉ init := by
      have := (List.nodup_append.mp (List.nodup_append.mp nodup).1).1
      grind
    have hcur : cur ∉ (init ++ [a]).tail := by
      rw [← front]
      exact fun mem => apart cur (by simp [show cur ∈ kept from mem]) (by simp)
    have joined := left.connect_join path.right hinit ha' hcur once
    rw [front, List.append_assoc]
    exact joined
  have stretch : Path (f.links.connect a cur) (p :: pend') := by
    refine (path.left.right).connect_off (fun mem => ha ?_) fun mem => ?_
    · exact List.mem_append_left _ (List.mem_of_mem_dropLast mem)
    · exact apart cur (by simp [show cur ∈ pend' from mem]) (by simp)
  have old : Path (f.links.connect a cur) sep := by
    refine sepPath.connect_off (fun mem => ha ?_) fun mem => ?_
    · exact List.mem_append_right _ (List.mem_of_mem_dropLast mem)
    · exact apart cur (by simp [List.mem_of_mem_tail mem]) (by simp)
  unfold Filter.cut
  rw [start, separated]
  cases sep with
  | nil =>
      simp only [List.head?_cons, ends_nil, List.nil_append, prevStart, prevCur]
      refine ⟨bridged, stretch, ?_, trivial, fun x out => ⟨?_, ?_⟩⟩
      · exact (ends_of_eq back).symm
      · exact f.links.connect_next (by grind)
      · exact f.links.connect_prev (by grind)
  | cons b sep =>
      obtain ⟨sinit, l, tail⟩ := exists_concat (List.cons_ne_nil b sep)
      simp only [List.head?_cons, ends_of_eq tail, prevStart, prevCur]
      have hl : l ∉ stop :: kept ++ p :: pend' := by grind
      have hp : p ∉ stop :: kept ++ b :: sep := by grind
      have lOut : l ∉ cur :: rest := apart l (by rw [tail]; simp)
      have pOut : p ∉ cur :: rest := apart p (by simp)
      refine ⟨bridged.connect_off (fun mem => ?_) (fun mem => ?_), ?_, ?_, trivial,
        fun x out => ⟨?_, ?_⟩⟩
      · have := List.mem_of_mem_dropLast mem
        grind
      · have := List.mem_of_mem_tail mem
        grind
      · rw [tail] at old ⊢
        have nodupSep : (sinit ++ [l]).Nodup := tail ▸ (List.nodup_append.mp nodup).2.1
        have joined := old.connect_join stretch (by grind)
          (fun mem => hl (List.mem_append_right _ (List.mem_of_mem_dropLast mem)))
          (fun mem => hp (List.mem_append_right _ (tail ▸ List.mem_of_mem_tail mem)))
          (by grind)
        rw [List.append_assoc]
        exact joined
      · rw [back, List.cons_append, ends_of_eq (show b :: (sep ++ (pinit ++ [q])) =
          b :: sep ++ pinit ++ [q] by simp)]
      · rw [Links.connect_next _ (by grind), Links.connect_next _ (by grind)]
      · rw [Links.connect_prev _ (by grind), Links.connect_prev _ (by grind)]

/-- Cutting the stretch reorders the nodes. -/
theorem nodup_cut {l : List N} (nodup : (stop :: kept ++ pend ++ l ++ sep).Nodup) :
    (stop :: kept ++ [] ++ l ++ (sep ++ pend)).Nodup := by
  refine (List.Perm.nodup_iff ?_).mp nodup
  refine List.perm_iff_count.mpr fun x => ?_
  simp only [List.count_append, List.count_cons, List.count_nil]
  omega

/-- One round sorts one node and keeps the invariant. -/
theorem Filter.visit_spec (separateThis : N → Bool)
    (inv : Filter.Inv k stop f kept pend sep (cur :: todo)) :
    ∃ kept' pend' sep', Filter.Inv k stop (f.visit separateThis cur) kept' pend' sep' todo ∧
      (∃ front, stop :: kept' ++ pend' = front ++ [cur]) ∧
      kept' = kept ++ [cur].filter (fun x => !separateThis x) ∧
      sep' ++ pend' = sep ++ pend ++ [cur].filter separateThis := by
  have nodup := inv.nodup
  by_cases separated : separateThis cur = true
  · have visit : f.visit separateThis cur = { f with sepaStart := f.sepaStart.or (some cur) } :=
      if_pos separated
    rw [visit]
    refine ⟨kept, pend ++ [cur], sep, ⟨?_, ?_, inv.sepPath, ?_, inv.separated, inv.firstValid,
      inv.lastValid, fun x out => inv.frame x ?_⟩, ⟨stop :: kept ++ pend, by simp⟩,
      by simp [separated], by simp [separated]⟩
    · simpa using nodup
    · simpa using inv.path
    · simp only [inv.start]
      cases pend with
      | nil => rfl
      | cons p pend => rfl
    · simpa using out
  · have visit : f.visit separateThis cur =
        { f with firstValid := f.firstValid.or (some cur), lastValid := some cur }.cut cur :=
      if_neg separated
    have first : f.firstValid.or (some cur) = (kept ++ [cur]).head? := by
      rw [inv.firstValid]
      cases kept with
      | nil => rfl
      | cons x kept => rfl
    rw [visit]
    by_cases idle : pend = []
    · subst idle
      refine ⟨kept ++ [cur], [], sep, ?_, ⟨stop :: kept, by simp⟩, by simp [separated],
        by simp [separated]⟩
      have unset : f.sepaStart = none := inv.start
      simp only [Filter.cut, unset]
      exact ⟨by simpa using nodup, by simpa using inv.path, inv.sepPath, rfl, inv.separated,
        first, by simp, fun x out => inv.frame x (by simpa using out)⟩
    · refine ⟨kept ++ [cur], [], sep ++ pend, ?_, ⟨stop :: kept, by simp⟩, by simp [separated],
        by simp [separated]⟩
      have path : Path f.links (stop :: kept ++ pend ++ cur :: (todo ++ [stop])) := by
        simpa using inv.path
      obtain ⟨bridged, chained, ended, cleared, frame⟩ := Filter.cut_spec
        (f := { f with firstValid := f.firstValid.or (some cur), lastValid := some cur })
        idle inv.start inv.separated path inv.sepPath (by grind) (by grind) (by grind) (by
          rw [← List.cons_append, List.dropLast_concat]
          grind)
      refine ⟨by simpa using nodup_cut nodup, by simpa using bridged, chained, cleared, ended,
        ?_, ?_, fun x out => ?_⟩
      · rw [Filter.cut_firstValid]
        exact first
      · simp
      · have same := frame x (by grind)
        have old := inv.frame x (by grind)
        exact ⟨same.1.trans old.1, same.2.trans old.2⟩

/-- The loop sorts what is left of the arc. -/
theorem Filter.walk_spec (separateThis : N → Bool) :
    ∀ (todo : List N) {fuel : Nat} {f : Filter N} {kept pend sep : List N} {cur : N},
      todo.length < fuel → Filter.Inv k stop f kept pend sep (cur :: todo) →
      ∃ f', Filter.walk separateThis stop fuel f cur = some f' ∧
        Filter.Inv k stop f' (kept ++ (cur :: todo).filter (fun x => !separateThis x)) []
          (sep ++ pend ++ (cur :: todo).filter separateThis) [] := by
  intro todo
  induction todo with
  | nil =>
      intro fuel f kept pend sep cur enough inv
      obtain ⟨fuel, rfl⟩ : ∃ n, fuel = n + 1 := ⟨fuel - 1, by simp at enough; omega⟩
      obtain ⟨kept', pend', sep', inv', ⟨front, ending⟩, keeps, seps⟩ := visit_spec separateThis inv
      have next : (f.visit separateThis cur).links.next cur = stop := by
        have path := inv'.path
        rw [List.append_nil, ending, List.append_assoc] at path
        exact (path_append_cons_cons.mp path).2.1.1
      rw [← keeps, ← seps]
      unfold Filter.walk
      simp only [next, if_true]
      refine ⟨_, rfl, ?_⟩
      by_cases idle : pend' = []
      · subst idle
        have unset : (f.visit separateThis cur).sepaStart = none := inv'.start
        simp only [Filter.cut, unset, List.append_nil]
        exact inv'
      · have nodup := inv'.nodup
        have path : Path (f.visit separateThis cur).links
            (stop :: kept' ++ pend' ++ stop :: []) := by
          simpa using inv'.path
        obtain ⟨bridged, chained, ended, cleared, frame⟩ := Filter.cut_spec idle inv'.start
          inv'.separated path inv'.sepPath (by grind) (by grind) (by simp) (by simp)
        refine ⟨nodup_cut nodup, by simpa using bridged, chained, cleared, ended, ?_, ?_,
          fun x out => ?_⟩
        · rw [Filter.cut_firstValid]
          exact inv'.firstValid
        · rw [Filter.cut_lastValid]
          exact inv'.lastValid
        · have same := frame x (by grind)
          have old := inv'.frame x (by grind)
          exact ⟨same.1.trans old.1, same.2.trans old.2⟩
  | cons y todo ih =>
      intro fuel f kept pend sep cur enough inv
      obtain ⟨fuel, rfl⟩ : ∃ n, fuel = n + 1 := ⟨fuel - 1, by simp at enough; omega⟩
      obtain ⟨kept', pend', sep', inv', ⟨front, ending⟩, keeps, seps⟩ := visit_spec separateThis inv
      have next : (f.visit separateThis cur).links.next cur = y := by
        have path := inv'.path
        rw [ending, List.append_assoc, List.append_assoc] at path
        exact (path_append_cons_cons.mp path).2.1.1
      have ne : y ≠ stop := by
        have nodup := inv.nodup
        grind
      obtain ⟨f', walked, done⟩ := ih (Nat.lt_of_succ_lt_succ enough) inv'
      rw [keeps, seps, List.append_assoc, List.append_assoc, ← List.filter_append,
        ← List.filter_append] at done
      unfold Filter.walk
      simp only [next, if_neg ne]
      exact ⟨f', walked, by simpa using done⟩

/-! ### The whole call -/

/-- The sentinel is linked in after the arc. -/
theorem Filter.inv_start {arc : List N} {x y : N} (path : Path k arc)
    (nodup : arc.Nodup) (is : ends arc = some (x, y)) (out : stop ∉ arc) :
    Filter.Inv k stop ⟨(k.connect y stop).connect stop x, none, none, none, none⟩ [] [] []
      arc := by
  have closed : Path (k.connect y stop) (arc ++ [stop]) :=
    path.link (path_singleton stop) is (ends_singleton stop) (by grind)
  obtain ⟨tail, rfl⟩ := List.head?_eq_some_iff.mp (ends_eq_some.mp is).1
  have whole : Path ((k.connect y stop).connect stop x) (stop :: x :: (tail ++ [stop])) := by
    refine Path.connect_join (show Lib.Path _ ([] ++ [stop]) from path_singleton stop) closed
      (by simp) ?_ (by simp) ?_
    · rw [← List.cons_append, List.dropLast_concat]
      exact out
    · grind
  have hy : y ∈ x :: tail := List.mem_of_getLast? (ends_eq_some.mp is).2
  refine ⟨by grind, by simpa using whole, path_nil, rfl, rfl, rfl, rfl, fun z hz => ⟨?_, ?_⟩⟩
  · rw [Links.connect_next _ (by grind), Links.connect_next _ (by grind)]
  · rw [Links.connect_prev _ (by grind), Links.connect_prev _ (by grind)]

omit [DecidableEq N] in
theorem ends_isSome {l : List N} (ne : l ≠ []) :
    ∃ a z, ends l = some (a, z) ∧ l.head? = some a ∧ l.getLast? = some z := by
  obtain ⟨a, l, rfl⟩ := List.exists_cons_of_ne_nil ne
  exact ⟨a, _, rfl, ends_eq_some.mp rfl⟩

/-- `filterChain` on an arc of a ring: the nodes kept and the rest are a ring, the separated
nodes a path of their own. -/
theorem filterChain_spec (separateThis : N → Bool) {arc rest : List N} {fuel : Nat}
    {first last : N} (ring : Ring k (arc ++ rest)) (is : ends arc = some (first, last))
    (out : stop ∉ arc ++ rest) (enough : arc.length ≤ fuel) :
    ∃ k', filterChain separateThis stop fuel k first last =
        some (k', ends (arc.filter fun x => !separateThis x), ends (arc.filter separateThis)) ∧
      Ring k' (arc.filter (fun x => !separateThis x) ++ rest) ∧
      Path k' (arc.filter separateThis) := by
  have nodup : arc.Nodup := (List.nodup_append.mp ring.nodup).1
  have nodupRest : rest.Nodup := (List.nodup_append.mp ring.nodup).2.1
  have apart := (List.nodup_append.mp ring.nodup).2.2
  have arcPath : Path k arc := (show Path k (arc ++ rest) from ring.path.left).left
  have restPath : Path k rest := (show Path k (arc ++ rest) from ring.path.left).right
  obtain ⟨todo, rfl⟩ := List.head?_eq_some_iff.mp (ends_eq_some.mp is).1
  obtain ⟨f, walked, inv⟩ := Filter.walk_spec separateThis todo enough
    (Filter.inv_start arcPath nodup is (fun mem => out (List.mem_append_left _ mem)))
  simp only [List.nil_append] at inv
  generalize keptIs : (first :: todo).filter (fun x => !separateThis x) = kept at inv ⊢
  generalize sepIs : (first :: todo).filter separateThis = sep at inv ⊢
  have keptArc : ∀ x ∈ kept, x ∈ first :: todo := fun x mem => by
    rw [← keptIs] at mem
    exact (List.mem_filter.mp mem).1
  have sepArc : ∀ x ∈ sep, x ∈ first :: todo := fun x mem => by
    rw [← sepIs] at mem
    exact (List.mem_filter.mp mem).1
  have keptNodup : kept.Nodup := keptIs ▸ nodup.filter _
  have keptSep : ∀ x ∈ kept, x ∉ sep := fun x mem mem' => by
    rw [← keptIs] at mem
    rw [← sepIs] at mem'
    have no := (List.mem_filter.mp mem).2
    rw [(List.mem_filter.mp mem').2] at no
    cases no
  have keptPath : Path f.links kept := by
    have path : Path f.links ([stop] ++ (kept ++ [stop])) := by simpa using inv.path
    exact path.right.left
  have outside : ∀ x ∈ rest, x ∉ stop :: kept ++ [] ++ [] ++ sep := by
    intro x mem
    have notArc : x ∉ first :: todo := fun mem' => apart x mem' x mem rfl
    have notStop : x ≠ stop := fun eq => out (List.mem_append_right _ (eq ▸ mem))
    grind
  have restPath' : Path f.links rest :=
    restPath.congr (fun x mem => (inv.frame x (outside x (List.mem_of_mem_dropLast mem))).1)
      fun x mem => (inv.frame x (outside x (List.mem_of_mem_tail mem))).2
  have lastMem : last ∈ first :: todo := List.mem_of_getLast? (ends_eq_some.mp is).2
  simp only [filterChain, walked, Option.map_some, inv.firstValid, inv.lastValid, inv.separated]
  by_cases whole : rest = []
  · -- the arc is the whole ring
    subst whole
    have around : k.next last = first := by
      obtain ⟨init, body⟩ := List.getLast?_eq_some_iff.mp (ends_eq_some.mp is).2
      have ring : Ring k (first :: todo) := by simpa using ring
      exact (ring.joined_last body).1
    by_cases empty : kept = []
    · subst empty
      exact ⟨_, by simp [around], ⟨List.nodup_nil, path_nil⟩, inv.sepPath⟩
    · obtain ⟨a, z, keptEnds, head, tail⟩ := ends_isSome empty
      simp only [head, tail, around, if_true, keptEnds, List.append_nil]
      refine ⟨_, rfl, Ring.close keptPath keptNodup keptEnds, ?_⟩
      exact inv.sepPath.connect_apart (keptSep z (List.mem_of_getLast? tail))
        (keptSep a (List.mem_of_head? head))
  · obtain ⟨after, before, restEnds, restHead, restTail⟩ := ends_isSome whole
    obtain ⟨restTail', rfl⟩ := List.head?_eq_some_iff.mp restHead
    obtain ⟨init, body⟩ := List.getLast?_eq_some_iff.mp (ends_eq_some.mp is).2
    obtain ⟨restInit, restBody⟩ := List.getLast?_eq_some_iff.mp restTail
    have afterIs : k.next last = after := by
      have ring := ring
      rw [body, List.append_assoc] at ring
      exact (Ring.joined ring).1
    have beforeIs : k.prev first = before := by
      have ring : Ring k (first :: (todo ++ restInit ++ [before])) := by
        rw [List.append_assoc, ← restBody]
        exact ring
      exact (ring.joined_last (show first :: (todo ++ restInit ++ [before]) =
        (first :: (todo ++ restInit)) ++ [before] from rfl)).2
    have ne : after ≠ first := fun eq => apart first (by simp) after (by simp) eq.symm
    have beforeMem : before ∈ after :: restTail' := List.mem_of_getLast? restTail
    have afterSep : after ∉ sep := fun mem => apart after (sepArc after mem) after (by simp) rfl
    have beforeSep : before ∉ sep := fun mem =>
      apart before (sepArc before mem) before beforeMem rfl
    by_cases empty : kept = []
    · subst empty
      simp only [List.head?_nil, List.getLast?_nil, afterIs, beforeIs, if_neg ne, ends_nil,
        List.nil_append]
      exact ⟨_, rfl, Ring.close restPath' nodupRest restEnds,
        inv.sepPath.connect_apart beforeSep afterSep⟩
    · obtain ⟨a, z, keptEnds, head, tail⟩ := ends_isSome empty
      simp only [head, tail, afterIs, beforeIs, if_neg ne, keptEnds]
      have nodupBoth : ((after :: restTail') ++ kept).Nodup := by
        refine List.nodup_append.mpr ⟨nodupRest, keptNodup, fun x mem y mem' eq => ?_⟩
        exact apart y (keptArc y mem') x mem eq.symm
      have linked := restPath'.link keptPath restEnds keptEnds nodupBoth
      have bothEnds : ends ((after :: restTail') ++ kept) = some (after, z) := by
        refine ends_eq_some.mpr ⟨rfl, ?_⟩
        rw [List.getLast?_append, tail]
        rfl
      refine ⟨_, rfl, (Ring.close linked nodupBoth bothEnds).rotate, ?_⟩
      exact (inv.sepPath.connect_apart beforeSep (keptSep a (List.mem_of_head? head))).connect_apart
        (keptSep z (List.mem_of_getLast? tail)) afterSep

theorem insertBefore_spec {sep l : List N} {pos : N} (ring : Ring k (pos :: l))
    (path : Path k sep) (nodup : (sep ++ pos :: l).Nodup) :
    Ring (insertBefore k pos (ends sep)) (sep ++ pos :: l) := by
  by_cases empty : sep = []
  · subst empty
    exact ring
  · obtain ⟨a, z, is, _⟩ := ends_isSome empty
    rw [is]
    exact ring.insert path is nodup

end Rambrain.Cyclic
