import Rambrain.Chunk
import Rambrain.Lib.Forest
import Rambrain.Lib.Run
import Rambrain.Lib.SortedMap

/-!
The chunk tree of a build with `PARENTAL_CONTROL`: what `mmalloc` and `mfree` do to the `child`,
`next` and `parent` ids, and `recursiveMfree`.

`Tree t F` says that the ids link the registered chunks up to the forest `F`: the root chunk and
what is below it, or nothing once the root chunk is freed. `mmalloc` puts a leaf into it,
`mfree` takes one out (`Tree.mfree`), and `freeList_spec` frees the list below a chunk, the first
one in every turn.

A call that resolves an id that is not registered has no result.
-/

namespace Rambrain.ChunkTree

open Lib

/-- `managedMemory::invalid`. -/
def invalid : Nat := 0

/-- `managedMemory::root`. -/
def root : Nat := 1

/-- A `managedMemoryChunk` with its place in the tree. -/
structure TreeChunk extends Cell Nat where
  status : MemoryStatus
  deriving DecidableEq

structure Manager where
  memChunks : SortedMap Nat TreeChunk
  memIDPace : Nat

namespace Manager

variable (t : Manager)

def setChunk (t : Manager) (id : Nat) (chunk : TreeChunk) : Manager :=
  { t with memChunks := t.memChunks.insert id chunk }

/-- The tree part of `mmalloc`, with `managedMemory::parent`. -/
def mmalloc (parent : Nat) : Option Manager :=
  let id := t.memIDPace
  let t := { t with memIDPace := id + 1 }
  if id = root then some (t.setChunk id ⟨⟨parent, invalid, invalid⟩, .allocated⟩)
  else
    (t.memChunks.get? parent).map fun pchunk =>
      let next := if pchunk.child = invalid then invalid else pchunk.child
      (t.setChunk parent { pchunk with child := id }).setChunk id
        ⟨⟨parent, next, invalid⟩, .allocated⟩

/-- The loop of `mfree` that looks for the chunk before the one that is freed. -/
def unlinkBehind (id next : Nat) : Nat → Nat → Option Manager
  | 0, _ => none
  | fuel + 1, p =>
      match t.memChunks.get? p with
      | none => none
      | some pchunk =>
          if pchunk.next = id then some (t.setChunk p { pchunk with next })
          else if pchunk.next = invalid then some t
          else unlinkBehind id next fuel pchunk.next

/-- The chunk is taken out of the list of its parent. -/
def unlink (id : Nat) (chunk : TreeChunk) : Option Manager :=
  match t.memChunks.get? chunk.parent with
  | none => none
  | some pchunk =>
      if pchunk.child = id then some (t.setChunk chunk.parent { pchunk with child := chunk.next })
      else unlinkBehind t id chunk.next t.memChunks.entries.length pchunk.child

/-- How `mfree` ends. -/
inductive Mfree where
  | freed (t : Manager)
  | inUse (t : Manager)
  | hasChildren (t : Manager)
  | fault

/-- The tree part of `mfree`. -/
def mfree (id : Nat) : Mfree :=
  match t.memChunks.get? id with
  | none => .fault
  | some chunk =>
      if chunk.status.hasFlag .allocatedInuse = true then .inUse t
      else if chunk.child ≠ invalid then .hasChildren t
      else
        match if id ≠ root then t.unlink id chunk else some t with
        | some t => .freed { t with memChunks := t.memChunks.erase id }
        | none => .fault

/-- `recursiveMfree ( id )`, with the ids in the order in which they are freed; `none` when an
`mfree` throws. A turn of its loop is the call for the chunk behind. -/
def freeList : Nat → Manager → Nat → Option (Manager × List Nat)
  | 0, _, _ => none
  | fuel + 1, t, id =>
      (t.memChunks.get? id).bind fun oldchunk =>
        (if oldchunk.child ≠ invalid then freeList fuel t oldchunk.child else some (t, [])).bind
          fun below =>
            (below.1.memChunks.get? id).bind fun oldchunk =>
              if oldchunk.next ≠ invalid then
                (below.1.memChunks.get? oldchunk.next).bind fun _ =>
                  match below.1.mfree id with
                  | .freed t =>
                      (freeList fuel t oldchunk.next).map fun behind =>
                        (behind.1, below.2 ++ id :: behind.2)
                  | _ => none
              else
                match below.1.mfree id with
                | .freed t => some (t, below.2 ++ [id])
                | _ => none

def recursiveMfree (id : Nat) : Option (Manager × List Nat) :=
  freeList t.memChunks.entries.length t id

/-- The constructor of `managedMemory` creates the root element. -/
def construct : Manager where
  memChunks := SortedMap.empty.insert root ⟨⟨root, invalid, invalid⟩, .root⟩
  memIDPace := 2

end Manager

/-! ### The tree -/

/-- The links of the registered chunks. -/
def cells (t : Manager) (id : Nat) : Option (Cell Nat) :=
  (t.memChunks.get? id).map TreeChunk.toCell

/-- The registered chunks are linked up to `F`, below the root chunk as long as there is one. -/
structure Tree (t : Manager) (F : Forest Nat) : Prop where
  links : Linked (cells t) invalid root (F.head invalid) F
  top : F = .nil ∨ ∃ kids, F = .node root kids .nil
  nodup : F.ids.Nodup
  all : ∀ id, (∃ c, t.memChunks.get? id = some c) ↔ id ∈ F.ids
  below : ∀ id ∈ F.ids, id < t.memIDPace
  pace : root < t.memIDPace

variable {t : Manager} {F : Forest Nat}

theorem cells_setChunk (t : Manager) (id j : Nat) (c : TreeChunk) :
    cells (t.setChunk id c) j = if j = id then some c.toCell else cells t j := by
  rw [cells, Manager.setChunk, SortedMap.get?_insert]
  split
  · rfl
  · rfl

/-- Every registered chunk is in the tree once. -/
theorem Tree.perm (tree : Tree t F) : t.memChunks.keys.Perm F.ids := by
  have sorted := t.memChunks.sorted_keys
  refine (List.perm_ext_iff_of_nodup (sorted.imp fun less => less.ne) tree.nodup).mpr fun id => ?_
  rw [SortedMap.mem_keys_iff]
  exact tree.all id

theorem cells_eq_some {t : Manager} {id : Nat} {c : Cell Nat} (found : cells t id = some c) :
    ∃ chunk, t.memChunks.get? id = some chunk ∧ chunk.toCell = c :=
  Option.map_eq_some_iff.mp found

theorem construct_tree : Tree .construct (.node root .nil .nil) where
  links := ⟨rfl, by decide, ⟨root, invalid, invalid⟩, rfl, rfl, rfl, rfl⟩
  top := .inr ⟨.nil, rfl⟩
  nodup := by decide
  all := by
    intro id
    rw [Manager.construct, SortedMap.get?_insert]
    split
    · rename_i here
      cases here
      exact iff_of_true ⟨_, rfl⟩ (by decide)
    · rename_i ne
      refine iff_of_false ?_ fun mem => ne (List.mem_singleton.mp mem)
      rintro ⟨c, found⟩
      cases found
  below := by decide
  pace := by decide

/-! ### `mmalloc` -/

theorem Tree.mmalloc {parent : Nat} (tree : Tree t F) (there : parent ∈ F.ids) :
    ∃ u, t.mmalloc parent = some u ∧ Tree u (F.insertUnder parent t.memIDPace) := by
  obtain ⟨id, isId⟩ : ∃ id, id = t.memIDPace := ⟨_, rfl⟩
  obtain ⟨pchunk, found⟩ := (tree.all parent).mpr there
  have fresh : id ∉ F.ids := fun mem => absurd (tree.below id mem) (by omega)
  have notRoot : id ≠ root := by
    have pace := tree.pace
    omega
  have real : id ≠ invalid := by
    have pace := tree.pace
    unfold root at pace
    unfold invalid
    omega
  have ne : parent ≠ id := ne_of_mem_of_not_mem there fresh
  have perm := F.insertUnder_perm (x := id) there tree.nodup
  have next : (if pchunk.child = invalid then invalid else pchunk.child) = pchunk.child := by
    split
    · rename_i is
      exact is.symm
    · rfl
  obtain ⟨u, isU⟩ : ∃ u, u = (Manager.setChunk { t with memIDPace := id + 1 } parent
      { pchunk with child := id }).setChunk id ⟨⟨parent, pchunk.child, invalid⟩, .allocated⟩ :=
    ⟨_, rfl⟩
  have cellsU : ∀ j, cells u j = if j = id then some ⟨parent, pchunk.child, invalid⟩
      else if j = parent then some { pchunk.toCell with child := id } else cells t j := by
    intro j
    rw [isU, cells_setChunk]
    split
    · rfl
    · rw [cells_setChunk]
      rfl
  have links : Linked (cells u) invalid root (F.head invalid) (F.insertUnder parent id) :=
    tree.links.insertUnder (q := parent) tree.nodup real fresh
    (by
      intro c foundC
      rw [cells, found] at foundC
      cases foundC
      rw [cellsU id, cellsU parent, if_pos rfl, if_neg ne, if_pos rfl]
      exact ⟨rfl, rfl⟩)
    (by
      intro j mem notParent
      rw [cellsU j, if_neg (ne_of_mem_of_not_mem mem fresh), if_neg notParent])
  have head : (F.insertUnder parent id).head invalid = F.head invalid := by
    cases F with
    | nil => rfl
    | node j kids rest =>
        rw [Forest.insertUnder]
        split <;> rfl
  rw [← isId]
  refine ⟨u, ?_, ?_⟩
  · rw [Manager.mmalloc, ← isId]
    simp only [if_neg notRoot, found, Option.map_some, next]
    rw [isU]
  · exact {
      links := by
        rw [head]
        exact links
      top := by
        rcases tree.top with rfl | ⟨kids, rfl⟩
        · cases there
        · right
          rw [Forest.insertUnder]
          split
          · exact ⟨_, rfl⟩
          · exact ⟨_, rfl⟩
      nodup := perm.nodup_iff.mpr (List.nodup_cons.mpr ⟨fresh, tree.nodup⟩)
      all := by
        intro j
        rw [perm.mem_iff, List.mem_cons, ← tree.all j, isU]
        simp only [Manager.setChunk, SortedMap.get?_insert]
        split
        · rename_i here
          exact iff_of_true ⟨_, rfl⟩ (.inl here)
        · rename_i notId
          split
          · rename_i here
            exact iff_of_true ⟨_, rfl⟩ (.inr ⟨pchunk, by rw [here]; exact found⟩)
          · rw [or_iff_right notId]
      below := by
        intro j mem
        have pace : u.memIDPace = id + 1 := by rw [isU]; rfl
        rw [pace]
        rcases List.mem_cons.mp (perm.mem_iff.mp mem) with rfl | mem
        · omega
        · have less := tree.below j mem
          omega
      pace := by
        have pace : u.memIDPace = id + 1 := by rw [isU]; rfl
        have before := tree.pace
        rw [pace]
        omega }

/-! ### `mfree` -/

theorem unlinkBehind_spec {id q : Nat} (next : Nat) {K : Forest Nat} :
    ∀ {start fuel : Nat}, Linked (cells t) invalid q start K → id ∈ K.roots → start ≠ id →
      K.roots.length ≤ fuel →
      ∃ j c, j ∈ K.ids ∧ t.memChunks.get? j = some c ∧ c.next = id ∧
        t.unlinkBehind id next fuel start = some (t.setChunk j { c with next }) := by
  induction K with
  | nil => exact fun _ mem => absurd mem List.not_mem_nil
  | node k kids rest _ ih =>
      intro start fuel links mem ne enough
      obtain ⟨rfl, _, c, found, _, _, behind⟩ := links
      obtain ⟨chunk, foundK, rfl⟩ := cells_eq_some found
      obtain ⟨fuel, rfl⟩ : ∃ n, fuel = n + 1 := by
        rw [Forest.roots, List.length_cons] at enough
        exact ⟨fuel - 1, by omega⟩
      have later : id ∈ rest.roots := (List.mem_cons.mp mem).resolve_left (Ne.symm ne)
      by_cases here : chunk.next = id
      · refine ⟨start, chunk, List.mem_cons_self, foundK, here, ?_⟩
        simp only [Manager.unlinkBehind, foundK, if_pos here]
      · have real : chunk.next ≠ invalid := by
          intro atEnd
          rw [atEnd] at behind
          cases rest with
          | nil => cases later
          | node j _ _ => exact behind.2.1 behind.1.symm
        obtain ⟨j, d, memJ, foundJ, isNext, is⟩ := ih behind later here
          (Nat.le_of_succ_le_succ enough)
        refine ⟨j, d, List.mem_cons_of_mem _ (List.mem_append_right _ memJ), foundJ, isNext, ?_⟩
        simp only [Manager.unlinkBehind, foundK, if_neg here, if_neg real]
        exact is

/-- The one cell that links to a chunk is redirected. -/
theorem Tree.redirected (tree : Tree t F) {id j next : Nat} {c c' : TreeChunk} (real : id ≠ invalid)
    (mem : j ∈ F.ids) (found : t.memChunks.get? j = some c) (points : c.child = id ∨ c.next = id)
    (is : (c.child = id ∧ c' = { c with child := next }) ∨
      (c.next = id ∧ c' = { c with next := next })) :
    ∀ i ∈ F.ids, i ≠ id →
      cells (t.setChunk j c') i = (cells t i).map (Cell.redirect id next) := by
  have foundC : cells t j = some c.toCell := by
    rw [cells, found]
    rfl
  obtain ⟨_, once, others⟩ := tree.links.pointsTo_eq_zero real tree.nodup mem
    (pointsTo_pos foundC points)
  intro i memI _
  rw [cells_setChunk]
  split
  · rename_i here
    cases here
    rw [foundC, Option.map_some, Cell.redirect]
    rw [pointsTo, foundC] at once
    simp only at once
    congr 1
    rcases is with ⟨isChild, rfl⟩ | ⟨isNext, rfl⟩
    · have notNext : c.next ≠ id := by
        intro eq
        rw [if_pos isChild, if_pos eq] at once
        omega
      rw [skip, skip, if_pos isChild, if_neg notNext]
    · have notChild : c.child ≠ id := by
        intro eq
        rw [if_pos isNext, if_pos eq] at once
        omega
      rw [skip, skip, if_neg notChild, if_pos isNext]
  · rename_i ne
    obtain ⟨d, foundI⟩ := tree.links.found i memI
    obtain ⟨notChild, notNext⟩ := pointsTo_zero foundI (others i memI ne)
    rw [foundI, Option.map_some, Cell.redirect, skip, skip, if_neg notChild, if_neg notNext]

theorem Tree.unlink (tree : Tree t F) {id : Nat} {d : TreeChunk} (mem : id ∈ F.ids)
    (notRoot : id ≠ root) (found : t.memChunks.get? id = some d) :
    ∃ u j c c', t.unlink id d = some u ∧ t.memChunks.get? j = some c ∧ u = t.setChunk j c' ∧
      ∀ i ∈ F.ids, i ≠ id → cells u i = (cells t i).map (Cell.redirect id d.next) := by
  have real := tree.links.real id mem
  rcases tree.links.locate mem with ⟨isRoot, _⟩ | ⟨q, memQ, c, K, foundQ, links, isTop, sub, e,
    foundE, parent⟩
  · rcases tree.top with rfl | ⟨kids, rfl⟩
    · cases mem
    · exact absurd (List.mem_singleton.mp isRoot) notRoot
  · rw [cells, found] at foundE
    cases foundE
    obtain ⟨pchunk, foundP, rfl⟩ := cells_eq_some foundQ
    have foundP' : t.memChunks.get? d.parent = some pchunk := by rw [parent]; exact foundP
    by_cases first : pchunk.child = id
    · refine ⟨_, q, pchunk, { pchunk with child := d.next }, ?_, foundP, rfl,
        tree.redirected real memQ foundP (.inl first) (.inl ⟨first, rfl⟩)⟩
      rw [Manager.unlink, foundP']
      simp only [if_pos first, parent]
    · have enough : K.roots.length ≤ t.memChunks.entries.length := by
        have len := tree.perm.length_eq
        rw [SortedMap.keys, List.length_map] at len
        have le := K.roots_length_le
        have le' := sub.length_le
        omega
      obtain ⟨j, chunk, memJ, foundJ, isNext, is⟩ :=
        unlinkBehind_spec d.next links isTop first enough
      refine ⟨_, j, chunk, { chunk with next := d.next }, ?_, foundJ, rfl,
        tree.redirected real (sub.subset memJ) foundJ (.inr isNext) (.inr ⟨isNext, rfl⟩)⟩
      rw [Manager.unlink, foundP']
      simp only [if_neg first]
      exact is

theorem cells_erase (t : Manager) (id j : Nat) :
    cells { t with memChunks := t.memChunks.erase id } j = if j = id then none else cells t j := by
  rw [cells, SortedMap.get?_erase]
  split
  · rfl
  · rfl

/-- A chunk that is idle and has no children is taken out of the tree. -/
theorem Tree.mfree (tree : Tree t F) {id : Nat} {d : TreeChunk}
    (found : t.memChunks.get? id = some d) (idle : d.status.hasFlag .allocatedInuse = false)
    (leaf : d.child = invalid) :
    ∃ u, t.mfree id = .freed u ∧ Tree u (F.remove id) ∧ F.ids.Perm (id :: (F.remove id).ids) := by
  have mem := (tree.all id).mp ⟨d, found⟩
  have real := tree.links.real id mem
  have foundC : cells t id = some d.toCell := by
    rw [cells, found]
    rfl
  have unlinked : ∃ u, (if id ≠ root then t.unlink id d else some t) = some u ∧
      u.memIDPace = t.memIDPace ∧
      (∀ i, (∃ c, u.memChunks.get? i = some c) ↔ ∃ c, t.memChunks.get? i = some c) ∧
      ∀ i ∈ F.ids, i ≠ id → cells u i = (cells t i).map (Cell.redirect id d.next) := by
    by_cases isRoot : id = root
    · refine ⟨t, if_neg (not_not.mpr isRoot), rfl, fun _ => Iff.rfl, fun i memI ne => ?_⟩
      cases isRoot
      rcases tree.top with rfl | ⟨kids, rfl⟩
      · cases mem
      · obtain ⟨_, _, c, foundR, _, down, _⟩ := tree.links
        rw [foundC] at foundR
        cases foundR
        cases kids with
        | nil => exact absurd (List.mem_singleton.mp memI) ne
        | node k _ _ => exact absurd (down.1.symm.trans leaf) down.2.1
    · obtain ⟨u, j, c, c', is, foundJ, rfl, redirected⟩ := tree.unlink mem isRoot found
      refine ⟨_, (if_pos isRoot).trans is, rfl, fun i => ?_, redirected⟩
      simp only [Manager.setChunk, SortedMap.get?_insert]
      split
      · rename_i here
        exact iff_of_true ⟨_, rfl⟩ ⟨c, by rw [here]; exact foundJ⟩
      · exact Iff.rfl
  obtain ⟨u, is, pace, same, redirected⟩ := unlinked
  have redirected' : ∀ i ∈ F.ids, i ≠ id →
      cells { u with memChunks := u.memChunks.erase id } i =
        (cells t i).map (Cell.redirect id d.next) := fun i memI ne => by
    rw [cells_erase u id i, if_neg ne]
    exact redirected i memI ne
  obtain ⟨links, perm⟩ := tree.links.remove tree.nodup real foundC leaf redirected'
  have reorder := perm mem
  have nodup := reorder.nodup_iff.mp tree.nodup
  obtain ⟨fresh, nodup⟩ := List.nodup_cons.mp nodup
  refine ⟨{ u with memChunks := u.memChunks.erase id }, ?_, ?_, reorder⟩
  · simp only [Manager.mfree, found, idle, Bool.false_eq_true, if_false, leaf, ne_eq,
      not_true_eq_false]
    rw [is]
  · exact {
      links := by
        have start := links.start_eq
        rw [← start]
        exact links
      top := by
        rcases tree.top with rfl | ⟨kids, rfl⟩
        · cases mem
        · rw [Forest.remove]
          split
          · exact .inl rfl
          · exact .inr ⟨_, rfl⟩
      nodup := nodup
      all := by
        intro i
        rw [SortedMap.get?_erase]
        split
        · rename_i here
          cases here
          refine iff_of_false ?_ fresh
          rintro ⟨c, impossible⟩
          cases impossible
        · rename_i ne
          rw [same i, tree.all i, reorder.mem_iff, List.mem_cons, or_iff_right ne]
      below := fun i memI => by
        have less := tree.below i (reorder.mem_iff.mpr (List.mem_cons_of_mem _ memI))
        simp only [pace]
        exact less
      pace := by
        simp only [pace]
        exact tree.pace }

/-! ### `recursiveMfree` -/

/-- The chunks of the list are not in use. -/
def Idle (t : Manager) (ids : List Nat) : Prop :=
  ∀ j ∈ ids, ∀ c, t.memChunks.get? j = some c → c.status.hasFlag .allocatedInuse = false

/-- `mfree` of the first chunk below `p`. -/
theorem mfree_first {p id : Nat} {c cp : TreeChunk} (notRoot : id ≠ root) (ne : p ≠ id)
    (found : t.memChunks.get? id = some c) (parent : c.parent = p) (leaf : c.child = invalid)
    (idle : c.status.hasFlag .allocatedInuse = false) (foundP : t.memChunks.get? p = some cp)
    (first : cp.child = id) :
    ∃ u, t.mfree id = .freed u ∧ u.memChunks.get? id = none ∧
      u.memChunks.get? p = some { cp with child := c.next } ∧
      ∀ j, j ≠ id → j ≠ p → u.memChunks.get? j = t.memChunks.get? j := by
  refine ⟨{ t with memChunks := (t.memChunks.insert p { cp with child := c.next }).erase id },
    ?_, ?_, ?_, fun j notId notP => ?_⟩
  · rw [← parent] at foundP
    simp only [Manager.mfree, found, idle, Bool.false_eq_true, if_false, leaf, ne_eq,
      not_true_eq_false, notRoot, not_false_eq_true, if_true, Manager.unlink, foundP, if_pos first]
    rw [parent]
    rfl
  · rw [SortedMap.get?_erase, if_pos rfl]
  · rw [SortedMap.get?_erase, if_neg ne, SortedMap.get?_insert, if_pos rfl]
  · rw [SortedMap.get?_erase, if_neg notId, SortedMap.get?_insert, if_neg notP]

/-- What is left when the list below `p` is freed. -/
structure Emptied (t u : Manager) (p : Nat) (cp : TreeChunk) (ids : List Nat) : Prop where
  gone : ∀ j ∈ ids, u.memChunks.get? j = none
  parent : u.memChunks.get? p = some { cp with child := invalid }
  same : ∀ j, j ∉ ids → j ≠ p → u.memChunks.get? j = t.memChunks.get? j

theorem links_congr {u : Manager} {p start : Nat} (links : Linked (cells t) invalid p start F)
    (same : ∀ j ∈ F.ids, u.memChunks.get? j = t.memChunks.get? j) :
    Linked (cells u) invalid p start F :=
  links.congr fun j mem => by rw [cells, cells, same j mem]

/-- The list below `p` is freed, every chunk behind what is below it. -/
theorem freeList_spec {F : Forest Nat} : ∀ {t : Manager} {p start fuel : Nat} {cp : TreeChunk},
    Linked (cells t) invalid p start F → F ≠ .nil → F.ids.Nodup → p ∉ F.ids → root ∉ F.ids →
    t.memChunks.get? p = some cp → cp.child = start → Idle t F.ids → F.ids.length ≤ fuel →
    ∃ u, Manager.freeList fuel t start = some (u, F.postorder) ∧ Emptied t u p cp F.ids := by
  induction F with
  | nil => exact fun _ ne => absurd rfl ne
  | node id kids rest first second =>
      intro t p start fuel cp links _ nodup freshP notRoot foundP isFirst idle enough
      obtain ⟨rfl, real, c, foundC, parent, down, behind⟩ := links
      obtain ⟨chunk, found, rfl⟩ := cells_eq_some foundC
      rw [Forest.ids, List.nodup_cons, List.mem_append, not_or, List.nodup_append] at nodup
      obtain ⟨⟨freshK, freshR⟩, nodupK, nodupR, apart⟩ := nodup
      rw [Forest.ids, List.mem_cons, List.mem_append, not_or, not_or] at freshP notRoot
      rw [Forest.ids, List.length_cons, List.length_append] at enough
      obtain ⟨fuel, rfl⟩ : ∃ n, fuel = n + 1 := ⟨fuel - 1, by omega⟩
      have idleK : Idle t kids.ids := fun j mem =>
        idle j (List.mem_cons_of_mem _ (List.mem_append_left _ mem))
      -- what is below the chunk
      obtain ⟨t₁, isBelow, foundI, same₁, gone₁⟩ : ∃ t₁,
          (if chunk.child ≠ invalid then Manager.freeList fuel t chunk.child else some (t, [])) =
            some (t₁, kids.postorder) ∧
          t₁.memChunks.get? start = some { chunk with child := invalid } ∧
          (∀ j, j ∉ kids.ids → j ≠ start → t₁.memChunks.get? j = t.memChunks.get? j) ∧
          ∀ j ∈ kids.ids, t₁.memChunks.get? j = none := by
        by_cases leaf : chunk.child = invalid
        · have childless : kids = .nil := by
            cases kids with
            | nil => rfl
            | node k _ _ => exact absurd (down.1.symm.trans leaf) down.2.1
          cases childless
          refine ⟨t, if_neg (not_not.mpr leaf), ?_, fun _ _ _ => rfl,
            fun _ mem => absurd mem List.not_mem_nil⟩
          rw [found, ← leaf]
        · have inner : kids ≠ .nil := by
            rintro rfl
            exact leaf down
          obtain ⟨u, is, emptied⟩ := first down inner nodupK freshK notRoot.2.1 found rfl idleK
            (by omega : kids.ids.length ≤ fuel)
          exact ⟨u, (if_pos leaf).trans is, emptied.parent, emptied.same, emptied.gone⟩
      -- the chunk itself
      have foundP₁ : t₁.memChunks.get? p = some cp := by
        rw [same₁ p freshP.2.1 freshP.1, foundP]
      obtain ⟨t₂, freed, gone₂, foundP₂, same₂⟩ := mfree_first (Ne.symm notRoot.1) freshP.1 foundI
        parent rfl (idle start List.mem_cons_self chunk found) foundP₁ isFirst
      have sameR : ∀ j ∈ rest.ids, t₂.memChunks.get? j = t.memChunks.get? j := fun j mem => by
        have notK : j ∉ kids.ids := fun memK => apart j memK j mem rfl
        have notI : j ≠ start := ne_of_mem_of_not_mem mem freshR
        have notP : j ≠ p := ne_of_mem_of_not_mem mem freshP.2.2
        rw [same₂ j notI notP, same₁ j notK notI]
      by_cases last : rest = .nil
      · cases last
        have atEnd : chunk.next = invalid := behind
        refine ⟨t₂, ?_, ?_⟩
        · simp only [Manager.freeList, found, isBelow, Option.bind_some, foundI, ne_eq, atEnd,
            not_true_eq_false, if_false, freed]
          rfl
        · exact {
            gone := by
              intro j mem
              rcases List.mem_cons.mp mem with rfl | mem
              · exact gone₂
              · have memK := (List.mem_append.mp mem).resolve_right List.not_mem_nil
                rw [same₂ j (ne_of_mem_of_not_mem memK freshK)
                  (ne_of_mem_of_not_mem memK freshP.2.1)]
                exact gone₁ j memK
            parent := by
              rw [foundP₂]
              simp only [atEnd]
            same := by
              intro j not notP
              rw [Forest.ids, List.mem_cons, List.mem_append, not_or, not_or] at not
              rw [same₂ j not.1 notP, same₁ j not.2.1 not.1] }
      · have linksR := links_congr behind sameR
        have realR : chunk.next ≠ invalid := by
          cases rest with
          | nil => exact absurd rfl last
          | node j _ _ => rw [behind.1]; exact behind.2.1
        have foundNext : ∃ e, t₁.memChunks.get? chunk.next = some e := by
          cases rest with
          | nil => exact absurd rfl last
          | node j below younger =>
              obtain ⟨points, _, d, foundD, _⟩ := behind
              obtain ⟨e, foundE, _⟩ := cells_eq_some foundD
              have memNext : j ∈ (Forest.node j below younger).ids := List.mem_cons_self
              refine ⟨e, ?_⟩
              rw [points, same₁ j (fun memK => apart j memK j memNext rfl)
                (ne_of_mem_of_not_mem memNext freshR)]
              exact foundE
        obtain ⟨e, foundE⟩ := foundNext
        obtain ⟨u, is, emptied⟩ := second linksR last nodupR freshP.2.2 notRoot.2.2 foundP₂ rfl
          (fun j mem d foundJ => idle j
            (List.mem_cons_of_mem _ (List.mem_append_right _ mem)) d
            (by rw [← sameR j mem]; exact foundJ))
          (by omega : rest.ids.length ≤ fuel)
        refine ⟨u, ?_, ?_⟩
        · simp only [Manager.freeList, found, isBelow, Option.bind_some, foundI, ne_eq, realR,
            not_false_eq_true, if_true, foundE, freed, is, Option.map_some]
          rfl
        · exact {
            gone := by
              intro j mem
              rcases List.mem_cons.mp mem with rfl | mem
              · rw [emptied.same _ freshR (Ne.symm freshP.1)]
                exact gone₂
              · rcases List.mem_append.mp mem with memK | memR
                · rw [emptied.same j (fun memR => apart j memK j memR rfl)
                    (ne_of_mem_of_not_mem memK freshP.2.1),
                    same₂ j (ne_of_mem_of_not_mem memK freshK)
                      (ne_of_mem_of_not_mem memK freshP.2.1)]
                  exact gone₁ j memK
                · exact emptied.gone j memR
            parent := emptied.parent
            same := by
              intro j not notP
              rw [Forest.ids, List.mem_cons, List.mem_append, not_or, not_or] at not
              rw [emptied.same j not.2.2 notP, same₂ j not.1 notP, same₁ j not.2.1 not.1] }

/-- The whole tree is freed. -/
theorem Tree.recursiveMfree {kids : Forest Nat} (tree : Tree t (.node root kids .nil))
    (idle : Idle t (Forest.node root kids .nil).ids) :
    ∃ u, t.recursiveMfree root = some (u, (Forest.node root kids .nil).postorder) ∧
      u.memChunks.keys = [] := by
  obtain ⟨_, _, c, foundC, parent, down, behind⟩ := tree.links
  obtain ⟨chunk, found, rfl⟩ := cells_eq_some foundC
  have nodup := tree.nodup
  rw [Forest.ids, Forest.ids, List.append_nil, List.nodup_cons] at nodup
  obtain ⟨fresh, nodup⟩ := nodup
  have len := tree.perm.length_eq
  rw [SortedMap.keys, List.length_map, Forest.ids, Forest.ids, List.append_nil,
    List.length_cons] at len
  have others : ∀ j, j ∉ kids.ids → j ≠ root → t.memChunks.get? j = none := by
    intro j notK notRoot
    cases absent : t.memChunks.get? j with
    | none => rfl
    | some d =>
        have mem := (tree.all j).mp ⟨d, absent⟩
        rw [Forest.ids, Forest.ids, List.append_nil] at mem
        exact absurd ((List.mem_cons.mp mem).resolve_left notRoot) notK
  obtain ⟨u, isBelow, foundRoot, gone⟩ : ∃ u,
      (if chunk.child ≠ invalid then Manager.freeList kids.ids.length t chunk.child
        else some (t, [])) = some (u, kids.postorder) ∧
      u.memChunks.get? root = some { chunk with child := invalid } ∧
      ∀ j, j ≠ root → u.memChunks.get? j = none := by
    by_cases leaf : chunk.child = invalid
    · have childless : kids = .nil := by
        cases kids with
        | nil => rfl
        | node k _ _ => exact absurd (down.1.symm.trans leaf) down.2.1
      cases childless
      refine ⟨t, if_neg (not_not.mpr leaf), by rw [found, ← leaf], fun j ne => ?_⟩
      exact others j List.not_mem_nil ne
    · have inner : kids ≠ .nil := by
        rintro rfl
        exact leaf down
      obtain ⟨u, is, emptied⟩ := freeList_spec down inner nodup fresh fresh found rfl
        (fun j mem => idle j (List.mem_cons_of_mem _ (List.mem_append_left _ mem))) le_rfl
      refine ⟨u, (if_pos leaf).trans is, emptied.parent, fun j ne => ?_⟩
      by_cases memK : j ∈ kids.ids
      · exact emptied.gone j memK
      · rw [emptied.same j memK ne]
        exact others j memK ne
  have atEnd : chunk.next = invalid := behind
  have idleRoot := idle root List.mem_cons_self chunk found
  refine ⟨{ u with memChunks := u.memChunks.erase root }, ?_, ?_⟩
  · rw [Manager.recursiveMfree, len]
    simp only [Manager.freeList, found, isBelow, Option.bind_some, foundRoot, ne_eq, atEnd,
      not_true_eq_false, if_false, Manager.mfree, idleRoot, Bool.false_eq_true]
    rfl
  · refine List.eq_nil_iff_forall_not_mem.mpr fun j mem => ?_
    obtain ⟨d, foundJ⟩ := SortedMap.mem_keys_iff.mp mem
    rw [SortedMap.get?_erase] at foundJ
    split at foundJ
    · cases foundJ
    · rename_i ne
      rw [gone j ne] at foundJ
      cases foundJ

/-! ### Runs -/

/-- The calls of a build with `PARENTAL_CONTROL`. The root chunk is the manager's own: only its
destructor frees it. -/
inductive TreeOp where
  | mmalloc (parent : Nat)
  | mfree (id : Nat)
  /-- `setUse`, `unsetUse` and the swap change the status of a chunk. -/
  | setStatus (id : Nat) (status : MemoryStatus)
  deriving DecidableEq

/-- One call; `none` where `managedMemory::parent` or the chunk is not registered. -/
def step (t : Manager) : TreeOp → Option Manager
  | .mmalloc parent => if (t.memChunks.get? parent).isSome then t.mmalloc parent else none
  | .mfree id =>
      if id = root then none
      else
        match t.mfree id with
        | .freed t => some t
        | .inUse t => some t
        | .hasChildren t => some t
        | .fault => none
  | .setStatus id status =>
      (t.memChunks.get? id).map fun chunk => t.setChunk id { chunk with status }

theorem Tree.setStatus {id : Nat} {c : TreeChunk} (tree : Tree t F)
    (found : t.memChunks.get? id = some c) (status : MemoryStatus) :
    Tree (t.setChunk id { c with status }) F where
  links := tree.links.congr fun j _ => by
    rw [cells_setChunk]
    split
    · rename_i here
      rw [here, cells, found]
      rfl
    · rfl
  top := tree.top
  nodup := tree.nodup
  all := by
    intro j
    rw [Manager.setChunk, SortedMap.get?_insert, ← tree.all j]
    split
    · rename_i here
      exact iff_of_true ⟨_, rfl⟩ ⟨c, by rw [here]; exact found⟩
    · exact Iff.rfl
  below := tree.below
  pace := tree.pace

/-- What every call keeps. -/
theorem step_tree {op : TreeOp} {u : Manager} (tree : ∃ kids, Tree t (.node root kids .nil))
    (taken : step t op = some u) : ∃ kids, Tree u (.node root kids .nil) := by
  obtain ⟨kids, tree⟩ := tree
  cases op with
  | mmalloc parent =>
      simp only [step] at taken
      split at taken
      · rename_i there
        obtain ⟨c, found⟩ := Option.isSome_iff_exists.mp there
        obtain ⟨v, is, next⟩ := tree.mmalloc ((tree.all parent).mp ⟨c, found⟩)
        rw [taken] at is
        cases is
        rw [Forest.insertUnder] at next
        split at next
        · exact ⟨_, next⟩
        · exact ⟨_, next⟩
      · cases taken
  | mfree id =>
      simp only [step] at taken
      split at taken
      · cases taken
      · rename_i notRoot
        cases found : t.memChunks.get? id with
        | none =>
            simp only [Manager.mfree, found] at taken
            cases taken
        | some c =>
            cases idle : c.status.hasFlag .allocatedInuse with
            | true =>
                simp only [Manager.mfree, found, idle, if_true] at taken
                cases taken
                exact ⟨kids, tree⟩
            | false =>
                by_cases leaf : c.child = invalid
                · obtain ⟨v, is, next, _⟩ := tree.mfree found idle leaf
                  rw [is] at taken
                  cases taken
                  rw [Forest.remove, if_neg (Ne.symm notRoot)] at next
                  exact ⟨_, next⟩
                · simp only [Manager.mfree, found, idle, Bool.false_eq_true, if_false, ne_eq, leaf,
                    not_false_eq_true, if_true] at taken
                  cases taken
                  exact ⟨kids, tree⟩
  | setStatus id status =>
      obtain ⟨c, found, rfl⟩ := Option.map_eq_some_iff.mp taken
      exact ⟨kids, tree.setStatus found status⟩

/-- In every state the ids form a tree over the registered chunks, `mfree` takes out exactly its
chunk or refuses, and `recursiveMfree` frees every chunk once, from the leaves up. -/
theorem chunkTree_correct (ops : List TreeOp) (t : Manager)
    (reached : run step .construct ops = some t) :
    ∃ kids, Tree t (.node root kids .nil) ∧
      (∀ id c, t.memChunks.get? id = some c → c.status.hasFlag .allocatedInuse = false →
        (c.child ≠ invalid → t.mfree id = .hasChildren t) ∧
        (c.child = invalid → ∃ u, t.mfree id = .freed u ∧
          Tree u ((Forest.node root kids .nil).remove id) ∧
          t.memChunks.keys.Perm (id :: u.memChunks.keys))) ∧
      (Idle t t.memChunks.keys →
        ∃ u freed, t.recursiveMfree root = some (u, freed) ∧ u.memChunks.keys = [] ∧
          freed.Perm t.memChunks.keys ∧
          ∀ id c, t.memChunks.get? id = some c → id ≠ root → [id, c.parent].Sublist freed) := by
  obtain ⟨kids, tree⟩ := run_invariant (fun t => ∃ kids, Tree t (.node root kids .nil))
    (fun _ _ _ tree taken => step_tree tree taken) ops ⟨.nil, construct_tree⟩ reached
  refine ⟨kids, tree, fun id c found idle => ⟨fun children => ?_, fun leaf => ?_⟩, fun idle => ?_⟩
  · simp only [Manager.mfree, found, idle, Bool.false_eq_true, if_false, ne_eq, children,
      not_false_eq_true, if_true]
  · obtain ⟨u, is, next, perm⟩ := tree.mfree found idle leaf
    exact ⟨u, is, next, (tree.perm.trans perm).trans (next.perm.symm.cons id)⟩
  · have all : Idle t (Forest.node root kids .nil).ids := fun j mem =>
      idle j (tree.perm.mem_iff.mpr mem)
    obtain ⟨u, is, empty⟩ := tree.recursiveMfree all
    refine ⟨u, _, is, empty, (Forest.postorder_perm _).trans tree.perm.symm,
      fun id c found notRoot => ?_⟩
    obtain ⟨d, foundD, ⟨isTop, _⟩ | ⟨_, before⟩⟩ :=
      tree.links.before_parent ((tree.all id).mp ⟨c, found⟩)
    · exact absurd (List.mem_singleton.mp isTop) notRoot
    · rw [cells, found] at foundD
      cases foundD
      exact before

/-- Three chunks below another one, of which the one in the middle of the list is freed. -/
def siblings : List TreeOp := [.mmalloc root, .mmalloc 2, .mmalloc 2, .mmalloc 2, .mfree 4]

theorem chunkTree_correct_siblings :
    ∃ t, run step .construct siblings = some t ∧
      ∃ kids, Tree t (.node root kids .nil) ∧ t.mfree 2 = .hasChildren t ∧
        (∃ u, t.mfree 3 = .freed u ∧ Tree u ((Forest.node root kids .nil).remove 3) ∧
          t.memChunks.keys.Perm (3 :: u.memChunks.keys)) ∧
        ∃ u freed, t.recursiveMfree root = some (u, freed) ∧ u.memChunks.keys = [] ∧
          freed.Perm t.memChunks.keys ∧ [3, 2].Sublist freed := by
  obtain ⟨t, is⟩ := Option.isSome_iff_exists.mp
    (show (run step .construct siblings).isSome = true by decide)
  obtain ⟨l, isL⟩ : ∃ l : List (Nat × TreeChunk), l =
      [(1, ⟨⟨1, 0, 2⟩, .root⟩), (2, ⟨⟨1, 0, 5⟩, .allocated⟩),
        (3, ⟨⟨2, 0, 0⟩, .allocated⟩), (5, ⟨⟨2, 3, 0⟩, .allocated⟩)] := ⟨_, rfl⟩
  have chunks : (run step .construct siblings).map (·.memChunks.entries) = some l := by
    rw [isL]
    decide
  rw [is] at chunks
  have entries : t.memChunks.entries = l := Option.some.inj chunks
  have found : ∀ {id c}, (id, c) ∈ l → t.memChunks.get? id = some c := fun mem =>
    SortedMap.get?_eq_some_iff.mpr (entries ▸ mem)
  have idle : Idle t t.memChunks.keys := by
    intro j _ c isC
    have mem := SortedMap.get?_eq_some_iff.mp isC
    rw [entries, isL] at mem
    simp only [List.mem_cons, Prod.mk.injEq, List.not_mem_nil, or_false] at mem
    rcases mem with ⟨_, rfl⟩ | ⟨_, rfl⟩ | ⟨_, rfl⟩ | ⟨_, rfl⟩ <;> decide
  have above : t.memChunks.get? 2 = some ⟨⟨1, 0, 5⟩, .allocated⟩ := found (by simp [isL])
  have leaf : t.memChunks.get? 3 = some ⟨⟨2, 0, 0⟩, .allocated⟩ := found (by simp [isL])
  obtain ⟨kids, tree, mfree, recursive⟩ := chunkTree_correct siblings t is
  obtain ⟨u, freed, released, empty, all, order⟩ := recursive idle
  exact ⟨t, is, kids, tree, (mfree 2 _ above (by decide)).1 (by decide),
    (mfree 3 _ leaf (by decide)).2 rfl, u, freed, released, empty, all,
    order 3 _ leaf (by decide)⟩
end Rambrain.ChunkTree
