import Mathlib

/-!
Ordered forests in first-child, next-sibling form, and cells that link one up.

`Linked cell null p start F` says that the links from `start` on, `null` ending a list, are the
forest `F` below `p`. A forest without repetitions is linked to once at each of its nodes
(`Linked.pointers`), so that a link to a leaf that is redirected takes the leaf out and nothing else
(`Linked.remove`).
-/

namespace Rambrain.Lib

universe u

variable {κ : Type u}

/-- A first node with what is below it, and what comes behind it. -/
inductive Forest (κ : Type u) where
  | nil
  | node (id : κ) (kids rest : Forest κ)
  deriving DecidableEq

namespace Forest

def ids : Forest κ → List κ
  | nil => []
  | node id kids rest => id :: (kids.ids ++ rest.ids)

/-- The nodes at the top. -/
def roots : Forest κ → List κ
  | nil => []
  | node id _ rest => id :: rest.roots

/-- What is below a node comes before it. -/
def postorder : Forest κ → List κ
  | nil => []
  | node id kids rest => kids.postorder ++ id :: rest.postorder

def head (null : κ) : Forest κ → κ
  | nil => null
  | node id _ _ => id

/-- A leaf is taken out. -/
def remove [DecidableEq κ] (x : κ) : Forest κ → Forest κ
  | nil => nil
  | node id kids rest => if id = x then rest else node id (kids.remove x) (rest.remove x)

/-- A leaf is put before what is below a node. -/
def insertUnder [DecidableEq κ] (p x : κ) : Forest κ → Forest κ
  | nil => nil
  | node id kids rest =>
      if id = p then node id (node x nil kids) rest
      else node id (kids.insertUnder p x) (rest.insertUnder p x)

theorem roots_subset (F : Forest κ) : ∀ x ∈ F.roots, x ∈ F.ids := by
  induction F with
  | nil => exact fun _ mem => mem
  | node id kids rest _ ih =>
      intro x mem
      rcases List.mem_cons.mp mem with rfl | mem
      · exact List.mem_cons_self
      · exact List.mem_cons_of_mem _ (List.mem_append_right _ (ih x mem))

theorem roots_length_le (F : Forest κ) : F.roots.length ≤ F.ids.length := by
  induction F with
  | nil => exact le_rfl
  | node id kids rest _ ih =>
      rw [roots, ids, List.length_cons, List.length_cons, List.length_append]
      omega

theorem postorder_perm (F : Forest κ) : F.postorder.Perm F.ids := by
  induction F with
  | nil => exact List.Perm.refl _
  | node id kids rest first second =>
      exact List.perm_middle.trans ((first.append second).cons id)

theorem remove_of_notMem [DecidableEq κ] {x : κ} (F : Forest κ) (absent : x ∉ F.ids) :
    F.remove x = F := by
  induction F with
  | nil => rfl
  | node id kids rest first second =>
      rw [ids, List.mem_cons, List.mem_append, not_or, not_or] at absent
      rw [remove, if_neg (Ne.symm absent.1), first absent.2.1, second absent.2.2]

theorem insertUnder_perm [DecidableEq κ] {p x : κ} (F : Forest κ) (mem : p ∈ F.ids)
    (nodup : F.ids.Nodup) :
    (F.insertUnder p x).ids.Perm (x :: F.ids) := by
  have absent : ∀ F : Forest κ, p ∉ F.ids → F.insertUnder p x = F := by
    intro F
    induction F with
    | nil => exact fun _ => rfl
    | node id kids rest first second =>
        intro absent
        rw [ids, List.mem_cons, List.mem_append, not_or, not_or] at absent
        rw [insertUnder, if_neg (Ne.symm absent.1), first absent.2.1, second absent.2.2]
  induction F with
  | nil => cases mem
  | node id kids rest first second =>
      rw [ids, List.nodup_cons, List.nodup_append] at nodup
      obtain ⟨_, nodupK, nodupR, apart⟩ := nodup
      rw [insertUnder]
      split
      · exact List.Perm.swap _ _ _
      · rename_i ne
        rw [ids, List.mem_cons, List.mem_append] at mem
        rw [ids]
        rcases mem with rfl | memK | memR
        · exact absurd rfl ne
        · have absentR : p ∉ rest.ids := fun memR => apart p memK p memR rfl
          rw [absent rest absentR]
          exact (((first memK nodupK).append_right rest.ids).cons id).trans (List.Perm.swap _ _ _)
        · have absentK : p ∉ kids.ids := fun memK => apart p memK p memR rfl
          rw [absent kids absentK]
          exact (((second memR nodupR).append_left kids.ids).trans List.perm_middle
            |>.cons id).trans
            (List.Perm.swap _ _ _)

end Forest

/-- The links of a node. -/
structure Cell (κ : Type u) where
  parent : κ
  next : κ
  child : κ
  deriving DecidableEq

/-- From `start` on the cells are linked up to the forest, all below `p`. -/
def Linked (cell : κ → Option (Cell κ)) (null : κ) : κ → κ → Forest κ → Prop
  | _, start, .nil => start = null
  | p, start, .node id kids rest =>
      start = id ∧ id ≠ null ∧ ∃ c, cell id = some c ∧ c.parent = p ∧
        Linked cell null id c.child kids ∧ Linked cell null p c.next rest

section
variable {cell cell' : κ → Option (Cell κ)} {null p start x : κ} {F : Forest κ}

theorem Linked.congr (links : Linked cell null p start F)
    (same : ∀ j ∈ F.ids, cell' j = cell j) : Linked cell' null p start F := by
  induction F generalizing p start with
  | nil => exact links
  | node id kids rest first second =>
      obtain ⟨here, real, c, found, parent, down, behind⟩ := links
      refine ⟨here, real, c, by rw [same id List.mem_cons_self, found], parent, ?_, ?_⟩
      · exact first down fun j mem => same j (List.mem_cons_of_mem _ (List.mem_append_left _ mem))
      · exact second behind fun j mem =>
          same j (List.mem_cons_of_mem _ (List.mem_append_right _ mem))

theorem Linked.start_eq (links : Linked cell null p start F) : start = F.head null := by
  cases F with
  | nil => exact links
  | node id kids rest => exact links.1

theorem Linked.real (links : Linked cell null p start F) : ∀ j ∈ F.ids, j ≠ null := by
  induction F generalizing p start with
  | nil => exact fun _ mem => absurd mem List.not_mem_nil
  | node id kids rest first second =>
      obtain ⟨_, real, c, _, _, down, behind⟩ := links
      intro j mem
      rcases List.mem_cons.mp mem with rfl | mem
      · exact real
      · exact (List.mem_append.mp mem).elim (first down j) (second behind j)

theorem Linked.found (links : Linked cell null p start F) : ∀ j ∈ F.ids, ∃ c, cell j = some c := by
  induction F generalizing p start with
  | nil => exact fun _ mem => absurd mem List.not_mem_nil
  | node id kids rest first second =>
      obtain ⟨_, _, c, found, _, down, behind⟩ := links
      intro j mem
      rcases List.mem_cons.mp mem with rfl | mem
      · exact ⟨c, found⟩
      · exact (List.mem_append.mp mem).elim (first down j) (second behind j)

/-- How often a cell links to `x`. -/
def pointsTo [DecidableEq κ] (cell : κ → Option (Cell κ)) (x j : κ) : Nat :=
  match cell j with
  | some c => (if c.child = x then 1 else 0) + if c.next = x then 1 else 0
  | none => 0

/-- Every node is linked to as often as it occurs. -/
theorem Linked.pointers [DecidableEq κ] (links : Linked cell null p start F) (real : x ≠ null) :
    (if start = x then 1 else 0) + (F.ids.map (pointsTo cell x)).sum = F.ids.count x := by
  induction F generalizing p start with
  | nil =>
      have isNull : start = null := links
      rw [isNull, if_neg (Ne.symm real)]
      rfl
  | node id kids rest first second =>
      obtain ⟨rfl, _, c, found, _, down, behind⟩ := links
      have one := first down
      have two := second behind
      have here : pointsTo cell x start =
          (if c.child = x then 1 else 0) + if c.next = x then 1 else 0 := by
        rw [pointsTo, found]
      rw [Forest.ids, List.map_cons, List.sum_cons, List.map_append, List.sum_append, here,
        List.count_cons, List.count_append, ← one, ← two]
      simp only [beq_iff_eq]
      omega

/-- In a forest without repetitions only one cell links to a node. -/
theorem Linked.pointsTo_eq_zero [DecidableEq κ] (links : Linked cell null p start F)
    (real : x ≠ null)
    (nodup : F.ids.Nodup) {j : κ} (mem : j ∈ F.ids) (points : 1 ≤ pointsTo cell x j) :
    start ≠ x ∧ pointsTo cell x j = 1 ∧ ∀ i ∈ F.ids, i ≠ j → pointsTo cell x i = 0 := by
  have count := links.pointers real
  have once := List.nodup_iff_count_le_one.mp nodup x
  have perm := List.perm_cons_erase mem
  have sum := (perm.map (pointsTo cell x)).sum_eq
  rw [List.map_cons, List.sum_cons] at sum
  refine ⟨fun eq => ?_, by omega, fun i memI ne => ?_⟩
  · rw [if_pos eq] at count
    omega
  · have le := List.single_le_sum (fun n _ => Nat.zero_le n) _
      (List.mem_map_of_mem (f := pointsTo cell x) ((List.mem_erase_of_ne ne).mpr memI))
    omega

theorem pointsTo_pos [DecidableEq κ] {c : Cell κ} {j : κ} (found : cell j = some c)
    (links : c.child = x ∨ c.next = x) : 1 ≤ pointsTo cell x j := by
  rw [pointsTo, found]
  rcases links with eq | eq
  · simp only [if_pos eq]
    omega
  · simp only [if_pos eq]
    omega

theorem pointsTo_zero [DecidableEq κ] {c : Cell κ} {j : κ} (found : cell j = some c)
    (zero : pointsTo cell x j = 0) : c.child ≠ x ∧ c.next ≠ x := by
  constructor
  · intro eq
    have pos := pointsTo_pos found (.inl eq)
    omega
  · intro eq
    have pos := pointsTo_pos found (.inr eq)
    omega

/-- Where a node is: in the list below `p`, or in the list below another node. -/
theorem Linked.locate (links : Linked cell null p start F) (mem : x ∈ F.ids) :
    (x ∈ F.roots ∧ ∃ c, cell x = some c ∧ c.parent = p) ∨
      ∃ q ∈ F.ids, ∃ c K, cell q = some c ∧ Linked cell null q c.child K ∧ x ∈ K.roots ∧
        K.ids.Sublist F.ids ∧ ∃ d, cell x = some d ∧ d.parent = q := by
  induction F generalizing p start with
  | nil => cases mem
  | node id kids rest first second =>
      obtain ⟨_, _, c, found, parent, down, behind⟩ := links
      have subK : kids.ids.Sublist (Forest.node id kids rest).ids :=
        (List.sublist_append_left _ _).cons _
      have subR : rest.ids.Sublist (Forest.node id kids rest).ids :=
        (List.sublist_append_right _ _).cons _
      rw [Forest.ids, List.mem_cons, List.mem_append] at mem
      rcases mem with rfl | mem | mem
      · exact .inl ⟨List.mem_cons_self, c, found, parent⟩
      · rcases first down mem with ⟨root, d⟩ | ⟨q, memQ, d, K, foundQ, linksK, root, sub, parentX⟩
        · exact .inr ⟨id, List.mem_cons_self, c, kids, found, down, root, subK, d⟩
        · exact .inr ⟨q, subK.subset memQ, d, K, foundQ, linksK, root, sub.trans subK, parentX⟩
      · rcases second behind mem with ⟨root, d⟩ |
          ⟨q, memQ, d, K, foundQ, linksK, root, sub, parentX⟩
        · exact .inl ⟨List.mem_cons_of_mem _ root, d⟩
        · exact .inr ⟨q, subR.subset memQ, d, K, foundQ, linksK, root, sub.trans subR, parentX⟩

/-- A node comes before the one it is below in the order from the leaves up. -/
theorem Linked.before_parent (links : Linked cell null p start F) (mem : x ∈ F.ids) :
    ∃ c, cell x = some c ∧
      ((x ∈ F.roots ∧ c.parent = p) ∨
        (c.parent ∈ F.ids ∧ [x, c.parent].Sublist F.postorder)) := by
  induction F generalizing p start with
  | nil => cases mem
  | node id kids rest first second =>
      obtain ⟨_, _, c, found, parent, down, behind⟩ := links
      rw [Forest.ids, List.mem_cons, List.mem_append] at mem
      rcases mem with rfl | mem | mem
      · exact ⟨c, found, .inl ⟨List.mem_cons_self, parent⟩⟩
      · obtain ⟨d, foundX, ⟨isRoot, rfl⟩ | ⟨memQ, before⟩⟩ := first down mem
        · refine ⟨d, foundX, .inr ⟨List.mem_cons_self, ?_⟩⟩
          have here : x ∈ kids.postorder :=
            (kids.postorder_perm.mem_iff).mpr (kids.roots_subset x isRoot)
          exact (List.singleton_sublist.mpr here).append
            (List.singleton_sublist.mpr List.mem_cons_self)
        · exact ⟨d, foundX, .inr ⟨List.mem_cons_of_mem _ (List.mem_append_left _ memQ),
            before.trans (List.sublist_append_left _ _)⟩⟩
      · obtain ⟨d, foundX, ⟨isRoot, isParent⟩ | ⟨memQ, before⟩⟩ := second behind mem
        · exact ⟨d, foundX, .inl ⟨List.mem_cons_of_mem _ isRoot, isParent⟩⟩
        · exact ⟨d, foundX, .inr ⟨List.mem_cons_of_mem _ (List.mem_append_right _ memQ),
            (before.cons _).trans (List.sublist_append_right _ _)⟩⟩

/-- A link to `x` goes to what is behind it. -/
def skip [DecidableEq κ] (x behind y : κ) : κ := if y = x then behind else y

/-- The cell with the links to `x` redirected. -/
def Cell.redirect [DecidableEq κ] (x behind : κ) (c : Cell κ) : Cell κ :=
  { c with child := skip x behind c.child, next := skip x behind c.next }

/-- A leaf is taken out when the links to it are redirected. -/
theorem Linked.remove [DecidableEq κ] {d : Cell κ} (links : Linked cell null p start F)
    (nodup : F.ids.Nodup)
    (real : x ≠ null) (foundX : cell x = some d) (leaf : d.child = null)
    (redirected : ∀ j ∈ F.ids, j ≠ x → cell' j = (cell j).map (Cell.redirect x d.next)) :
    Linked cell' null p (skip x d.next start) (F.remove x) ∧
      (x ∈ F.ids → F.ids.Perm (x :: (F.remove x).ids)) := by
  induction F generalizing p start with
  | nil =>
      have isNull : start = null := links
      refine ⟨?_, fun mem => absurd mem List.not_mem_nil⟩
      rw [isNull, skip, if_neg (Ne.symm real)]
      rfl
  | node id kids rest first second =>
      obtain ⟨rfl, realId, c, found, parent, down, behind⟩ := links
      have all := nodup
      rw [Forest.ids, List.nodup_cons, List.mem_append, not_or, List.nodup_append] at nodup
      obtain ⟨⟨freshK, freshR⟩, nodupK, nodupR, apart⟩ := nodup
      have children := first down nodupK fun j mem =>
        redirected j (List.mem_cons_of_mem _ (List.mem_append_left _ mem))
      have siblings := second behind nodupR fun j mem =>
        redirected j (List.mem_cons_of_mem _ (List.mem_append_right _ mem))
      by_cases here : start = x
      · cases here
        rw [found] at foundX
        cases foundX
        have childless : kids = .nil := by
          cases kids with
          | nil => rfl
          | node k _ _ => exact absurd (down.1.symm.trans leaf) down.2.1
        have stays : skip x d.next d.next = d.next := by
          unfold skip
          split <;> rfl
        rw [stays, Forest.remove_of_notMem rest freshR] at siblings
        rw [Forest.remove, if_pos rfl, skip, if_pos rfl, childless]
        exact ⟨siblings.1, fun _ => List.Perm.refl _⟩
      · rw [Forest.remove, if_neg here, skip, if_neg here]
        refine ⟨⟨rfl, realId, c.redirect x d.next, ?_, parent, children.1, siblings.1⟩,
          fun mem => ?_⟩
        · rw [redirected start List.mem_cons_self here, found]
          rfl
        · rw [Forest.ids, List.mem_cons, List.mem_append] at mem
          rw [Forest.ids, Forest.ids]
          rcases mem with rfl | mem | mem
          · exact absurd rfl here
          · have absent : x ∉ rest.ids := fun memR => apart x mem x memR rfl
            rw [Forest.remove_of_notMem rest absent]
            exact (((children.2 mem).append_right rest.ids).cons start).trans (List.Perm.swap _ _ _)
          · have absent : x ∉ kids.ids := fun memK => apart x memK x mem rfl
            rw [Forest.remove_of_notMem kids absent]
            have moved := ((siblings.2 mem).append_left kids.ids).trans List.perm_middle
            exact (moved.cons start).trans (List.Perm.swap _ _ _)

/-- A new leaf becomes the first one below a node. -/
theorem Linked.insertUnder [DecidableEq κ] {q : κ} (links : Linked cell null p start F)
    (nodup : F.ids.Nodup)
    (real : x ≠ null) (fresh : x ∉ F.ids)
    (new : ∀ c, cell q = some c → cell' x = some ⟨q, c.child, null⟩ ∧
      cell' q = some { c with child := x })
    (same : ∀ j ∈ F.ids, j ≠ q → cell' j = cell j) :
    Linked cell' null p start (F.insertUnder q x) := by
  induction F generalizing p start with
  | nil => exact links
  | node id kids rest first second =>
      obtain ⟨rfl, realId, c, found, parent, down, behind⟩ := links
      rw [Forest.ids, List.nodup_cons, List.mem_append, not_or, List.nodup_append] at nodup
      obtain ⟨⟨freshK, freshR⟩, nodupK, nodupR, _⟩ := nodup
      rw [Forest.ids, List.mem_cons, List.mem_append, not_or, not_or] at fresh
      have sameK := fun j mem => same j (List.mem_cons_of_mem _ (List.mem_append_left _ mem))
      have sameR := fun j mem => same j (List.mem_cons_of_mem _ (List.mem_append_right _ mem))
      rw [Forest.insertUnder]
      split
      · rename_i here
        cases here
        obtain ⟨foundX, foundQ⟩ := new c found
        have down' := down.congr fun j mem => sameK j mem (ne_of_mem_of_not_mem mem freshK)
        have behind' := behind.congr fun j mem => sameR j mem (ne_of_mem_of_not_mem mem freshR)
        exact ⟨rfl, realId, _, foundQ, parent, ⟨rfl, real, _, foundX, rfl, rfl, down'⟩, behind'⟩
      · rename_i ne
        refine ⟨rfl, realId, c, by rw [same start List.mem_cons_self ne, found], parent, ?_, ?_⟩
        · exact first down nodupK fresh.2.1 sameK
        · exact second behind nodupR fresh.2.2 sameR

end

end Rambrain.Lib
