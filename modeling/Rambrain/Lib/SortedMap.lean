import Mathlib

/-!
Maps with ordered keys, as `std::map` keeps them: a list of entries sorted by key. The neighbours
of a key (`before`, `after`) are what `--it` and `++it` find.

Every operation is described at a place in the list: when the entries are `pre ++ (k, a) :: post`,
`get?` finds `a`, `before` the last of `pre`, `after` the first of `post`, and `erase` and `insert`
change this place only. `split` gives the place of a key that is there, `cut` that of one that is
not.
-/

namespace Rambrain.Lib

universe u v

/-- A finite map, as its entries in ascending order of their keys. -/
structure SortedMap (κ : Type u) (α : Type v) [LinearOrder κ] where
  entries : List (κ × α)
  sorted : entries.Pairwise fun a b => a.1 < b.1

namespace SortedMap

variable {κ : Type u} {α : Type v} [LinearOrder κ]

@[ext] theorem ext {m n : SortedMap κ α} (same : m.entries = n.entries) : m = n := by
  obtain ⟨l, hl⟩ := m
  obtain ⟨l', hl'⟩ := n
  cases same
  rfl

def empty : SortedMap κ α := ⟨[], List.Pairwise.nil⟩

def get? (m : SortedMap κ α) (k : κ) : Option α := m.entries.lookup k

def keys (m : SortedMap κ α) : List κ := m.entries.map Prod.fst

/-- `--it` from the place of a key. -/
def before (m : SortedMap κ α) (k : κ) : Option (κ × α) :=
  (m.entries.filter fun e => e.1 < k).getLast?

/-- `++it` from the place of a key. -/
def after (m : SortedMap κ α) (k : κ) : Option (κ × α) :=
  (m.entries.filter fun e => k < e.1).head?

def erase (m : SortedMap κ α) (k : κ) : SortedMap κ α :=
  ⟨m.entries.filter fun e => e.1 ≠ k, m.sorted.filter _⟩

/-- `m[k] = a`. -/
def insert (m : SortedMap κ α) (k : κ) (a : α) : SortedMap κ α where
  entries := (m.entries.filter fun e => e.1 < k) ++ (k, a) :: m.entries.filter fun e => k < e.1
  sorted := by
    refine List.pairwise_append.mpr ⟨m.sorted.filter _, ?_, ?_⟩
    · refine List.pairwise_cons.mpr ⟨fun e mem => ?_, m.sorted.filter _⟩
      simpa using (List.mem_filter.mp mem).2
    · intro e memE f memF
      have less : e.1 < k := by simpa using (List.mem_filter.mp memE).2
      rcases List.mem_cons.mp memF with rfl | memF
      · exact less
      · exact less.trans (by simpa using (List.mem_filter.mp memF).2)

/-! ### At a place of the list -/

section
variable {m : SortedMap κ α} {k : κ} {a : α} {pre post : List (κ × α)}

/-- The keys before the place are below, those behind it above. -/
theorem place (placed : m.entries = pre ++ (k, a) :: post) :
    (∀ e ∈ pre, e.1 < k) ∧ ∀ e ∈ post, k < e.1 := by
  have sorted := m.sorted
  rw [placed, List.pairwise_append, List.pairwise_cons] at sorted
  exact ⟨fun e mem => sorted.2.2 e mem (k, a) List.mem_cons_self, fun e mem => sorted.2.1.1 e mem⟩

theorem filter_lt_of_place (pre post : List (κ × α)) (below : ∀ e ∈ pre, e.1 < k)
    (above : ∀ e ∈ post, k ≤ e.1) :
    (pre ++ post).filter (fun e => e.1 < k) = pre := by
  rw [List.filter_append, List.filter_eq_self.mpr fun e mem => by simpa using below e mem,
    List.filter_eq_nil_iff.mpr fun e mem => by simpa using above e mem, List.append_nil]

theorem filter_gt_of_place (pre post : List (κ × α)) (below : ∀ e ∈ pre, e.1 ≤ k)
    (above : ∀ e ∈ post, k < e.1) :
    (pre ++ post).filter (fun e => k < e.1) = post := by
  rw [List.filter_append, List.filter_eq_nil_iff.mpr fun e mem => by simpa using below e mem,
    List.filter_eq_self.mpr fun e mem => by simpa using above e mem, List.nil_append]

theorem split (found : m.get? k = some a) : ∃ pre post, m.entries = pre ++ (k, a) :: post := by
  obtain ⟨pre, post, placed, _⟩ := List.lookup_eq_some_iff.mp found
  exact ⟨pre, post, placed⟩

theorem get?_of_place (placed : m.entries = pre ++ (k, a) :: post) : m.get? k = some a := by
  refine List.lookup_eq_some_iff.mpr ⟨pre, post, placed, fun e mem => ?_⟩
  simpa using ((place placed).1 e mem).ne'

theorem get?_eq_some_iff : m.get? k = some a ↔ (k, a) ∈ m.entries := by
  constructor
  · intro found
    obtain ⟨pre, post, placed⟩ := split found
    rw [placed]
    exact List.mem_append_right _ List.mem_cons_self
  · intro mem
    obtain ⟨pre, post, placed⟩ := List.append_of_mem mem
    exact get?_of_place placed

theorem before_of_place (placed : m.entries = pre ++ (k, a) :: post) :
    m.before k = pre.getLast? := by
  obtain ⟨below, above⟩ := place placed
  rw [before, placed, filter_lt_of_place pre _ below]
  intro e mem
  rcases List.mem_cons.mp mem with rfl | mem
  · exact le_rfl
  · exact (above e mem).le

theorem after_of_place (placed : m.entries = pre ++ (k, a) :: post) : m.after k = post.head? := by
  obtain ⟨below, above⟩ := place placed
  have apart : pre ++ (k, a) :: post = (pre ++ [(k, a)]) ++ post := by simp
  rw [after, placed, apart, filter_gt_of_place _ post ?_ above]
  intro e mem
  rcases List.mem_append.mp mem with mem | mem
  · exact (below e mem).le
  · rw [List.mem_singleton.mp mem]

theorem erase_of_place (placed : m.entries = pre ++ (k, a) :: post) :
    (m.erase k).entries = pre ++ post := by
  obtain ⟨below, above⟩ := place placed
  simp only [erase, placed]
  rw [List.filter_append, List.filter_cons_of_neg (by simp)]
  rw [List.filter_eq_self.mpr fun e mem => by simpa using (below e mem).ne,
    List.filter_eq_self.mpr fun e mem => by simpa using (above e mem).ne']

theorem insert_of_place (placed : m.entries = pre ++ (k, a) :: post) (b : α) :
    (m.insert k b).entries = pre ++ (k, b) :: post := by
  obtain ⟨below, above⟩ := place placed
  have apart : pre ++ (k, a) :: post = (pre ++ [(k, a)]) ++ post := by simp
  have left := filter_lt_of_place pre ((k, a) :: post) below (by
    intro e mem
    rcases List.mem_cons.mp mem with rfl | mem
    · exact le_rfl
    · exact (above e mem).le)
  have right := filter_gt_of_place (pre ++ [(k, a)]) post (by
    intro e mem
    rcases List.mem_append.mp mem with mem | mem
    · exact (below e mem).le
    · rw [List.mem_singleton.mp mem]) above
  simp only [insert, placed]
  rw [left, apart, right]

/-- A new key goes where the keys before it are below and those behind it above. -/
theorem insert_of_cut (placed : m.entries = pre ++ post) (below : ∀ e ∈ pre, e.1 < k)
    (above : ∀ e ∈ post, k < e.1) (b : α) : (m.insert k b).entries = pre ++ (k, b) :: post := by
  simp only [insert, placed]
  rw [filter_lt_of_place pre post below fun e mem => (above e mem).le,
    filter_gt_of_place pre post (fun e mem => (below e mem).le) above]

/-- The place of a key that is not there. -/
theorem cut (m : SortedMap κ α) {k : κ} (absent : ∀ e ∈ m.entries, e.1 ≠ k) :
    ∃ pre post, m.entries = pre ++ post ∧ (∀ e ∈ pre, e.1 < k) ∧ ∀ e ∈ post, k < e.1 := by
  obtain ⟨l, sorted⟩ := m
  induction l with
  | nil => exact ⟨[], [], rfl, by simp, by simp⟩
  | cons e l ih =>
      obtain ⟨above, sorted⟩ := List.pairwise_cons.mp sorted
      rcases lt_or_gt_of_ne (absent e List.mem_cons_self) with less | less
      · obtain ⟨pre, post, is, below, behind⟩ :=
          ih sorted fun f mem => absent f (List.mem_cons_of_mem _ mem)
        refine ⟨e :: pre, post, congrArg (e :: ·) is, fun f mem => ?_, behind⟩
        rcases List.mem_cons.mp mem with rfl | mem
        · exact less
        · exact below f mem
      · refine ⟨[], e :: l, rfl, by simp, fun f mem => ?_⟩
        rcases List.mem_cons.mp mem with rfl | mem
        · exact less
        · exact less.trans (above f mem)

theorem mem_insert {e : κ × α} {b : α} :
    e ∈ (m.insert k b).entries ↔ e = (k, b) ∨ e.1 ≠ k ∧ e ∈ m.entries := by
  simp only [insert, List.mem_append, List.mem_cons, List.mem_filter, decide_eq_true_eq]
  constructor
  · rintro (⟨mem, less⟩ | rfl | ⟨mem, less⟩)
    · exact .inr ⟨less.ne, mem⟩
    · exact .inl rfl
    · exact .inr ⟨less.ne', mem⟩
  · rintro (rfl | ⟨ne, mem⟩)
    · exact .inr (.inl rfl)
    · rcases lt_or_gt_of_ne ne with less | less
      · exact .inl ⟨mem, less⟩
      · exact .inr (.inr ⟨mem, less⟩)

theorem get?_insert (m : SortedMap κ α) (k j : κ) (b : α) :
    (m.insert k b).get? j = if j = k then some b else m.get? j := by
  refine Option.ext fun c => ?_
  rw [get?_eq_some_iff, mem_insert]
  split
  · rename_i same
    cases same
    simp [eq_comm]
  · rename_i ne
    rw [get?_eq_some_iff]
    simp [ne]

theorem get?_erase (m : SortedMap κ α) (k j : κ) :
    (m.erase k).get? j = if j = k then none else m.get? j := by
  refine Option.ext fun c => ?_
  rw [get?_eq_some_iff, erase, List.mem_filter]
  split
  · rename_i same
    cases same
    simp
  · rename_i ne
    rw [get?_eq_some_iff]
    simp [ne]

theorem sorted_keys (m : SortedMap κ α) : m.keys.Pairwise (· < ·) :=
  List.pairwise_map.mpr m.sorted

theorem mem_keys_iff : k ∈ m.keys ↔ ∃ a, m.get? k = some a := by
  simp only [keys, List.mem_map, get?_eq_some_iff]
  constructor
  · rintro ⟨⟨j, a⟩, mem, rfl⟩
    exact ⟨a, mem⟩
  · rintro ⟨a, mem⟩
    exact ⟨(k, a), mem, rfl⟩

theorem keys_erase {l r : List κ} (placed : m.keys = l ++ k :: r) : (m.erase k).keys = l ++ r := by
  obtain ⟨pre, rest, entries, rfl, tail⟩ := List.map_eq_append_iff.mp placed
  obtain ⟨⟨j, a⟩, post, rfl, rfl, rfl⟩ := List.map_eq_cons_iff.mp tail
  rw [keys, erase_of_place entries, List.map_append]

theorem keys_insert {l r : List κ} (placed : m.keys = l ++ r) (below : ∀ j ∈ l, j < k)
    (above : ∀ j ∈ r, k < j) (b : α) : (m.insert k b).keys = l ++ k :: r := by
  obtain ⟨pre, post, entries, rfl, rfl⟩ := List.map_eq_append_iff.mp placed
  rw [keys, insert_of_cut entries (fun e mem => below _ (List.mem_map_of_mem mem))
    (fun e mem => above _ (List.mem_map_of_mem mem))]
  simp

theorem keys_insert_self {l r : List κ} (placed : m.keys = l ++ k :: r) (b : α) :
    (m.insert k b).keys = m.keys := by
  rw [placed]
  obtain ⟨pre, rest, entries, rfl, tail⟩ := List.map_eq_append_iff.mp placed
  obtain ⟨⟨j, a⟩, post, rfl, rfl, rfl⟩ := List.map_eq_cons_iff.mp tail
  rw [keys, insert_of_place entries]
  simp

end

end SortedMap

end Rambrain.Lib
