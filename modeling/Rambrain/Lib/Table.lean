import Mathlib

/-!
Finite tables and totals over their entries.

A `Table ι α` holds one value for each of finitely many keys. `total f` adds up `f`
over the values held; reference counts are totals. The three rules

* `total_put_new`: a new key adds its value's share,
* `total_remove`: a removed key takes its value's share away,
* `exists_of_total_pos`: a positive total has an entry that contributes

are all that a reference counting argument needs to know about the table.
-/

namespace Rambrain.Lib

universe u v

/-- A finite map, as a list of entries without repeated keys. -/
structure Table (ι : Type u) (α : Type v) where
  entries : List (ι × α)
  nodup : (entries.map Prod.fst).Nodup

namespace Table

variable {ι : Type u} {α : Type v} [DecidableEq ι]

def empty : Table ι α := ⟨[], List.nodup_nil⟩

def get? (t : Table ι α) (i : ι) : Option α := t.entries.lookup i

def remove (t : Table ι α) (i : ι) : Table ι α :=
  ⟨t.entries.filter fun e => e.1 ≠ i, t.nodup.sublist (List.filter_sublist.map _)⟩

/-- The table with `a` at key `i`, in place of what was there. -/
def put (t : Table ι α) (i : ι) (a : α) : Table ι α :=
  ⟨(i, a) :: (t.remove i).entries, by
    refine List.nodup_cons.mpr ⟨?_, (t.remove i).nodup⟩
    simp [remove]⟩

/-- The sum of `f` over the values held. -/
def total (f : α → Nat) (t : Table ι α) : Nat := (t.entries.map fun e => f e.2).sum

@[simp] theorem get?_empty (i : ι) : (empty : Table ι α).get? i = none := rfl

theorem lookup_cons_ite (es : List (ι × α)) (k j : ι) (a : α) :
    ((k, a) :: es).lookup j = if j = k then some a else es.lookup j := by
  by_cases same : j = k
  · simp [same]
  · simp [List.lookup_cons, same, beq_eq_false_iff_ne.mpr same]

theorem filter_ne_cons (es : List (ι × α)) (k i : ι) (a : α) :
    ((k, a) :: es).filter (fun e => e.1 ≠ i) =
      if k = i then es.filter (fun e => e.1 ≠ i) else (k, a) :: es.filter (fun e => e.1 ≠ i) := by
  by_cases same : k = i
  · simp [same]
  · simp [same]

theorem filter_ne_self {es : List (ι × α)} {i : ι} (absent : i ∉ es.map Prod.fst) :
    es.filter (fun e => e.1 ≠ i) = es := by
  refine List.filter_eq_self.mpr fun e mem => decide_eq_true fun same => ?_
  exact absent (List.mem_map.mpr ⟨e, mem, same⟩)

theorem lookup_filter_ne (es : List (ι × α)) (i j : ι) :
    (es.filter fun e => e.1 ≠ i).lookup j = if j = i then none else es.lookup j := by
  induction es with
  | nil => simp
  | cons e es ih =>
      obtain ⟨k, a⟩ := e
      rw [filter_ne_cons, lookup_cons_ite]
      by_cases removed : k = i
      · rw [if_pos removed, ih]
        by_cases same : j = i
        · rw [if_pos same, if_pos same]
        · rw [if_neg same, if_neg same, if_neg (removed ▸ same)]
      · rw [if_neg removed, lookup_cons_ite, ih]
        by_cases found : j = k
        · rw [if_pos found, if_pos found, if_neg (found ▸ removed)]
        · rw [if_neg found, if_neg found]

/-- An entry and the entries under the other keys are all there are. -/
theorem perm_filter_ne {es : List (ι × α)} (nodup : (es.map Prod.fst).Nodup) {i : ι} {a : α}
    (mem : (i, a) ∈ es) : ((i, a) :: es.filter fun e => e.1 ≠ i).Perm es := by
  induction es with
  | nil => cases mem
  | cons e es ih =>
      obtain ⟨k, b⟩ := e
      rw [List.map_cons, List.nodup_cons] at nodup
      rw [filter_ne_cons]
      rcases List.mem_cons.mp mem with same | later
      · cases same
        rw [if_pos rfl, filter_ne_self nodup.1]
      · have other : k ≠ i := by
          rintro rfl
          exact nodup.1 (List.mem_map.mpr ⟨_, later, rfl⟩)
        rw [if_neg other]
        exact (List.Perm.swap _ _ _).trans ((ih nodup.2 later).cons _)

theorem sum_filter_ne (f : α → Nat) {es : List (ι × α)} (nodup : (es.map Prod.fst).Nodup)
    {i : ι} {a : α} (mem : (i, a) ∈ es) :
    ((es.filter fun e => e.1 ≠ i).map fun e => f e.2).sum + f a =
      (es.map fun e => f e.2).sum := by
  have split := ((perm_filter_ne nodup mem).map fun e => f e.2).sum_eq
  rw [Nat.add_comm]
  exact split

@[simp] theorem get?_remove (t : Table ι α) (i j : ι) :
    (t.remove i).get? j = if j = i then none else t.get? j :=
  lookup_filter_ne t.entries i j

theorem of_get?_remove {t : Table ι α} {i j : ι} {a : α} (found : (t.remove i).get? j = some a) :
    j ≠ i ∧ t.get? j = some a := by
  rw [get?_remove] at found
  split at found
  · cases found
  · exact ⟨‹_›, found⟩

@[simp] theorem get?_put (t : Table ι α) (i j : ι) (a : α) :
    (t.put i a).get? j = if j = i then some a else t.get? j := by
  have rest := get?_remove t i j
  unfold get? at rest ⊢
  rw [put, lookup_cons_ite, rest]
  by_cases same : j = i
  · rw [if_pos same, if_pos same]
  · rw [if_neg same, if_neg same, if_neg same]

theorem put_remove (t : Table ι α) (i : ι) (a : α) : (t.remove i).put i a = t.put i a := by
  have same : ((t.remove i).remove i).entries = (t.remove i).entries :=
    filter_ne_self fun mem => by simp [remove] at mem
  simp only [put, same]

omit [DecidableEq ι] in
theorem mem_of_lookup [BEq ι] [LawfulBEq ι] {es : List (ι × α)} {i : ι} {a : α}
    (found : es.lookup i = some a) : (i, a) ∈ es := by
  obtain ⟨front, back, rfl, _⟩ := List.lookup_eq_some_iff.mp found
  simp

theorem mem_of_get? {t : Table ι α} {i : ι} {a : α} (found : t.get? i = some a) :
    (i, a) ∈ t.entries :=
  mem_of_lookup found

theorem get?_of_mem {t : Table ι α} {i : ι} {a : α} (mem : (i, a) ∈ t.entries) :
    t.get? i = some a := by
  obtain ⟨es, nodup⟩ := t
  simp only [get?] at mem ⊢
  induction es with
  | nil => cases mem
  | cons e es ih =>
      obtain ⟨k, b⟩ := e
      simp only [List.map_cons, List.nodup_cons] at nodup
      rw [lookup_cons_ite]
      rcases List.mem_cons.mp mem with same | later
      · cases same
        exact if_pos rfl
      · have other : i ≠ k := by
          rintro rfl
          exact nodup.1 (List.mem_map.mpr ⟨_, later, rfl⟩)
        rw [if_neg other]
        exact ih nodup.2 later

omit [DecidableEq ι] in
@[simp] theorem total_empty (f : α → Nat) : (empty : Table ι α).total f = 0 := rfl

theorem remove_of_get?_none {t : Table ι α} {i : ι} (absent : t.get? i = none) :
    (t.remove i).entries = t.entries := by
  refine filter_ne_self fun mem => ?_
  obtain ⟨⟨k, a⟩, memEntry, rfl⟩ := List.mem_map.mp mem
  rw [get?_of_mem memEntry] at absent
  cases absent

theorem total_put_remove (f : α → Nat) (t : Table ι α) (i : ι) (a : α) :
    (t.put i a).total f = f a + (t.remove i).total f := by
  simp [total, put]

/-- A new key adds its value's share. -/
theorem total_put_new (f : α → Nat) {t : Table ι α} {i : ι} (absent : t.get? i = none) (a : α) :
    (t.put i a).total f = f a + t.total f := by
  rw [total_put_remove, total, total, remove_of_get?_none absent]

/-- A removed key takes its value's share away. -/
theorem total_remove (f : α → Nat) {t : Table ι α} {i : ι} {a : α} (found : t.get? i = some a) :
    (t.remove i).total f + f a = t.total f :=
  sum_filter_ne f t.nodup (mem_of_get? found)

/-- A value put in place of another gives its share for the other's. -/
theorem total_put (f : α → Nat) {t : Table ι α} {i : ι} {a : α} (found : t.get? i = some a)
    (b : α) :
    (t.put i b).total f + f a = t.total f + f b := by
  have removed := total_remove f found
  rw [total_put_remove]
  omega

/-- The values held, each as often as it is held. -/
def values (t : Table ι α) : Multiset α := ↑(t.entries.map Prod.snd)

theorem values_remove {t : Table ι α} {i : ι} {a : α} (found : t.get? i = some a) :
    a ::ₘ (t.remove i).values = t.values := by
  have split := (perm_filter_ne t.nodup (mem_of_get? found)).map Prod.snd
  exact Multiset.coe_eq_coe.mpr split

theorem exists_of_mem_values {t : Table ι α} {a : α} (mem : a ∈ t.values) :
    ∃ i, t.get? i = some a := by
  obtain ⟨⟨i, _⟩, memEntry, rfl⟩ := List.mem_map.mp (Multiset.mem_coe.mp mem)
  exact ⟨i, get?_of_mem memEntry⟩

theorem total_remove_le (f : α → Nat) (t : Table ι α) (i : ι) :
    (t.remove i).total f ≤ t.total f := by
  cases found : t.get? i with
  | none => exact Nat.le_of_eq (by rw [total, total, remove_of_get?_none found])
  | some a =>
      have := total_remove f found
      omega

/-- A positive total has an entry that contributes. -/
theorem exists_of_total_pos {f : α → Nat} {t : Table ι α} (positive : 0 < t.total f) :
    ∃ i a, t.get? i = some a ∧ 0 < f a := by
  obtain ⟨x, mem, pos⟩ := List.exists_mem_ne_zero_of_sum_ne_zero (Nat.pos_iff_ne_zero.mp positive)
  obtain ⟨⟨i, a⟩, memEntry, rfl⟩ := List.mem_map.mp mem
  exact ⟨i, a, get?_of_mem memEntry, Nat.pos_of_ne_zero pos⟩

/-- A total is zero when no entry contributes. -/
theorem total_eq_zero {f : α → Nat} {t : Table ι α}
    (none : ∀ i a, t.get? i = some a → f a = 0) : t.total f = 0 := by
  refine Nat.eq_zero_of_not_pos fun positive => ?_
  obtain ⟨i, a, found, pos⟩ := exists_of_total_pos positive
  have := none i a found
  omega

end Table

end Rambrain.Lib
