import Rambrain.Pfmalloc

/-!
The positions of `free_space` that `pfmalloc` reads.

Every loop is given a second time with the positions whose key or value it reads, and computes what
it computes without them. The loop that concatenates free locations looks one position ahead before
it knows whether it needs another location: `concatReads_end` follows the turns of `concat_spec`.
-/

namespace Rambrain.FileSwap

open Lib

variable {g : Geometry} {s t : State}

/-- A position of `free_space`: the key of a location, or `free_space.end ()`. -/
abbrev Position := Option Nat

namespace State

section
variable (g : Geometry) (s : State)

/-- The loop for one free location that is large enough, from the position `it` on. -/
def firstFitReads (size : Nat) : List Nat → List Position × Option PageFileLocation
  | [] => ([], none)
  | it :: rest =>
      match (s.allSpace.get? it).filter fun loc => size ≤ loc.size with
      | some loc => ([some it], some loc)
      | none =>
          let behind := firstFitReads size rest
          (some it :: behind.1, behind.2)

/-- The loop that adds up the free locations, from the position `it` on. It reads a position before
it compares the next one with the end. -/
def totalSpaceReads (size : Nat) : List Nat → Nat → List Position × Nat
  | [], total => ([none], total)
  | it :: rest, total =>
      let total := total - total % g.memoryAlignment +
        ((s.allSpace.get? it).map PageFileLocation.size).getD 0
      if total < size ∧ rest ≠ [] then
        let behind := totalSpaceReads size rest total
        (some it :: behind.1, behind.2)
      else ([some it], total)

/-- The loop that takes one free location after the other. -/
def concatReads (chunk : Nat) :
    Nat → State → Nat → Nat → Option Nat → Option Nat → List Position × Pfmalloc
  | 0, _, _, _, _, _ => ([], .fault)
  | fuel + 1, s, it, size, res, former =>
      match s.allSpace.get? it with
      | none => ([some it], .fault)
      | some loc =>
          let allocHere := min loc.size size
          let allocHere :=
            if allocHere < size then allocHere - allocHere % g.memoryAlignment else allocHere
          let nextFreeOffset := (s.freeSpace.after it).map Prod.fst
          -- `it->second->size`, `it2->first`, `it->second`
          let turn : List Position := [some it, nextFreeOffset, some it]
          match s.allocInFree g loc allocHere with
          | none => (turn, .fault)
          | some (s, neu) =>
              let size := size - allocHere
              let s := s.modify neu fun b =>
                { b with status := if size = 0 then .pageEnd else .pagePart }
              let res := res.getD neu
              let s := match former with
                | some former => s.modify former fun b => { b with globOffNext := .globOffNext neu }
                | none => s
              if size = 0 then
                (turn, .found (s.modify neu fun b => { b with globOffNext := .chunk chunk }) res)
              else
                match nextFreeOffset.filter fun next => next ∈ s.freeSpace.keys with
                | some next =>
                    let behind := concatReads chunk fuel s next size (some res) (some neu)
                    (turn ++ behind.1, behind.2)
                | none =>
                    match (s.modify neu fun b => { b with status := .pageEnd }).pffree g res with
                    | some s => (turn, .null s)
                    | none => (turn, .fault)

/-- `pfmalloc`, with the positions that it reads. -/
def pfmallocReads (size chunk : Nat) : List Position × Pfmalloc :=
  match s.freeSpace.keys with
  | [] => ([], .null s)
  | _ :: _ =>
      let search := firstFitReads s size s.freeSpace.keys
      match search.2 with
      | some found =>
          match s.allocInFree g found size with
          | some (s, res) =>
              (search.1, .found (s.modify res fun b =>
                { b with status := .pageEnd, globOffNext := .chunk chunk }) res)
          | none => (search.1, .fault)
      | none =>
          let sum := totalSpaceReads g s size s.freeSpace.keys 0
          let total := sum.2
          let cleaned : Option (State × Nat) :=
            if total < size then
              (s.cleanupCachedElements g (size - total)).map fun r =>
                (r.1, if r.2 then total + (size - total) else total)
            else some (s, total)
          match cleaned with
          | none => (search.1 ++ sum.1, .fault)
          | some (s, total) =>
              if size ≤ total then
                match s.freeSpace.keys with
                | [] => (search.1 ++ sum.1 ++ [none], .fault)
                | it :: _ =>
                    let loop := concatReads g chunk s.freeSpace.entries.length s it size none none
                    (search.1 ++ sum.1 ++ loop.1, loop.2)
              else (search.1 ++ sum.1, .outOfSwapSpace s)

end

end State

/-! ### What is read changes no result -/

theorem firstFitReads_result (s : State) (size : Nat) (keys : List Nat) :
    (s.firstFitReads size keys).2 =
      (keys.filterMap s.allSpace.get?).find? fun it => size ≤ it.size := by
  induction keys with
  | nil => rfl
  | cons it rest ih =>
      rw [State.firstFitReads]
      cases found : s.allSpace.get? it with
      | none => rw [List.filterMap_cons_none found, ← ih]; rfl
      | some loc =>
          rw [List.filterMap_cons_some found]
          by_cases fits : size ≤ loc.size
          · rw [List.find?_cons_of_pos (by simpa using fits), Option.filter_some,
              if_pos (by simpa using fits)]
          · rw [List.find?_cons_of_neg (by simpa using fits), ← ih, Option.filter_some,
              if_neg (by simpa using fits)]

theorem totalSpaceReads_result (size : Nat) {keys : List Nat} (nonempty : keys ≠ [])
    (there : ∀ k ∈ keys, ∃ loc, s.allSpace.get? k = some loc) (total : Nat) :
    (State.totalSpaceReads g s size keys total).2 =
      State.totalSpace g size (keys.filterMap s.allSpace.get?) total := by
  induction keys generalizing total with
  | nil => exact absurd rfl nonempty
  | cons it rest ih =>
      obtain ⟨loc, found⟩ := there it List.mem_cons_self
      rw [State.totalSpaceReads, List.filterMap_cons_some found, State.totalSpace, found,
        Option.map_some, Option.getD_some]
      by_cases more : total - total % g.memoryAlignment + loc.size < size
      · rw [if_pos more]
        cases rest with
        | nil => rw [if_neg fun both => both.2 rfl]; rfl
        | cons it' rest =>
            rw [if_pos ⟨more, List.cons_ne_nil it' rest⟩]
            exact ih (List.cons_ne_nil it' rest)
              (fun k mem => there k (List.mem_cons_of_mem it mem)) _
      · rw [if_neg more, if_neg fun both => more both.1]

theorem concatReads_result (chunk fuel : Nat) (s : State) (it size : Nat)
    (res former : Option Nat) :
    (State.concatReads g chunk fuel s it size res former).2 =
      State.concat g chunk fuel s it size res former := by
  induction fuel generalizing s it size res former with
  | zero => rfl
  | succ fuel ih =>
      simp only [State.concatReads, State.concat]
      cases s.allSpace.get? it with
      | none => rfl
      | some loc =>
          obtain ⟨here, isHere⟩ : ∃ here, here = if min loc.size size < size then
            min loc.size size - min loc.size size % g.memoryAlignment else min loc.size size :=
            ⟨_, rfl⟩
          simp only [← isHere]
          cases s.allocInFree g loc here with
          | none => rfl
          | some placed =>
              obtain ⟨u, isU⟩ : ∃ u, u = linkFormer former placed.2
                  (placed.1.modify placed.2 fun b =>
                { b with status := if size - here = 0 then .pageEnd else .pagePart }) := ⟨_, rfl⟩
              cases former
              all_goals
                simp only [linkFormer] at isU
                simp only [← isU]
                by_cases last : size - here = 0
                · simp only [if_pos last]
                · simp only [if_neg last]
                  cases (Option.map Prod.fst (s.freeSpace.after it)).filter fun next =>
                    decide (next ∈ u.freeSpace.keys) with
                  | some next => exact ih _ _ _ _ _
                  | none =>
                      cases State.pffree g
                        (u.modify placed.2 fun b => { b with status := .pageEnd })
                        (res.getD placed.2) <;> rfl

theorem freeSpace_there (h : Laid g s) :
    ∀ k ∈ s.freeSpace.keys, ∃ loc, s.allSpace.get? k = some loc := by
  intro k mem
  obtain ⟨loc, found, _⟩ := h.get?_free mem
  exact ⟨loc, found⟩

theorem pfmallocReads_result (h : Laid g s) (size chunk : Nat) :
    (s.pfmallocReads g size chunk).2 = s.pfmalloc g size chunk := by
  rw [State.pfmallocReads, State.pfmalloc]
  cases keys : s.freeSpace.keys with
  | nil => rfl
  | cons it ks =>
      have search := firstFitReads_result s size s.freeSpace.keys
      have sum := totalSpaceReads_result (g := g) (s := s) size
        (by rw [keys]; exact List.cons_ne_nil it ks) (freeSpace_there h) 0
      rw [keys] at search sum
      have locations : (it :: ks).filterMap s.allSpace.get? = s.freeLocations := by
        rw [State.freeLocations, keys]
      rw [locations] at search sum
      simp only [search, sum]
      cases s.freeLocations.find? fun it => size ≤ it.size with
      | some found => cases is : s.allocInFree g found size <;> simp only [is]
      | none =>
          obtain ⟨total, isTotal⟩ : ∃ total, total = State.totalSpace g size s.freeLocations 0 :=
            ⟨_, rfl⟩
          simp only [← isTotal]
          cases if total < size then
              (s.cleanupCachedElements g (size - total)).map fun r =>
                (r.1, if r.2 then total + (size - total) else total)
            else some (s, total) with
          | none => rfl
          | some cleaned =>
              by_cases enough : size ≤ cleaned.2
              · simp only [if_pos enough]
                cases cleaned.1.freeSpace.keys with
                | nil => rfl
                | cons it ks => exact concatReads_result _ _ _ _ _ _ _
              · simp only [if_neg enough]

/-! ### The end is not read by the searches -/

theorem firstFitReads_inside (s : State) (size : Nat) (keys : List Nat) :
    none ∉ (s.firstFitReads size keys).1 := by
  induction keys with
  | nil => exact List.not_mem_nil
  | cons it rest ih =>
      rw [State.firstFitReads]
      cases (s.allSpace.get? it).filter fun loc => size ≤ loc.size with
      | none => simpa using ih
      | some loc => simp

theorem totalSpaceReads_inside (size : Nat) {keys : List Nat} (nonempty : keys ≠ []) (total : Nat) :
    none ∉ (State.totalSpaceReads g s size keys total).1 := by
  induction keys generalizing total with
  | nil => exact absurd rfl nonempty
  | cons it rest ih =>
      rw [State.totalSpaceReads]
      split
      · next more => simpa using ih more.2 _
      · simp

/-- The turn that takes the last part of a chunk reads the location behind it all the same. -/
theorem concatReads_last {s : State} {it : Nat} {ks : List Nat} {page : PageFileLocation}
    {size : Nat} (h : Laid g s) (keys : s.freeSpace.keys = it :: ks)
    (found : s.allSpace.get? it = some page) (free : page.status = .pageFree) (pos : 0 < size)
    (le : size ≤ page.size) (chunk fuel : Nat) (res former : Option Nat) :
    (State.concatReads g chunk (fuel + 1) s it size res former).1 =
      [some it, ks.head?, some it] := by
  have here : (if min page.size size < size then
      min page.size size - min page.size size % g.memoryAlignment
      else min page.size size) = size := by
    rw [Nat.min_eq_right le, if_neg (Nat.lt_irrefl size)]
  obtain ⟨t₀, mid, is, _⟩ := allocInFree_allocated h found free pos le
    (holds_status .pageEnd (by decide))
  simp only [State.concatReads, found, here, is, Nat.sub_self, if_true, after_first keys]

/-- The loop reads the end in the turn that stands on the last free location. -/
theorem concatReads_end (chunk : Nat) : ∀ (fuel : Nat) {s : State} {it : Nat} {ks : List Nat}
    (size : Nat) (res former : Option Nat), Laid g s →
    s.freeSpace.keys = it :: ks → 0 < size → size ≤ freeBytes s → (it :: ks).length ≤ fuel →
    (∀ k, former = some k → ∃ b fin, (k, b, fin) ∈ s.held) →
    (none ∈ (State.concatReads g chunk fuel s it size res former).1 ↔
      s.freeSizes.dropLast.sum < size) := by
  intro fuel
  induction fuel with
  | zero =>
      intro s it ks size res former _ _ _ _ enough
      simp at enough
  | succ fuel ih =>
      intro s it ks size res former h keys pos fits enough there
      obtain ⟨page, found, free, pagePos, aligned, _⟩ :=
        h.get?_free (k := it) (by rw [keys]; exact List.mem_cons_self)
      have first := after_first keys
      by_cases more : page.size < size
      · have here : (if min page.size size < size then
            min page.size size - min page.size size % g.memoryAlignment
            else min page.size size) = page.size := by
          rw [Nat.min_eq_left more.le, if_pos more, Nat.mod_eq_zero_of_dvd aligned, Nat.sub_zero]
        have left : ¬ size - page.size = 0 := by omega
        obtain ⟨t₀, mid, is, taken⟩ := takenWhole h keys found there
        have bytes := taken.bytes h
        obtain ⟨alloc, linked, keysNow, sizes⟩ := taken
        cases ks with
        | nil =>
            have isZero := linked.laid.freeBytes_zero keysNow
            omega
        | cons k' ks =>
            have apart : some it ≠ former := by
              rintro rfl
              obtain ⟨b, fin, mem⟩ := there it rfl
              exact alloc.fresh _ mem rfl
            have behind := ih (size - page.size) (some (res.getD it)) (some it)
              linked.laid keysNow (by omega) (by omega) (Nat.le_of_succ_le_succ enough)
              (fun k isFormer => by
                cases isFormer
                exact ⟨_, mid, linked.same _ alloc.new apart⟩)
            have mem : k' ∈ (linkFormer former it (t₀.modify it fun b =>
                { b with status := .pagePart })).freeSpace.keys := by
              rw [keysNow]
              exact List.mem_cons_self
            have sum : s.freeSizes.dropLast.sum < size ↔
                (linkFormer former it (t₀.modify it fun b =>
                { b with status := .pagePart })).freeSizes.dropLast.sum < size - page.size := by
              have other := freeSizes_cons keysNow (linked.laid.get?_free mem).choose_spec.1
              rw [sizes, other, List.dropLast_cons_cons, List.sum_cons]
              omega
            rw [sum, ← behind]
            simp only [State.concatReads, found, here, is, if_neg left, first, List.head?_cons]
            cases former with
            | none =>
                simp only [linkFormer] at mem
                simp only [Option.filter_some, mem, decide_true, if_true, linkFormer]
                simp
            | some former =>
                simp only [linkFormer] at mem
                simp only [Option.filter_some, mem, decide_true, if_true, linkFormer]
                simp
      · have le : size ≤ page.size := Nat.le_of_not_lt more
        have reads := concatReads_last h keys found free pos le chunk fuel res former
        have sizes := freeSizes_cons keys found
        rw [reads]
        cases ks with
        | nil =>
            rw [sizes]
            simpa using pos
        | cons k' ks =>
            obtain ⟨page', found', _⟩ := h.get?_free (k := k') (by rw [keys]; simp)
            rw [sizes, List.filterMap_cons_some (by rw [found']; rfl), List.dropLast_cons_cons,
              List.sum_cons]
            simp only [List.head?_cons, List.mem_cons, List.not_mem_nil, reduceCtorEq, or_self,
              false_iff]
            omega

/-! ### When only valid positions are followed -/

/-- The state in which free locations begin to be concatenated, if `pfmalloc` comes to it. -/
def State.concatState (g : Geometry) (s : State) (size : Nat) : Option State :=
  if s.freeSpace.keys = [] ∨ ∃ page ∈ s.freeLocations, size ≤ page.size then none
  else if size ≤ freeBytes s then some s
  else (s.cleanupCachedElements g (size - freeBytes s)).bind fun r =>
    if r.2 then some r.1 else none

/-- The end of `free_space` is not read, `allocInFree` does not return `NULL` and the loops
terminate: a run that does otherwise ends in `fault`. -/
def ValidPositions (run : List Position × State.Pfmalloc) : Prop :=
  none ∉ run.1 ∧ run.2 ≠ .fault

/-- The loop of `pfmalloc` in the state in which it begins. -/
theorem loop_end (h : Laid g s) {size : Nat} (pos : 0 < size) (fits : size ≤ freeBytes s)
    {it : Nat} {ks : List Nat} (keys : s.freeSpace.keys = it :: ks) (chunk : Nat) :
    none ∈ (State.concatReads g chunk s.freeSpace.entries.length s it size none none).1 ↔
      s.freeSizes.dropLast.sum < size := by
  apply concatReads_end chunk _ size none none h keys pos fits
  · rw [← keys, SortedMap.keys, List.length_map]
  · intro k isFormer
    cases isFormer

theorem exists_free (h : Laid g s) {size : Nat} (pos : 0 < size) (fits : size ≤ freeBytes s) :
    ∃ it ks, s.freeSpace.keys = it :: ks := by
  refine List.exists_cons_of_ne_nil fun empty => ?_
  have zero := h.freeBytes_zero empty
  omega

theorem pfmallocReads_end {live : List Allocation} (h : Represents g s live)
    (owners : Owners s live) {size : Nat} (pos : 0 < size) (chunk : Nat) :
    none ∈ (s.pfmallocReads g size chunk).1 ↔
      ∃ u, s.concatState g size = some u ∧ u.freeSizes.dropLast.sum < size := by
  cases keys : s.freeSpace.keys with
  | nil => simp [State.pfmallocReads, State.concatState, keys]
  | cons it ks =>
      have nonempty : it :: ks ≠ [] := List.cons_ne_nil it ks
      have search := firstFitReads_result s size s.freeSpace.keys
      have searched := firstFitReads_inside s size s.freeSpace.keys
      have sum := totalSpaceReads_result (g := g) (s := s) size
        (by rw [keys]; exact nonempty) (freeSpace_there h.laid) 0
      have added := totalSpaceReads_inside (g := g) (s := s) size nonempty 0
      have locations : s.freeSpace.keys.filterMap s.allSpace.get? = s.freeLocations := rfl
      rw [locations, keys] at search sum
      rw [keys] at searched
      obtain ⟨enough, total⟩ := h.laid.totalSpace size
      cases first : s.freeLocations.find? fun it => size ≤ it.size with
      | some page =>
          have there : ∃ page ∈ s.freeLocations, size ≤ page.size :=
            ⟨page, List.mem_of_find?_eq_some first, by simpa using List.find?_some first⟩
          rw [first] at search
          have reads : (s.pfmallocReads g size chunk).1 = (s.firstFitReads size (it :: ks)).1 := by
            simp only [State.pfmallocReads, keys, search]
            cases s.allocInFree g page size <;> rfl
          rw [reads, State.concatState, if_pos (.inr there)]
          simpa using searched
      | none =>
          rw [first] at search
          have nowhere :
              ¬ (s.freeSpace.keys = [] ∨ ∃ page ∈ s.freeLocations, size ≤ page.size) := by
            rw [keys]
            simpa using List.find?_eq_none.mp first
          rw [State.concatState, if_neg nowhere]
          by_cases fits : size ≤ freeBytes s
          · have reads : (s.pfmallocReads g size chunk).1 = (s.firstFitReads size (it :: ks)).1 ++
                (State.totalSpaceReads g s size (it :: ks) 0).1 ++
                (State.concatReads g chunk s.freeSpace.entries.length s it size none none).1 := by
              simp only [State.pfmallocReads, keys, search, sum,
                if_neg (Nat.not_lt.mpr (enough fits)), if_pos (enough fits)]
            rw [reads, if_pos fits, List.mem_append, List.mem_append,
              loop_end h.laid pos fits keys chunk]
            simp [searched, added]
          · obtain ⟨u, dropped, kept, is, released, room⟩ :=
              cleanupCachedElements_spec h owners (size - freeBytes s)
            have more : freeBytes s < size := Nat.lt_of_not_le fits
            rw [if_neg fits, is, Option.bind_some]
            by_cases cleaned :
                size - freeBytes s < cleanedUp (size - freeBytes s) s.memChunks.entries 0
            · have fitsNow : size ≤ freeBytes u := by omega
              obtain ⟨it', ks', keys'⟩ := exists_free released.represents.laid pos fitsNow
              have all : size ≤ freeBytes s + (size - freeBytes s) := by omega
              have reads : (s.pfmallocReads g size chunk).1 =
                  (s.firstFitReads size (it :: ks)).1 ++
                  (State.totalSpaceReads g s size (it :: ks) 0).1 ++
                  (State.concatReads g chunk u.freeSpace.entries.length
                    u it' size none none).1 := by
                simp only [State.pfmallocReads, keys, search, sum, total more, if_pos more, is,
                  Option.map_some, decide_eq_true cleaned, if_true, if_pos all, keys']
              rw [reads, List.mem_append, List.mem_append,
                loop_end released.represents.laid pos fitsNow keys' chunk]
              simp [searched, added, cleaned]
            · have reads : (s.pfmallocReads g size chunk).1 =
                  (s.firstFitReads size (it :: ks)).1 ++
                  (State.totalSpaceReads g s size (it :: ks) 0).1 := by
                simp only [State.pfmallocReads, keys, search, sum, total more, if_pos more, is,
                  Option.map_some, decide_eq_false cleaned, Bool.false_eq_true, if_false,
                  if_neg (Nat.not_le.mpr more)]
              rw [reads, List.mem_append]
              simp [searched, added, cleaned]

theorem pfmalloc_validPositions_iff (g : Geometry) (s : State) (live : List Allocation)
    (h : Represents g s live) (owners : Owners s live) (size : Nat) (pos : 0 < size)
    (chunk : Nat) :
    ValidPositions (s.pfmallocReads g size chunk) ↔
      ∀ u, s.concatState g size = some u → size ≤ u.freeSizes.dropLast.sum := by
  have noFault : (s.pfmallocReads g size chunk).2 ≠ .fault := by
    rw [pfmallocReads_result h.laid]
    rcases pfmalloc_cases h owners pos chunk with ⟨is, _⟩ |
      ⟨_, _, _, _, _, _, is, _⟩ | ⟨_, _, _, _, is⟩
    all_goals
      rw [is]
      simp
  rw [ValidPositions, and_iff_left noFault, pfmallocReads_end h owners pos chunk]
  constructor
  · intro impossible u is
    exact Nat.le_of_not_lt fun less => impossible ⟨u, is, less⟩
  · rintro le ⟨u, is, less⟩
    exact absurd (le u is) (Nat.not_le.mpr less)

/-- Of three files, two are taken and the third is left. -/
theorem pfmalloc_validPositions_three_files :
    ValidPositions (State.pfmallocReads kibFiles (.construct kibFiles 3 true id) 2000 7) := by
  have represents := construct_represents kibFiles 3 true id
  refine (pfmalloc_validPositions_iff kibFiles _ [] represents.1 represents.2 2000 (by decide)
    7).mpr ?_
  intro u is
  have start : State.concatState kibFiles (.construct kibFiles 3 true id) 2000 =
      some (.construct kibFiles 3 true id) := rfl
  rw [start] at is
  cases is
  decide

/-- The request ends in the last of two files, and the position behind it is read. -/
theorem pfmallocReads_last_file :
    Represents kibFiles (.construct kibFiles 2 true id) [] ∧
      Owners (.construct kibFiles 2 true id) [] ∧
      ¬ ValidPositions (State.pfmallocReads kibFiles (.construct kibFiles 2 true id) 1500 7) := by
  obtain ⟨represents, owners⟩ := construct_represents kibFiles 2 true id
  refine ⟨represents, owners, fun valid => ?_⟩
  exact valid.1 (by decide)

end Rambrain.FileSwap
