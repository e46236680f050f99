import Rambrain.CopyMem

/-!
The transfers of the byte-level model as runs of the transfer protocol.

`Rambrain.Transfer` follows `copyMem` part by part and names each tracker; here a call of `copyMem`
is one step, and a tracker is counted at its chunk. `Matches` relates the states of the two.
`copyMem_runs` says that a `copyMem` is a run of the protocol with one turn of the loop for each
part, and `asyncIoArrived_runs` that an arrival is an arrival.
-/

namespace Rambrain.SwapBytes

open Lib FileSwap

variable {g : Setup} {s u : State} {t : Transfer.State} {trackers : Nat → Nat}
  {id fuel size : Nat} {chain : List Nat}

/-- Where a location leads the walk to `PAGE_END`. -/
def leadsTo (page : PageFileLocation) : Option Transfer.Location :=
  match page.status, page.globOffNext with
  | .pageEnd, .chunk id => some (.last id)
  | .pageEnd, _ => none
  | _, .globOffNext next => some (.part next)
  | _, _ => none

/-- The locations lead on as those of `all_space` do. -/
def Leads (allSpace : SortedMap Nat PageFileLocation) (loc : Nat → Transfer.Location) : Prop :=
  ∀ k page l, allSpace.get? k = some page → leadsTo page = some l → loc k = l

/-- The state of the protocol that belongs to `s`; `trackers` names the tracker of the last
`copyMem` for a chunk. -/
structure Matches (trackers : Nat → Nat) (s : State) (t : Transfer.State) : Prop where
  leads : Leads s.swap.allSpace t.loc
  chunk : ∀ id c, s.swap.memChunks.get? id = some c → t.chunk id = c.toManagedMemoryChunk
  pending : ∀ ref, ref ∈ t.pendingAios ↔ ref ∈ s.pendingAios.map Aio.ref
  apart : (s.pendingAios.map Aio.ref).Nodup
  aio : ∀ a ∈ s.pendingAios, t.aio a.ref = some (trackers a.chunk)
  tracker : ∀ a ∈ s.pendingAios, t.tracker (trackers a.chunk) = s.tracker a.chunk
  made : ∀ a ∈ s.pendingAios, trackers a.chunk < t.nextTracker
  own : ∀ a ∈ s.pendingAios, ∀ b ∈ s.pendingAios, trackers a.chunk = trackers b.chunk →
    a.chunk = b.chunk

theorem matches_start (g : Setup) (pageFileNumber : Nat) (enableDMA : Bool) (fileno : Nat → Nat)
    {loc : Nat → Transfer.Location} (chunk : Nat → ManagedMemoryChunk)
    (leads : Leads (start g pageFileNumber enableDMA fileno).swap.allSpace loc) :
    Matches trackers (start g pageFileNumber enableDMA fileno) (Transfer.init loc chunk) where
  leads := leads
  chunk id c found := by
    obtain ⟨_, _, _, _, _, chunks, _⟩ :=
      construct_spec g.toGeometry pageFileNumber enableDMA fileno
    simp only [start, chunks] at found
    cases found
  pending ref := by simp [start, Transfer.init]
  apart := List.nodup_nil
  aio a mem := by cases mem
  tracker a mem := by cases mem
  made a mem := by cases mem
  own a mem := by cases mem

/-! ### The walk -/

variable {allSpace : SortedMap Nat PageFileLocation} {loc : Nat → Transfer.Location}

theorem chain_of_built (leads : Leads allSpace loc) :
    ∀ (chain : List Nat) {fuel size : Nat}, chain.length ≤ fuel →
      Built g.toGeometry allSpace id chain size →
      Transfer.chain loc fuel (chain.headD 0) = some (chain, id) := by
  intro chain
  induction chain with
  | nil =>
      intro fuel size _ built
      exact built.elim
  | cons k chain ih =>
      intro fuel size enough built
      obtain ⟨fuel, rfl⟩ := Nat.exists_eq_succ_of_ne_zero (Nat.ne_zero_of_lt enough)
      cases chain with
      | nil =>
          obtain ⟨page, found, isEnd, next, _⟩ := built
          have last : loc k = .last id := leads k page _ found (by simp [leadsTo, isEnd, next])
          simp [Transfer.chain, last]
      | cons k' chain =>
          obtain ⟨page, found, part, next, _, _, rest⟩ := built
          have leads' : loc k = .part k' := leads k page _ found (by simp [leadsTo, part, next])
          have walked := ih (Nat.le_of_succ_le_succ enough) rest
          rw [List.headD_cons] at walked ⊢
          rw [Transfer.chain, leads']
          simp [walked]

theorem chain_of_endOf (leads : Leads allSpace loc) :
    ∀ {n fuel ref : Nat}, n ≤ fuel → State.endOf allSpace n ref = some id →
      ∃ parts, Transfer.chain loc fuel ref = some (parts, id) := by
  intro n
  induction n with
  | zero =>
      intro fuel ref _ is
      cases is
  | succ n ih =>
      intro fuel ref enough is
      obtain ⟨fuel, rfl⟩ := Nat.exists_eq_succ_of_ne_zero (Nat.ne_zero_of_lt enough)
      rw [State.endOf] at is
      obtain ⟨page, found, is⟩ := Option.bind_eq_some_iff.mp is
      split at is
      · rename_i c isEnd next
        cases is
        have last : loc ref = .last id := leads ref page _ found (by simp [leadsTo, isEnd, next])
        exact ⟨[ref], by rw [Transfer.chain, last]⟩
      · cases is
      · rename_i next isNext notEnd
        have part : loc ref = .part next := by
          refine leads ref page _ found ?_
          unfold leadsTo
          split <;> simp_all
        obtain ⟨parts, walked⟩ := ih (Nat.le_of_succ_le_succ enough) is
        exact ⟨ref :: parts, by rw [Transfer.chain, part]; simp [walked]⟩
      · cases is

/-! ### The loop -/

/-- A `copyMem` behind the turns of its loop for the locations `chain`. -/
structure Looped (t v : Transfer.State) (tracker : Nat) (chain : List Nat) : Prop where
  loc : v.loc = t.loc
  chunk : v.chunk = t.chunk
  nextTracker : v.nextTracker = t.nextTracker
  copying : ∃ last, v.copying = some ⟨tracker, last, false⟩
  counted : v.tracker = Function.update t.tracker tracker (t.tracker tracker + chain.length)
  pending : ∀ ref, ref ∈ v.pendingAios ↔ ref ∈ chain ∨ ref ∈ t.pendingAios
  aio : ∀ ref, v.aio ref = if ref ∈ chain then some tracker else t.aio ref

/-- The loop takes one turn for each location, as long as the `int` tracker does not overflow. -/
theorem loop_runs {tracker : Nat} :
    ∀ {chain : List Nat} {t : Transfer.State} {head : Nat},
      Transfer.chain t.loc fuel head = some (chain, id) →
      t.copying = some ⟨tracker, head, true⟩ →
      0 ≤ t.tracker tracker → t.tracker tracker + chain.length < 2 ^ 31 →
      ∃ v, run (Transfer.step fuel) t (List.replicate chain.length .copyPart) = some v ∧
        Looped t v tracker chain := by
  intro chain
  induction chain with
  | nil =>
      intro t head walked
      obtain ⟨rest, is⟩ := Transfer.chain_head walked
      cases is
  | cons k chain ih =>
      intro t head walked copying positive few
      obtain ⟨rest, is⟩ := Transfer.chain_head walked
      cases is
      rw [List.length_cons, Nat.cast_succ] at few
      -- the turn for the location at `cur`
      obtain ⟨w, isW⟩ : ∃ w, w = t.copyPart ⟨tracker, k, true⟩ := ⟨_, rfl⟩
      have turn : Transfer.step fuel t .copyPart = some w := by
        simp only [Transfer.step, copying, if_true, isW]
      have raised : Transfer.asInt (t.tracker tracker + 1) = t.tracker tracker + 1 :=
        Transfer.asInt_of_fits (by omega) (by omega)
      cases leads : t.loc k with
      | last c =>
          obtain ⟨alone, _⟩ := Transfer.chain_last walked leads
          obtain rfl : chain = [] := (List.cons_eq_cons.mp alone).2
          refine ⟨w, by rw [List.length_singleton, List.replicate_one, run_cons, turn]; rfl, ?_⟩
          rw [isW]
          constructor <;>
            simp [Transfer.State.copyPart, Transfer.State.scheduleCopy, leads, raised,
              Function.update_apply]
      | part next =>
          obtain ⟨rest, is, further⟩ := Transfer.chain_part walked leads
          obtain rfl : chain = rest := (List.cons_eq_cons.mp is).2
          have after : w.loc = t.loc ∧ w.chunk = t.chunk ∧ w.nextTracker = t.nextTracker ∧
              w.copying = some ⟨tracker, next, true⟩ ∧
              w.tracker = Function.update t.tracker tracker (t.tracker tracker + 1) ∧
              w.pendingAios = insert k t.pendingAios ∧
              w.aio = Function.update t.aio k (some tracker) := by
            simp [isW, Transfer.State.copyPart, Transfer.State.scheduleCopy, leads, raised]
          obtain ⟨sameLoc, sameChunk, same, goesOn, count, pending, aio⟩ := after
          obtain ⟨v, ran, looped⟩ := ih (sameLoc ▸ further) goesOn
            (by rw [count, Function.update_self]; omega)
            (by rw [count, Function.update_self]; omega)
          refine ⟨v, ?_, looped.loc.trans sameLoc, looped.chunk.trans sameChunk,
            looped.nextTracker.trans same, looped.copying, ?_, fun ref => ?_, fun ref => ?_⟩
          · rw [List.length_cons, List.replicate_succ, run_cons, turn]
            exact ran
          · rw [looped.counted, count, Function.update_self, Function.update_idem,
              List.length_cons, Nat.cast_succ]
            congr 1
            omega
          · rw [looped.pending, pending, Finset.mem_insert, List.mem_cons]
            tauto
          · rw [looped.aio, aio, Function.update_apply]
            by_cases here : ref = k <;> simp [here]

/-! ### `copyMem` -/

theorem requests_refs {swap : FileSwap.State} {reverse : Bool} {ramBuf : Nat}
    (parts : ∀ k ∈ chain, ∃ ref, swap.allSpace.get? k = some ref) :
    (requests g swap id reverse chain ramBuf).map Aio.ref = chain := by
  induction chain generalizing ramBuf with
  | nil => rfl
  | cons k chain ih =>
      obtain ⟨ref, found⟩ := parts k List.mem_cons_self
      simp only [requests, found, List.map_cons]
      rw [ih fun j mem => parts j (List.mem_cons_of_mem k mem)]

/-- Every location of a chain is in `all_space`. -/
theorem found_of_built : ∀ {chain : List Nat} {size : Nat},
    Built g.toGeometry allSpace id chain size →
      ∀ k ∈ chain, ∃ page, allSpace.get? k = some page
  | [k], _, built, j, mem => by
      obtain ⟨page, found, _⟩ := built
      cases List.mem_singleton.mp mem
      exact ⟨page, found⟩
  | k :: k' :: chain, _, built, j, mem => by
      obtain ⟨page, found, _, _, _, _, rest⟩ := built
      rcases List.mem_cons.mp mem with rfl | mem
      · exact ⟨page, found⟩
      · exact found_of_built rest j mem

/-- A `copyMem` for a chunk without pending requests. -/
theorem copyMem_runs (h : Matches trackers s t) (reverse : Bool) {c : Chunk}
    (found : s.swap.memChunks.get? id = some c)
    (status : c.status = if reverse then .swapin else .swapout)
    (built : Built g.toGeometry s.swap.allSpace id chain size)
    (enough : chain.length ≤ s.swap.allSpace.entries.length)
    (fueled : s.swap.allSpace.entries.length ≤ fuel)
    (opened : ∀ k ∈ chain, ∀ ref, s.swap.allSpace.get? k = some ref →
      ∃ file, s.swap.swapFiles[ref.file]? = some (some file))
    (idle : t.copying = none) (rests : ∀ a ∈ s.pendingAios, a.chunk ≠ id ∧ a.ref ∉ chain)
    (few : chain.length + 1 < 2 ^ 31) :
    ∃ u v, s.copyMem g (chain.headD 0) id reverse = some u ∧
      run (Transfer.step fuel) t (.copyMem (chain.headD 0) reverse ::
        (List.replicate chain.length .copyPart ++ [.endCopy])) = some v ∧
      v.copying = none ∧ Matches (Function.update trackers id t.nextTracker) u v := by
  have walked := chain_of_built h.leads chain (enough.trans fueled) built
  have nodup := Transfer.chain_nodup walked
  obtain ⟨u, isU, scheduled, tracker, pending, _⟩ := copyMem_spec reverse enough built opened
  obtain ⟨b, isB⟩ : ∃ b, b = t.beginCopy (chain.headD 0) id chain reverse := ⟨_, rfl⟩
  have begun : Transfer.step fuel t (.copyMem (chain.headD 0) reverse) = some b := by
    simp only [Transfer.step, idle, walked, isB]
  have one : b.tracker t.nextTracker = 1 := by simp [isB, Transfer.State.beginCopy]
  obtain ⟨w, ran, looped⟩ := @loop_runs id fuel t.nextTracker chain b (chain.headD 0)
    (by rw [isB]; exact walked) (by rw [isB]; rfl) (by rw [one]; decide) (by rw [one]; omega)
  obtain ⟨last, goesOn⟩ := looped.copying
  have counted : w.tracker t.nextTracker = 1 + chain.length := by
    rw [looped.counted, Function.update_self, one]
  have positive : 0 < chain.length := by
    cases chain with
    | nil => exact built.elim
    | cons k chain => exact Nat.succ_pos _
  have whole : Transfer.asInt (1 + chain.length - 1) = chain.length := by
    rw [add_sub_cancel_left]
    exact Transfer.asInt_of_fits (by omega) (by omega)
  obtain ⟨v, ended, loc, chunk, nextTracker, copying, count, requested, aio⟩ :
      ∃ v, Transfer.step fuel w .endCopy = some v ∧ v.loc = w.loc ∧ v.chunk = w.chunk ∧
        v.nextTracker = w.nextTracker ∧ v.copying = none ∧
        v.tracker = Function.update w.tracker t.nextTracker chain.length ∧
        v.pendingAios = w.pendingAios ∧ v.aio = w.aio := by
    simp only [Transfer.step, goesOn, Transfer.State.endCopy, Transfer.State.lower, counted,
      whole, Bool.false_eq_true, if_false]
    rw [if_neg (by omega)]
    exact ⟨_, rfl, rfl, rfl, rfl, rfl, rfl, rfl, rfl⟩
  refine ⟨u, v, isU, ?_, copying, ?_⟩
  · rw [run_cons, begun, Option.bind_some, run_append, ran, Option.bind_some, run_cons, ended]
    rfl
  · have sameSpace : u.swap.allSpace = s.swap.allSpace := by rw [scheduled.swap]
    have sameChunks : u.swap.memChunks = s.swap.memChunks := by rw [scheduled.swap]
    have sameLoc : v.loc = t.loc := by rw [loc, looped.loc, isB]; rfl
    have moves : { t.chunk id with status := if reverse then .swapin else .swapout } =
        t.chunk id := by
      rw [h.chunk id c found, ← status]
    have sameChunk : v.chunk = t.chunk := by
      rw [chunk, looped.chunk, isB]
      exact (congrArg (Function.update t.chunk id) moves).trans (Function.update_eq_self id _)
    have next : v.nextTracker = t.nextTracker + 1 := by
      rw [nextTracker, looped.nextTracker, isB]
      rfl
    have refs : u.pendingAios.map Aio.ref = s.pendingAios.map Aio.ref ++ chain := by
      rw [pending, List.map_append, requests_refs (found_of_built built)]
    have new : ∀ a ∈ u.pendingAios, (a ∈ s.pendingAios ∧ a.chunk ≠ id ∧ a.ref ∉ chain) ∨
        (a.chunk = id ∧ a.ref ∈ chain) := by
      intro a mem
      rw [pending] at mem
      rcases List.mem_append.mp mem with old | mem
      · exact .inl ⟨old, rests a old⟩
      · obtain ⟨isId, _, _, inChain, _⟩ := mem_requests mem
        exact .inr ⟨isId, inChain⟩
    exact {
      leads := by
        rw [sameSpace, sameLoc]
        exact h.leads
      chunk := fun j d isD => by
        rw [sameChunk]
        exact h.chunk j d (sameChunks ▸ isD)
      pending := fun ref => by
        rw [requested, looped.pending, isB, refs, List.mem_append, ← h.pending ref]
        exact or_comm
      apart := by
        rw [refs]
        refine List.nodup_append.mpr ⟨h.apart, nodup, fun x memS y memC same => ?_⟩
        obtain ⟨a, memA, rfl⟩ := List.mem_map.mp memS
        exact (rests a memA).2 (same ▸ memC)
      aio := fun a mem => by
        rw [aio, looped.aio, isB]
        rcases new a mem with ⟨old, other, out⟩ | ⟨isId, inChain⟩
        · rw [if_neg out, Function.update_of_ne other]
          exact h.aio a old
        · rw [if_pos inChain, isId, Function.update_self]
      tracker := fun a mem => by
        rw [count, tracker]
        rcases new a mem with ⟨old, other, _⟩ | ⟨isId, _⟩
        · have earlier := (h.made a old).ne
          rw [Function.update_of_ne other, Function.update_of_ne other,
            Function.update_of_ne earlier, looped.counted, Function.update_of_ne earlier, isB]
          exact (Function.update_of_ne earlier _ _).trans (h.tracker a old)
        · rw [isId, Function.update_self, Function.update_self, Function.update_self]
      made := fun a mem => by
        rw [next]
        rcases new a mem with ⟨old, other, _⟩ | ⟨isId, _⟩
        · rw [Function.update_of_ne other]
          exact Nat.lt_succ_of_lt (h.made a old)
        · rw [isId, Function.update_self]
          exact Nat.lt_succ_self _
      own := fun a memA b memB same => by
        rcases new a memA with ⟨oldA, otherA, _⟩ | ⟨isA, _⟩ <;>
          rcases new b memB with ⟨oldB, otherB, _⟩ | ⟨isB', _⟩
        · rw [Function.update_of_ne otherA, Function.update_of_ne otherB] at same
          exact h.own a oldA b oldB same
        · rw [Function.update_of_ne otherA, isB', Function.update_self] at same
          exact absurd same (h.made a oldA).ne
        · rw [Function.update_of_ne otherB, isA, Function.update_self] at same
          exact absurd same.symm (h.made b oldB).ne
        · exact isA.trans isB'.symm }

/-! ### Arrivals -/

/-- What `completeTransactionOn` leaves alone. -/
theorem completed_others {swap swap' : FileSwap.State}
    (taken : swap.completeTransactionOn id = some swap') :
    swap'.allSpace = swap.allSpace ∧ (∃ d, swap'.memChunks.get? id = some d) ∧
      ∀ j, j ≠ id → swap'.memChunks.get? j = swap.memChunks.get? j := by
  obtain ⟨c, _, is⟩ := Option.bind_eq_some_iff.mp taken
  split at is
  · cases is
    exact ⟨rfl, ⟨_, by rw [get?_setChunk, if_pos rfl]⟩, fun j other => by
      rw [get?_setChunk, if_neg other]; rfl⟩
  · cases is
    exact ⟨rfl, ⟨_, by rw [get?_setChunk, if_pos rfl]⟩, fun j other => by
      rw [get?_setChunk, if_neg other]⟩
  · cases is

/-- The walk finds the same chunk in both models, and leaves it the same. -/
theorem completeTransactionOn_runs (h : Matches trackers s t) {ref : Nat} (tracker : Nat)
    (fueled : s.swap.allSpace.entries.length ≤ fuel)
    (taken : s.completeTransactionOn ref = some u) :
    ∃ v, t.completeTransactionOn fuel ref tracker = some v ∧ Matches trackers u v := by
  obtain ⟨id, isEnd, taken⟩ := Option.bind_eq_some_iff.mp taken
  obtain ⟨c, found, taken⟩ := Option.bind_eq_some_iff.mp taken
  obtain ⟨swap, completed, isU⟩ := Option.map_eq_some_iff.mp taken
  obtain ⟨parts, walked⟩ := chain_of_endOf h.leads fueled isEnd
  obtain ⟨space, ⟨d, foundD⟩, others⟩ := completed_others completed
  have applied : SwapEvent.complete.apply (t.chunk id) = some d.toManagedMemoryChunk := by
    rw [h.chunk id c found, ← completeTransactionOn_chunk found, completed, Option.bind_some,
      foundD]
    rfl
  obtain ⟨isSwap, pending, trackers⟩ : u.swap = swap ∧ u.pendingAios = s.pendingAios ∧
      u.tracker = s.tracker := by
    rw [← isU]
    split <;> exact ⟨rfl, rfl, rfl⟩
  refine ⟨_, by rw [Transfer.State.completeTransactionOn, walked, Option.bind_some, applied]; rfl,
    ?_, fun j e foundE => ?_, ?_, ?_, ?_, ?_, ?_, ?_⟩
  · rw [isSwap, space]
    exact h.leads
  · rw [isSwap] at foundE
    by_cases here : j = id
    · subst here
      cases foundD.symm.trans foundE
      exact Function.update_self ..
    · rw [others j here] at foundE
      exact (Function.update_of_ne here _ _).trans (h.chunk j e foundE)
  · rw [pending]
    exact h.pending
  · rw [pending]
    exact h.apart
  · rw [pending]
    exact h.aio
  · rw [pending, trackers]
    exact h.tracker
  · rw [pending]
    exact h.made
  · rw [pending]
    exact h.own

/-- The request for `ref` has come in and has lowered its tracker. -/
def arrived (t : Transfer.State) (ref tracker : Nat) : Transfer.State :=
  { t with
    pendingAios := t.pendingAios.erase ref
    aio := Function.update t.aio ref none
    arrived := t.arrived ++ [(tracker, ref)]
    tracker := Function.update t.tracker tracker (Transfer.asInt (t.tracker tracker - 1)) }

theorem Matches.arrived (h : Matches trackers s t) {n : Nat} {aio : Aio}
    (is : s.pendingAios[n]? = some aio) (positive : 0 < s.tracker aio.chunk)
    (few : s.tracker aio.chunk < 2 ^ 31) :
    Matches trackers (s.without n aio) (arrived t aio.ref (trackers aio.chunk)) := by
  have mem : aio ∈ s.pendingAios := List.mem_of_getElem? is
  obtain ⟨pre, post, placed, erased⟩ := pending_split is
  have apart : (aio.ref :: (pre ++ post).map Aio.ref).Nodup := by
    have perm : ((aio :: (pre ++ post)).map Aio.ref).Perm (s.pendingAios.map Aio.ref) := by
      rw [placed]
      exact List.perm_middle.symm.map _
    exact perm.nodup_iff.mpr h.apart
  have left : ∀ a ∈ (s.without n aio).pendingAios, a ∈ s.pendingAios ∧ a.ref ≠ aio.ref := by
    intro a memA
    rw [erased] at memA
    refine ⟨?_, fun same => ?_⟩
    · rw [placed]
      rcases List.mem_append.mp memA with memA | memA
      · exact List.mem_append_left _ memA
      · exact List.mem_append_right _ (List.mem_cons_of_mem _ memA)
    · exact (List.nodup_cons.mp apart).1 (same ▸ List.mem_map_of_mem memA)
  have fits : Transfer.asInt (t.tracker (trackers aio.chunk) - 1) =
      (s.tracker aio.chunk - 1 : Nat) := by
    rw [h.tracker aio mem, Transfer.asInt_of_fits (by omega) (by omega)]
    omega
  exact {
    leads := h.leads
    chunk := h.chunk
    pending := fun ref => by
      have out : aio.ref ∉ (pre ++ post).map Aio.ref := (List.nodup_cons.mp apart).1
      rw [SwapBytes.arrived, Finset.mem_erase, h.pending, erased, placed]
      simp only [List.map_append, List.map_cons, List.mem_append, List.mem_cons] at out ⊢
      constructor
      · rintro ⟨other, before | same | behind⟩
        · exact .inl before
        · exact absurd same other
        · exact .inr behind
      · intro there
        refine ⟨?_, there.imp_right .inr⟩
        rintro rfl
        exact out there
    apart := by
      rw [erased]
      exact (List.nodup_cons.mp apart).2
    aio := fun a memA =>
      (Function.update_of_ne (left a memA).2 _ _).trans (h.aio a (left a memA).1)
    tracker := fun a memA => by
      dsimp only [SwapBytes.arrived, State.without]
      by_cases same : a.chunk = aio.chunk
      · rw [same, Function.update_self, Function.update_self, fits]
      · have other : trackers a.chunk ≠ trackers aio.chunk := fun eq =>
          same (h.own a (left a memA).1 aio mem eq)
        rw [Function.update_of_ne other, Function.update_of_ne same]
        exact h.tracker a (left a memA).1
    made := fun a memA => h.made a (left a memA).1
    own := fun a memA b memB => h.own a (left a memA).1 b (left b memB).1 }

/-- An arrival, as long as the tracker is positive and within an `int`. -/
theorem asyncIoArrived_runs (h : Matches trackers s t) {n : Nat} {aio : Aio}
    (is : s.pendingAios[n]? = some aio) (positive : 0 < s.tracker aio.chunk)
    (few : s.tracker aio.chunk < 2 ^ 31) (fueled : s.swap.allSpace.entries.length ≤ fuel)
    (taken : s.asyncIoArrived g n aio = some u) :
    ∃ v, Transfer.step fuel t (.arrive aio.ref) = some v ∧ Matches trackers u v := by
  have mem : aio ∈ s.pendingAios := List.mem_of_getElem? is
  have lowered := h.arrived is positive few
  have there : aio.ref ∈ t.pendingAios := (h.pending _).mpr (List.mem_map_of_mem mem)
  have one : t.tracker (trackers aio.chunk) = 1 ↔ s.tracker aio.chunk = 1 := by
    rw [h.tracker aio mem]
    omega
  have arrives : Transfer.step fuel t (.arrive aio.ref) =
      (if s.tracker aio.chunk = 1 then
        ((arrived t aio.ref (trackers aio.chunk)).completeTransactionOn fuel aio.ref
          (trackers aio.chunk)).map fun v =>
            { v with deleted := v.deleted ++ [trackers aio.chunk] }
      else some (arrived t aio.ref (trackers aio.chunk))).map fun v =>
        { v with
          totalSwapActionsQueued := Transfer.asUnsigned (v.totalSwapActionsQueued - 1) } := by
    simp only [Transfer.step, if_pos there, h.aio aio mem, Option.bind_some,
      Transfer.State.asyncIoArrived, Transfer.State.lower, one, arrived]
  obtain ⟨page, _, taken⟩ := Option.bind_eq_some_iff.mp taken
  split at taken
  case isFalse => cases taken
  have lower : (if s.tracker aio.chunk = 1 then (s.without n aio).completeTransactionOn aio.ref
      else some (s.without n aio)) = some u := taken
  rw [arrives]
  by_cases last : s.tracker aio.chunk = 1
  · rw [if_pos last] at lower ⊢
    obtain ⟨v, completed, after⟩ :=
      completeTransactionOn_runs lowered (trackers aio.chunk) fueled lower
    rw [completed]
    exact ⟨_, rfl, after.leads, after.chunk, after.pending, after.apart, after.aio, after.tracker,
      after.made, after.own⟩
  · rw [if_neg last] at lower ⊢
    cases lower
    exact ⟨_, rfl, lowered.leads, lowered.chunk, lowered.pending, lowered.apart, lowered.aio,
      lowered.tracker, lowered.made, lowered.own⟩

end Rambrain.SwapBytes
