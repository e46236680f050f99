import Mathlib

/-!
Programs that take and release locks, and a rule set for their exits.

A `Prog` is the control flow of a piece of code: it takes and releases locks, throws,
and asks questions, the answers to which stand for the data it tests and for the
outcomes of what it calls. `exec` follows one list of answers. Taking a lock that is
held and releasing one that is not are endings of their own.

Some answers may be declared bad. `Behaves bad H p H' Q` says that `p`, started with
the locks `H` and without a bad answer so far, returns with exactly the locks `H'`, or
leaves by an exception with no lock held, unless it has met a bad answer; and that
after a bad answer it leaves by an exception with some lock held, or misuses a lock.
It is the property that `disciplined_iff` turns into an equivalence: a program that
behaves from no locks to no locks uses them properly exactly on the paths without a
bad answer.
-/

namespace Rambrain.Lib.LockFlow

universe u

/-- Control flow over locks `L`, questions `Q` and exceptions `E`. -/
inductive Prog (L Q E : Type) : Type → Type 1 where
  | pure {α : Type} (a : α) : Prog L Q E α
  | throw {α : Type} (e : E) : Prog L Q E α
  | lock {α : Type} (l : L) (k : Prog L Q E α) : Prog L Q E α
  | unlock {α : Type} (l : L) (k : Prog L Q E α) : Prog L Q E α
  | ask {α : Type} (q : Q) (k : Bool → Prog L Q E α) : Prog L Q E α
  /-- Still running: a loop that has used up its fuel. -/
  | running {α : Type} : Prog L Q E α

namespace Prog

variable {L Q E α β : Type}

def bind : Prog L Q E α → (α → Prog L Q E β) → Prog L Q E β
  | .pure a, f => f a
  | .throw e, _ => .throw e
  | .lock l k, f => .lock l (k.bind f)
  | .unlock l k, f => .unlock l (k.bind f)
  | .ask q k, f => .ask q fun b => (k b).bind f
  | .running, _ => .running

instance : Monad (Prog L Q E) where
  pure := Prog.pure
  bind := Prog.bind

/-- Take a lock. -/
def acquire (l : L) : Prog L Q E Unit := .lock l (.pure ())

/-- Release a lock. -/
def release (l : L) : Prog L Q E Unit := .unlock l (.pure ())

/-- Ask a question. -/
def test (q : Q) : Prog L Q E Bool := .ask q .pure

/-- `if ( q ) p;` -/
def when (q : Q) (p : Prog L Q E Unit) : Prog L Q E Unit :=
  test q >>= fun b => if b then p else pure ()

/-- `while ( q ) p;` -/
def loop (fuel : Nat) (q : Q) (p : Prog L Q E Unit) : Prog L Q E Unit :=
  match fuel with
  | 0 => .running
  | fuel + 1 => test q >>= fun b => if b then p >>= fun _ => loop fuel q p else pure ()

end Prog

/-- How a program ends. -/
inductive Ending (L E α : Type) where
  | returned (a : α)
  | thrown (e : E)
  /-- It takes a lock that it holds. -/
  | relocked (l : L)
  /-- It releases a lock that it does not hold. -/
  | notHeld (l : L)
  deriving DecidableEq, Repr

/-- An ending with the locks held and the questions answered on the way. -/
structure Outcome (L Q E α : Type) where
  ending : Ending L E α
  held : Finset L
  asked : List (Q × Bool)
  deriving DecidableEq

variable {L Q E α β : Type} [DecidableEq L]

/-- Run a program on a list of answers; `none` when it has not ended with the last one. -/
def exec : Prog L Q E α → Finset L → List Bool → Option (Outcome L Q E α)
  | .pure a, held, _ => some ⟨.returned a, held, []⟩
  | .throw e, held, _ => some ⟨.thrown e, held, []⟩
  | .lock l k, held, answers =>
      if l ∈ held then some ⟨.relocked l, held, []⟩ else exec k (insert l held) answers
  | .unlock l k, held, answers =>
      if l ∈ held then exec k (held.erase l) answers else some ⟨.notHeld l, held, []⟩
  | .ask _ _, _, [] => none
  | .ask q k, held, b :: answers =>
      (exec (k b) held answers).map fun o => { o with asked := (q, b) :: o.asked }
  | .running, _, _ => none

/-- The locks were used properly and none is held at the exit. -/
def Disciplined (o : Outcome L Q E α) : Prop :=
  match o.ending with
  | .returned _ | .thrown _ => o.held = ∅
  | .relocked _ | .notHeld _ => False

/-- Some question got a bad answer. -/
def Tainted (bad : Q → Bool → Bool) (asked : List (Q × Bool)) : Bool :=
  asked.any fun a => bad a.1 a.2

@[simp] theorem tainted_nil (bad : Q → Bool → Bool) : Tainted bad [] = false := rfl

@[simp] theorem tainted_cons (bad : Q → Bool → Bool) (q : Q) (b : Bool)
    (asked : List (Q × Bool)) :
    Tainted bad ((q, b) :: asked) = (bad q b || Tainted bad asked) := rfl

/-! ### The rules -/

/-- The proper ending of a program that is to return with the locks `H`. -/
def Ends (H : Finset L) (ending : Ending L E α) (held : Finset L) (tainted : Bool) : Prop :=
  match ending with
  | .returned _ => tainted = false ∧ held = H
  | .thrown _ => tainted = decide (held ≠ ∅)
  | .relocked _ | .notHeld _ => tainted = true

/-- Whatever the answers, the program ends as it should when it starts with `held`. -/
def wp (bad : Q → Bool → Bool) (H : Finset L) : Prog L Q E α → Finset L → Bool → Prop
  | .pure a, held, tainted => Ends H (.returned a : Ending L E α) held tainted
  | .throw e, held, tainted => Ends H (.thrown e : Ending L E α) held tainted
  | .lock l k, held, tainted =>
      if l ∈ held then Ends H (.relocked l : Ending L E α) held tainted
      else wp bad H k (insert l held) tainted
  | .unlock l k, held, tainted =>
      if l ∈ held then wp bad H k (held.erase l) tainted
      else Ends H (.notHeld l : Ending L E α) held tainted
  | .ask q k, held, tainted => ∀ b, wp bad H (k b) held (tainted || bad q b)
  | .running, _, _ => True

/-- Started with the locks `H`, the program returns with the locks `H'`, or ends as it
should otherwise. -/
def Behaves (bad : Q → Bool → Bool) (H : Finset L) (p : Prog L Q E α) (H' : Finset L) :
    Prop :=
  wp bad H' p H false

section
variable {bad : Q → Bool → Bool} {H H' H'' : Finset L}

theorem wp_exec {p : Prog L Q E α} :
    ∀ {held : Finset L} {tainted : Bool} {answers : List Bool} {o : Outcome L Q E α},
      wp bad H p held tainted → exec p held answers = some o →
      Ends H o.ending o.held (tainted || Tainted bad o.asked) := by
  induction p with
  | pure a =>
      intro held tainted answers o good ran
      cases ran
      rw [tainted_nil, Bool.or_false]
      exact good
  | throw e =>
      intro held tainted answers o good ran
      cases ran
      rw [tainted_nil, Bool.or_false]
      exact good
  | lock l k ih =>
      intro held tainted answers o good ran
      simp only [exec, wp] at ran good
      split at ran
      · rename_i mem
        cases ran
        rw [if_pos mem] at good
        rw [tainted_nil, Bool.or_false]
        exact good
      · rename_i mem
        rw [if_neg mem] at good
        exact ih good ran
  | unlock l k ih =>
      intro held tainted answers o good ran
      simp only [exec, wp] at ran good
      split at ran
      · rename_i mem
        rw [if_pos mem] at good
        exact ih good ran
      · rename_i mem
        cases ran
        rw [if_neg mem] at good
        rw [tainted_nil, Bool.or_false]
        exact good
  | ask q k ih =>
      intro held tainted answers o good ran
      cases answers with
      | nil => cases ran
      | cons b answers =>
          obtain ⟨o', ran', rfl⟩ := Option.map_eq_some_iff.mp ran
          have ends := ih b (good b) ran'
          rw [tainted_cons, ← Bool.or_assoc]
          exact ends
  | running =>
      intro held tainted answers o good ran
      cases ran

/-- A program that behaves from no locks to no locks uses them properly exactly on the
paths without a bad answer. -/
theorem disciplined_iff {p : Prog L Q E α} (behaves : Behaves bad ∅ p ∅)
    {answers : List Bool} {o : Outcome L Q E α} (ran : exec p ∅ answers = some o) :
    Disciplined o ↔ Tainted bad o.asked = false := by
  have ends := wp_exec behaves ran
  rw [Bool.false_or] at ends
  obtain ⟨ending, held, asked⟩ := o
  cases ending with
  | returned a => exact ⟨fun _ => ends.1, fun _ => ends.2⟩
  | thrown e =>
      have ends : Tainted bad asked = decide (held ≠ ∅) := ends
      rw [ends, decide_eq_false_iff_not, not_not]
      exact Iff.rfl
  | relocked l =>
      have ends : Tainted bad asked = true := ends
      rw [ends]
      exact ⟨fun no => no.elim, fun no => by cases no⟩
  | notHeld l =>
      have ends : Tainted bad asked = true := ends
      rw [ends]
      exact ⟨fun no => no.elim, fun no => by cases no⟩

theorem wp_bind {p : Prog L Q E α} {f : α → Prog L Q E β}
    (rest : ∀ a, Behaves bad H' (f a) H'') :
    ∀ {held : Finset L} {tainted : Bool}, wp bad H' p held tainted →
      wp bad H'' (p >>= f) held tainted := by
  change ∀ {held : Finset L} {tainted : Bool}, wp bad H' p held tainted →
    wp bad H'' (p.bind f) held tainted
  induction p with
  | pure a =>
      rintro held tainted ⟨rfl, rfl⟩
      exact rest a
  | throw e => exact fun first => first
  | lock l k ih =>
      intro held tainted first
      simp only [wp, Prog.bind] at first ⊢
      split at first
      · rename_i mem
        rw [if_pos mem]
        exact first
      · rename_i mem
        rw [if_neg mem]
        exact ih first
  | unlock l k ih =>
      intro held tainted first
      simp only [wp, Prog.bind] at first ⊢
      split at first
      · rename_i mem
        rw [if_pos mem]
        exact ih first
      · rename_i mem
        rw [if_neg mem]
        exact first
  | ask q k ih =>
      intro held tainted first b
      exact ih b (first b)
  | running => exact fun _ => trivial

theorem Behaves.bind {p : Prog L Q E α} {f : α → Prog L Q E β} (first : Behaves bad H p H')
    (rest : ∀ a, Behaves bad H' (f a) H'') : Behaves bad H (p >>= f) H'' :=
  wp_bind rest first

theorem Behaves.pure (H : Finset L) (a : α) :
    Behaves bad H (pure a : Prog L Q E α) H :=
  ⟨rfl, rfl⟩

theorem Behaves.throw (e : E) : Behaves bad ∅ (.throw e : Prog L Q E α) H := rfl

theorem Behaves.acquire {l : L} (out : l ∉ H) :
    Behaves bad H (Prog.acquire l : Prog L Q E Unit) (insert l H) := by
  simp only [Behaves, Prog.acquire, wp, if_neg out]
  exact ⟨rfl, rfl⟩

theorem Behaves.release {l : L} (mem : l ∈ H) :
    Behaves bad H (Prog.release l : Prog L Q E Unit) (H.erase l) := by
  simp only [Behaves, Prog.release, wp, if_pos mem]
  exact ⟨rfl, rfl⟩

/-- Ask, and go on with either answer. -/
theorem Behaves.test {q : Q} {k : Bool → Prog L Q E α}
    (each : ∀ b, wp bad H' (k b) H (bad q b)) : Behaves bad H (Prog.test q >>= k) H' := by
  intro b
  rw [Bool.false_or]
  exact each b

/-- An answer that is passed on. -/
theorem Behaves.answer {q : Q} (fine : ∀ b, bad q b = false) :
    Behaves bad H (Prog.test q : Prog L Q E Bool) H := by
  intro b
  rw [fine b]
  exact ⟨rfl, rfl⟩

/-- Ask what has no bad answer. -/
theorem Behaves.ask {q : Q} {yes no : Prog L Q E α} (fine : ∀ b, bad q b = false)
    (onYes : Behaves bad H yes H') (onNo : Behaves bad H no H') :
    Behaves bad H (Prog.test q >>= fun b => if b then yes else no) H' := by
  refine .test fun b => ?_
  rw [fine b]
  cases b with
  | true => exact onYes
  | false => exact onNo

/-- A throw on `true`, which is a bad answer when a lock is held. -/
theorem Behaves.throwIf {q : Q} {e : E} {k : Prog L Q E α}
    (yes : bad q true = decide (H ≠ ∅)) (no : bad q false = false)
    (rest : Behaves bad H k H') :
    Behaves bad H (Prog.test q >>= fun b => if b then .throw e else k) H' := by
  refine .test fun b => ?_
  cases b with
  | true => exact yes
  | false =>
      rw [no]
      exact rest

/-- A throw on `false`, which is a bad answer when a lock is held. -/
theorem Behaves.throwUnless {q : Q} {e : E} {k : Prog L Q E α}
    (no : bad q false = decide (H ≠ ∅)) (yes : bad q true = false)
    (rest : Behaves bad H k H') :
    Behaves bad H (Prog.test q >>= fun b => if b then k else .throw e) H' := by
  refine .test fun b => ?_
  cases b with
  | true =>
      rw [yes]
      exact rest
  | false => exact no

theorem Behaves.when {q : Q} {p : Prog L Q E Unit} (fine : ∀ b, bad q b = false)
    (body : Behaves bad H p H) : Behaves bad H (Prog.when q p) H :=
  .ask fine body (.pure H ())

/-- A loop whose body keeps the locks. -/
theorem Behaves.loop {q : Q} {p : Prog L Q E Unit} (fine : ∀ b, bad q b = false)
    (body : Behaves bad H p H) : ∀ fuel, Behaves bad H (Prog.loop fuel q p) H
  | 0 => trivial
  | fuel + 1 => by
      refine .ask fine ?_ (.pure H ())
      exact body.bind fun _ => Behaves.loop fine body fuel

end

end Rambrain.Lib.LockFlow
