import Mathlib

/-!
Runs of a step function and invariants along them.

A system is a partial step function `step : σ → ε → Option σ`; an event that the
system cannot take in a state has no result there. A run is the list of events it
took. The rules used everywhere below are

* `run_invariant`: a predicate kept by every step is kept by every run;
* `run_invariant_of_guard`: a predicate kept by every step that meets a condition is
  kept by every run whose steps all meet it;
* `run_append`: runs compose, so a property of every run holds at every prefix;
* `run_simulates`: when another system matches every step, it matches every run.
-/

namespace Rambrain.Lib

universe u v w

variable {σ : Type u} {ε : Type v}

/-- The state a list of events leads to, `none` when some event cannot be taken. -/
def run (step : σ → ε → Option σ) : σ → List ε → Option σ
  | s, [] => some s
  | s, e :: es => (step s e).bind fun t => run step t es

/-- Every event of the run meets `ok` in the state it is taken in. -/
def Along (step : σ → ε → Option σ) (ok : σ → ε → Prop) : σ → List ε → Prop
  | _, [] => True
  | s, e :: es => ok s e ∧ ∀ t, step s e = some t → Along step ok t es

section
variable {step : σ → ε → Option σ} {ok : σ → ε → Prop}

@[simp] theorem run_nil (s : σ) : run step s [] = some s := rfl

theorem run_cons (s : σ) (e : ε) (es : List ε) :
    run step s (e :: es) = (step s e).bind fun t => run step t es := rfl

theorem run_cons_eq_some {s u : σ} {e : ε} {es : List ε} :
    run step s (e :: es) = some u ↔ ∃ t, step s e = some t ∧ run step t es = some u := by
  rw [run_cons, Option.bind_eq_some_iff]

theorem run_append (s : σ) (es fs : List ε) :
    run step s (es ++ fs) = (run step s es).bind fun t => run step t fs := by
  induction es generalizing s with
  | nil => rfl
  | cons e es ih =>
      simp only [List.cons_append, run_cons]
      cases step s e with
      | none => rfl
      | some t => exact ih t

/-- The condition can be checked along a given run. -/
instance Along.decidable [∀ s e, Decidable (ok s e)] :
    ∀ (es : List ε) (s : σ), Decidable (Along step ok s es)
  | [], _ => isTrue trivial
  | e :: es, s =>
      match taken : step s e with
      | none =>
          decidable_of_iff (ok s e) ⟨fun h => ⟨h, fun t next => by rw [taken] at next; cases next⟩,
            fun h => h.1⟩
      | some t =>
          have := Along.decidable es t
          decidable_of_iff (ok s e ∧ Along step ok t es)
            ⟨fun h => ⟨h.1, fun u next => by rw [taken] at next; cases next; exact h.2⟩,
              fun h => ⟨h.1, h.2 t taken⟩⟩

/-- A predicate kept by every step that meets the condition holds in every state
reached by a run whose steps all meet it. -/
theorem run_invariant_of_guard (inv : σ → Prop)
    (kept : ∀ s e t, inv s → ok s e → step s e = some t → inv t) :
    ∀ (es : List ε) {s t : σ}, inv s → Along step ok s es → run step s es = some t → inv t := by
  intro es
  induction es with
  | nil =>
      intro s t start _ reached
      exact Option.some.inj reached ▸ start
  | cons e es ih =>
      intro s t start guarded reached
      obtain ⟨mid, first, rest⟩ := run_cons_eq_some.mp reached
      exact ih (kept s e mid start guarded.1 first) (guarded.2 mid first) rest

/-- A predicate kept by every step holds in every state reached. -/
theorem run_invariant (inv : σ → Prop)
    (kept : ∀ s e t, inv s → step s e = some t → inv t)
    (es : List ε) {s t : σ} (start : inv s) (reached : run step s es = some t) : inv t := by
  have everywhere : ∀ (es : List ε) (s : σ), Along step (fun _ _ => True) s es := by
    intro es
    induction es with
    | nil => intro s; trivial
    | cons e es ih => intro s; exact ⟨trivial, fun t _ => ih t⟩
  exact run_invariant_of_guard inv (fun s e t h _ taken => kept s e t h taken) es start
    (everywhere es s) reached

/-- A system whose steps are matched by the steps of another one has its runs matched too. -/
theorem run_simulates {τ : Type w} {step' : τ → ε → Option τ} (rel : σ → τ → Prop)
    (matched : ∀ s x e t, rel s x → step s e = some t → ∃ y, step' x e = some y ∧ rel t y) :
    ∀ (es : List ε) {s t : σ} {x : τ}, rel s x → run step s es = some t →
      ∃ y, run step' x es = some y ∧ rel t y := by
  intro es
  induction es with
  | nil =>
      intro s t x start reached
      cases reached
      exact ⟨x, rfl, start⟩
  | cons e es ih =>
      intro s t x start reached
      obtain ⟨mid, first, rest⟩ := run_cons_eq_some.mp reached
      obtain ⟨y, first', related⟩ := matched s x e mid start first
      obtain ⟨z, rest', ends⟩ := ih related rest
      exact ⟨z, run_cons_eq_some.mpr ⟨y, first', rest'⟩, ends⟩

/-- Two conditions agree along a run when they agree in every state that an invariant
of the runs under the first one allows. -/
theorem along_congr {ok' : σ → ε → Prop} (inv : σ → Prop)
    (same : ∀ s e, inv s → (ok s e ↔ ok' s e))
    (kept : ∀ s e t, inv s → ok s e → step s e = some t → inv t) :
    ∀ (es : List ε) {s : σ}, inv s → (Along step ok s es ↔ Along step ok' s es) := by
  intro es
  induction es with
  | nil =>
      intro s _
      exact Iff.rfl
  | cons e es ih =>
      intro s start
      constructor
      · intro h
        exact ⟨(same s e start).mp h.1,
          fun t taken => (ih (kept s e t start h.1 taken)).mp (h.2 t taken)⟩
      · intro h
        have first := (same s e start).mpr h.1
        exact ⟨first, fun t taken => (ih (kept s e t start first taken)).mpr (h.2 t taken)⟩

end

end Rambrain.Lib
