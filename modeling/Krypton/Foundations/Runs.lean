import Mathlib.Data.List.Basic
import Mathlib.Logic.Basic

/-! # Runs of a labelled machine

A machine is a partial step function on labelled events. `Reach` collects the
states of its runs, each step of which satisfied a side condition in the state
before it; the trivial condition gives the plain reachable states. Invariants
are proved once here, from what one step preserves.
-/

namespace Runs

variable {State Event : Type*}

/-- The states reached from `init` by steps that all satisfied `ok` beforehand. -/
inductive Reach (step : State → Event → Option State) (ok : State → Event → Prop)
    (init : State → Prop) : State → Prop where
  | start : init s → Reach step ok init s
  | next : Reach step ok init s → ok s e → step s e = some t → Reach step ok init t

variable {step : State → Event → Option State} {ok : State → Event → Prop}
variable {init : State → Prop}

namespace Reach

/-- What holds initially and survives each admitted step holds in every reached state. -/
theorem invariant {I : State → Prop} (base : ∀ s, init s → I s)
    (kept : ∀ s e t, I s → ok s e → step s e = some t → I t)
    {s} (reached : Reach step ok init s) : I s := by
  induction reached with
  | start h => exact base _ h
  | next _ hok hstep ih => exact kept _ _ _ ih hok hstep

end Reach

/-- The state after a list of events, if every one of them was possible. -/
def run (step : State → Event → Option State) : State → List Event → Option State
  | s, [] => some s
  | s, e :: es => (step s e).bind fun t => run step t es

/-- Every event of the list satisfied `ok` in the state it was taken in. -/
def Meets (step : State → Event → Option State) (ok : State → Event → Prop) :
    State → List Event → Prop
  | _, [] => True
  | s, e :: es => ok s e ∧ ∀ t, step s e = some t → Meets step ok t es

instance decidableMeets [∀ s e, Decidable (ok s e)] (s : State) (es : List Event) :
    Decidable (Meets step ok s es) :=
  match es with
  | [] => isTrue trivial
  | e :: es =>
      match h : step s e with
      | none => decidable_of_iff (ok s e) (by simp [Meets, h])
      | some t =>
          have := decidableMeets t es
          decidable_of_iff (ok s e ∧ Meets step ok t es) (by simp [Meets, h])

theorem run_cons {s t : State} {e : Event} (h : step s e = some t) (es : List Event) :
    run step s (e :: es) = run step t es := by
  rw [run, h, Option.bind_some]

/-- A run given by its events ends in a reached state. -/
theorem Reach.of_run {s t : State} {es : List Event} (start : Reach step ok init s)
    (meets : Meets step ok s es) (h : run step s es = some t) : Reach step ok init t := by
  induction es generalizing s with
  | nil =>
      cases h
      exact start
  | cons e es ih =>
      obtain ⟨u, hu, rest⟩ := Option.bind_eq_some_iff.mp h
      exact ih (start.next meets.1 hu) (meets.2 u hu) rest

/-- A run whose last state passes a test reaches a state that passes it. -/
theorem Reach.exists_of_run {s : State} {es : List Event} {p : State → Bool}
    (start : Reach step ok init s)
    (meets : Meets step ok s es) (ends : (run step s es).any p) :
    ∃ t, run step s es = some t ∧ Reach step ok init t ∧ p t := by
  cases h : run step s es with
  | none =>
      rw [h] at ends
      cases ends
  | some t =>
      rw [h] at ends
      exact ⟨t, rfl, .of_run start meets h, ends⟩

theorem meets_true (s : State) (es : List Event) : Meets step (fun _ _ => True) s es := by
  induction es generalizing s with
  | nil => trivial
  | cons e es ih => exact ⟨trivial, fun t _ => ih t⟩

end Runs
