import Mathlib.Logic.Relation
import Krypton.Foundations.Runs

/-! # Forward simulation

A machine refines an abstract system when every step it makes in a reached
state is one step of the abstract system or none. Then every state that is
reached stands for one that the abstract system reaches, and has what holds in
all of these.
-/

namespace Runs

open Relation (ReflGen ReflTransGen)

variable {State Event Abstract : Type*}

/-- The relation between the states is kept by the steps of both. -/
structure Refines (step : State → Event → Option State) (ok : State → Event → Prop)
    (init : State → Prop)
    (next : Abstract → Abstract → Prop) (first : Abstract) (R : State → Abstract → Prop) :
    Prop where
  start : ∀ s, init s → R s first
  next : ∀ s e t a, Reach step ok init s → R s a → ok s e → step s e = some t →
    ∃ b, ReflGen next a b ∧ R t b

variable {step : State → Event → Option State} {ok : State → Event → Prop} {init : State → Prop}
variable {next : Abstract → Abstract → Prop} {first : Abstract} {R : State → Abstract → Prop}

/-- Every state that is reached stands for one that the abstract system reaches. -/
theorem Refines.reached (h : Refines step ok init next first R) {s : State}
    (reached : Reach step ok init s) :
    ∃ a, ReflTransGen next first a ∧ R s a := by
  induction reached with
  | start start => exact ⟨first, .refl, h.start _ start⟩
  | next before hok hstep ih =>
      obtain ⟨a, path, related⟩ := ih
      obtain ⟨b, last, related'⟩ := h.next _ _ _ a before related hok hstep
      exact ⟨b, path.trans last.to_reflTransGen, related'⟩

end Runs
