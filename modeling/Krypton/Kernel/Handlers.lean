import Krypton.Kernel.Machine

/-! # Code that nothing interrupts

The frames on top of the kernel stack, taken for themselves. While no interrupt
is delivered and no task is switched to, they run until they have returned, and
the machine does what they do.
-/

namespace Krypton

/-- What a statement of the frame `f` makes of the frames above those that are returned to. -/
def advance (k : Kernel) (f : Frame) (fs : List Frame) : Option (Kernel × List Frame) := do
  match ← exec 0 k f with
  | (k, .goto g) => some (k, g :: fs)
  | (k, .call g callee) => some (k, callee :: g :: fs)
  | (k, .int g call) =>
      some ({ k with intr := false }, .trap .enter call (.kernel k.intr) :: g :: fs)
  | (k, .ret v) => some (k, fs.modifyHead (.deliver v))
  | (k, .iret (.kernel intr)) => if fs = [] then none else some ({ k with intr }, fs)
  | _ => none

def advances : Nat → Kernel × List Frame → Option (Kernel × List Frame)
  | 0, c => some c
  | n + 1, (k, f :: fs) => (advance k f fs).bind (advances n)
  | _ + 1, (_, []) => none

/-- The frames return, and leave the state `k'`. -/
def Completes (c : Kernel × List Frame) (k' : Kernel) : Prop := ∃ n, advances n c = some (k', [])

/-- Some statements, at least one, take `c` to `d`. -/
def Leads (c d : Kernel × List Frame) : Prop := ∃ n, 0 < n ∧ advances n c = some d

variable {c d e : Kernel × List Frame} {k k' : Kernel} {f g : Frame} {fs fs' : List Frame} {n : Nat}

theorem advances_add (m n : Nat) (c : Kernel × List Frame) :
    advances (m + n) c = (advances m c).bind (advances n) := by
  induction m generalizing c with
  | zero => rw [Nat.zero_add, advances, Option.bind_some]
  | succ m ih =>
      rw [Nat.succ_add]
      cases c with
      | mk k fs =>
          cases fs with
          | nil => rfl
          | cons f fs =>
              simp only [advances, Option.bind_assoc]
              congr 1
              funext d
              exact ih d

theorem Leads.trans (first : Leads c d) (second : Leads d e) : Leads c e := by
  obtain ⟨m, pos, first⟩ := first
  obtain ⟨n, -, second⟩ := second
  refine ⟨m + n, Nat.add_pos_left pos n, ?_⟩
  rw [advances_add, first, Option.bind_some, second]

theorem Leads.step (run : advance k f fs = some d) : Leads (k, f :: fs) d :=
  ⟨1, Nat.one_pos, by rw [advances, run]; rfl⟩

/-- `permit()`, with nothing between its test and its decrement. -/
theorem Leads.permit {Pc : Type} (frame : Pc → Frame) (lower after : Pc)
    (test : advance k f fs = some (k, frame (k.past lower after) :: fs))
    (lowers : advance k (frame lower) fs = some (k.lower, frame after :: fs)) :
    Leads (k, f :: fs) (k.permit, frame after :: fs) := by
  have tested := Leads.step test
  unfold Kernel.past at tested
  split at tested
  · next positive => exact Kernel.permit_lower positive ▸ tested.trans (.step lowers)
  · next low => exact (Kernel.permit_self low).symm ▸ tested

/-- What has returned takes no more steps. -/
theorem Leads.remaining (leads : Leads c d) (run : advances n c = some (k', [])) :
    ∃ j < n, advances j d = some (k', []) := by
  obtain ⟨m, pos, leads⟩ := leads
  cases Nat.lt_or_ge n m with
  | inl less =>
      obtain ⟨j, rfl⟩ : ∃ j, m = n + (j + 1) := ⟨m - n - 1, by omega⟩
      rw [advances_add, run] at leads
      cases leads
  | inr most =>
      obtain ⟨j, rfl⟩ : ∃ j, n = m + j := ⟨n - m, by omega⟩
      rw [advances_add, leads] at run
      exact ⟨j, by omega, run⟩

theorem Leads.completes_iff (leads : Leads c d) : Completes c k' ↔ Completes d k' := by
  constructor
  · intro ⟨n, run⟩
    obtain ⟨j, -, rest⟩ := leads.remaining run
    exact ⟨j, rest⟩
  · intro ⟨n, run⟩
    obtain ⟨m, -, leads⟩ := leads
    refine ⟨m + n, ?_⟩
    rw [advances_add, leads, Option.bind_some, run]

theorem completes_nil : Completes (k, []) k' ↔ k' = k := by
  constructor
  · intro ⟨n, run⟩
    cases n with
    | zero =>
        cases run
        rfl
    | succ n => cases run
  · intro same
    exact ⟨0, by rw [same]; rfl⟩

/-! ## On the machine -/

/-- A statement does on the machine what it does to the frames for themselves. -/
theorem stmt_advance (m : Machine) (rest : List Frame) (run : advance k f fs = some (k', fs')) :
    ∃ v, ({ m with k, kstack := f :: (fs ++ rest) } : Machine).stmt 0 =
      some { m with
        k := k'
        kstack := fs' ++ if fs' = [] then rest.modifyHead (.deliver v) else rest } := by
  unfold advance at run
  obtain ⟨⟨k₁, next⟩, exec, run⟩ := Option.bind_eq_some_iff.mp run
  simp only [Machine.stmt, exec, Option.bind_eq_bind, Option.bind_some]
  cases next with
  | goto g =>
      cases run
      exact ⟨.none, by simp [Machine.afterKernel]⟩
  | call g callee =>
      cases run
      exact ⟨.none, by simp [Machine.afterKernel]⟩
  | int g call =>
      cases run
      exact ⟨.none, by simp [Machine.afterKernel, Machine.enter]⟩
  | write g block => cases run
  | ret v =>
      cases run
      refine ⟨v, ?_⟩
      cases fs <;> simp [Machine.afterKernel]
  | iret regs =>
      cases regs with
      | user regs => cases run
      | kernel intr =>
          by_cases alone : fs = []
          · simp [alone] at run
          · simp only [if_neg alone] at run
            cases run
            exact ⟨.none, by simp [Machine.afterKernel, Machine.iret, alone]⟩

/-- What completes returns to the frames below. -/
theorem completes_run (m : Machine) (rest : List Frame) (some_frame : fs ≠ [])
    (completes : Completes (k, fs) k') : ∃ n v,
    Runs.run Machine.step { m with k, kstack := fs ++ rest } (List.replicate n (.stmt 0)) =
      some { m with k := k', kstack := rest.modifyHead (.deliver v) } := by
  obtain ⟨n, run⟩ := completes
  refine ⟨n, ?_⟩
  induction n generalizing k fs with
  | zero =>
      cases run
      exact absurd rfl some_frame
  | succ n ih =>
      cases fs with
      | nil => exact absurd rfl some_frame
      | cons f fs =>
          obtain ⟨⟨k₁, fs₁⟩, first, rest_run⟩ := Option.bind_eq_some_iff.mp run
          obtain ⟨v, step⟩ := stmt_advance m rest first
          rw [List.replicate_succ, Runs.run, List.cons_append, Machine.step, step, Option.bind_some]
          cases fs₁ with
          | nil =>
              cases n with
              | zero =>
                  cases rest_run
                  exact ⟨v, rfl⟩
              | succ n => cases rest_run
          | cons g gs => exact ih (List.cons_ne_nil g gs) rest_run

end Krypton
