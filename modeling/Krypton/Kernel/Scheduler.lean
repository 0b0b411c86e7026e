import Mathlib.Logic.Function.Basic
import Krypton.List

/-! # A priority scheduler

What the scheduling of the kernel is for, without its lists, flags and
counters. A task is in one place: it runs, or it is ready, or it waits for
something. The ready tasks are in the order of their priorities, and the first
one is dispatched when no task runs.
-/

namespace Krypton

/-- Where a task is; `ι` are the things to wait for. -/
inductive Place (ι : Type) where
  | running
  | ready
  | waiting (i : ι)

@[ext] structure Scheduler (τ ι : Type) where
  pri : τ → Int
  /-- where there is such a task -/
  place : τ → Option (Place ι)
  ready : List τ
  mem_ready : ∀ t, t ∈ ready ↔ place t = some .ready
  nodup : ready.Nodup
  ordered : ready.Pairwise fun t u => pri u ≤ pri t
  one : ∀ t u, place t = some .running → place u = some .running → t = u

namespace Scheduler

variable {τ ι : Type}

/-- One task runs. -/
def single [DecidableEq τ] (pri : τ → Int) (t : τ) : Scheduler τ ι where
  pri := pri
  place := Function.update (fun _ => none) t (some .running)
  ready := []
  mem_ready u := by
    by_cases here : u = t
    · simp [here]
    · simp [Function.update_of_ne here]
  nodup := .nil
  ordered := .nil
  one u v := by
    have only (u : τ) (runs : Function.update
        (fun _ => none) t (some (.running : Place ι)) u = some .running) : u = t := by
      by_contra other
      rw [Function.update_of_ne other] at runs
      cases runs
    exact fun runs runs' => (only u runs).trans (only v runs').symm

section Steps

variable [DecidableEq τ] (s : Scheduler τ ι)

/-- A task becomes ready, behind those that are of its priority. -/
def arrive (t : τ) (other : s.place t ≠ some .ready) : Scheduler τ ι where
  pri := s.pri
  place := Function.update s.place t (some .ready)
  ready := insertPri s.pri t s.ready
  mem_ready u := by
    by_cases here : u = t
    · simp [here]
    · simp [here, s.mem_ready]
  nodup := by
    have split := List.takeWhile_append_dropWhile (p := (s.pri t ≤ s.pri ·)) (l := s.ready)
    have fresh : t ∉ s.ready := fun mem => other ((s.mem_ready t).mp mem)
    have nodup := s.nodup
    rw [← split] at fresh nodup
    exact List.nodup_middle.mpr (List.nodup_cons.mpr ⟨fresh, nodup⟩)
  ordered := insertPri_ordered s.pri s.ordered
  one u v runs runs' := by
    have old (u : τ) (runs : Function.update s.place t (some .ready) u = some .running) :
        s.place u = some .running := by
      by_cases here : u = t
      · rw [here, Function.update_self] at runs
        cases runs
      · rwa [Function.update_of_ne here] at runs
    exact s.one u v (old u runs) (old v runs')

/-- A task that there is not yet gets its priority. -/
def declare (t : τ) (p : Int) (fresh : s.place t = none) : Scheduler τ ι where
  pri := Function.update s.pri t p
  place := s.place
  ready := s.ready
  mem_ready := s.mem_ready
  nodup := s.nodup
  ordered := by
    have other (u : τ) (mem : u ∈ s.ready) : Function.update s.pri t p u = s.pri u := by
      refine Function.update_of_ne ?_ ..
      rintro rfl
      rw [s.mem_ready, fresh] at mem
      cases mem
    refine s.ordered.imp_of_mem fun mem mem' le => ?_
    rwa [other _ mem, other _ mem']
  one := s.one

/-- A task is created, and is ready. -/
def create (t : τ) (p : Int) (fresh : s.place t = none) : Scheduler τ ι :=
  (s.declare t p fresh).arrive t (by
    have same : (s.declare t p fresh).place t = s.place t := rfl
    rw [same, fresh]
    exact nofun)

/-- The running task waits. -/
def block (t : τ) (i : ι) (runs : s.place t = some .running) : Scheduler τ ι where
  pri := s.pri
  place := Function.update s.place t (some (.waiting i))
  ready := s.ready
  mem_ready u := by
    by_cases here : u = t
    · simp [here, s.mem_ready, runs]
    · simp [Function.update_of_ne here, s.mem_ready]
  nodup := s.nodup
  ordered := s.ordered
  one u v runs' := by
    by_cases here : u = t
    · rw [here, Function.update_self] at runs'
      cases runs'
    · rw [Function.update_of_ne here] at runs'
      exact absurd (s.one u t runs' runs) here

/-- The first task that is ready runs, when none does. -/
def dispatch (t : τ) (ts : List τ) (first : s.ready = t :: ts)
    (idle : ∀ u, s.place u ≠ some .running) :
    Scheduler τ ι where
  pri := s.pri
  place := Function.update s.place t (some .running)
  ready := ts
  mem_ready u := by
    have nodup := s.nodup
    have mem := s.mem_ready u
    rw [first, List.nodup_cons] at nodup
    rw [first, List.mem_cons] at mem
    by_cases here : u = t
    · subst here
      simpa using nodup.1
    · rw [Function.update_of_ne here, ← mem]
      exact (or_iff_right here).symm
  nodup := by
    have nodup := s.nodup
    rw [first] at nodup
    exact nodup.of_cons
  ordered := by
    have ordered := s.ordered
    rw [first] at ordered
    exact ordered.of_cons
  one u v runs runs' := by
    have only (u : τ) (runs : Function.update s.place t (some .running) u = some .running) :
        u = t := by
      by_contra other
      rw [Function.update_of_ne other] at runs
      exact idle u runs
    exact (only u runs).trans (only v runs').symm

end Steps

variable [DecidableEq τ]

inductive Step : Scheduler τ ι → Scheduler τ ι → Prop where
  | create {s} (t p) (fresh : s.place t = none) : Step s (s.create t p fresh)
  | block {s} (t i) (runs : s.place t = some .running) : Step s (s.block t i runs)
  | wake {s} (t i) (waits : s.place t = some (.waiting i)) : Step s (s.arrive t (by simp [waits]))
  | preempt {s} (t) (runs : s.place t = some .running) : Step s (s.arrive t (by simp [runs]))
  | dispatch {s} (t ts) (first : s.ready = t :: ts) (idle : ∀ u, s.place u ≠ some .running) :
      Step s (s.dispatch t ts first idle)

end Scheduler

end Krypton
