import Krypton.Kernel.Operations

/-! # Tasks that are destroyed

`destroy_task` unlinks a task and frees its memory. A task that is not running
is gone from its list with that, and nothing brings it back. The running one is
in no list: what `destroy_task` unlinks are the neighbours that it had once, and
`schedule` finds it ready and enqueues it.
-/

namespace Krypton

open LinkStore

/-- `destroy_task`, as far as the test for the running task. `tasks` no longer knows it. -/
def Kernel.destroyTask (k : Kernel) (task stack_end : Ptr32) : Option Kernel := do
  let k ← k.forbid.removeTask task
  let k := { k with live := Function.update (Function.update k.live stack_end false) task false
                    tasks := Function.update k.tasks task false }
  return k.permit

/-- The frames of the task are in the stack that is freed. -/
def Machine.destroyTask (m : Machine) (task stack_end : Ptr32) : Option Machine := do
  let k ← m.k.destroyTask task stack_end
  if task = m.k.running_task then return { m with k }.enter (.trap .enter .yield)
  return { m with k, ustack := Function.update m.ustack task [] }

namespace Destroy

open Operations

/-- What the machine does, and calls of `destroy_task` by the code of a task. -/
inductive Op where
  | event (e : Event)
  | destroyTask (task stack_end : Ptr32)

def step (m : Machine) : Op → Option Machine
  | .event e => m.step e
  | .destroyTask task stack_end => if m.inTask then m.destroyTask task stack_end else none

/-- The operations are orderly, and tasks are destroyed that exist. -/
def Admits (m : Machine) : Op → Prop
  | .event e => Ok m e
  | .destroyTask task _ => m.k.tasks task

/-- No task destroys itself. -/
def Spares (m : Machine) : Op → Prop
  | .event e => Ok m e
  | .destroyTask task _ => m.k.tasks task ∧ task ≠ m.k.running_task

/-- No task that was destroyed is linked or runs. -/
def Gone (k : Kernel) : Prop := ∃ seqs, Lists k.links k.Used seqs ∧ (∀ l, ∀ t ∈ seqs l, k.tasks t) ∧
  k.tasks k.running_task

variable {m m' : Machine} {k k' : Kernel} {seqs : TaskList → List Ptr32} {t stack_end : Ptr32}

/-- The task is linked, and its neighbours are those that it stores. -/
theorem destroyTask_spec (h : Placed k seqs .free .none) (known : k.tasks t)
    (other : t ≠ k.running_task)
    (stack_end : Ptr32) : ∃ links, k.destroyTask t stack_end = some ({ k.forbid.permit with
      links
      live := Function.update (Function.update k.live stack_end false) t false
      tasks := Function.update k.tasks t false }) ∧
    Placed { k with links, tasks := Function.update k.tasks t false }
        (fun l => (seqs l).erase t) .free .none := by
  obtain ⟨l, mem⟩ : ∃ l, t ∈ seqs l := by
    rcases h.somewhere t known with linked | moving | ⟨-, same⟩
    · exact linked
    · cases moving
    · exact absurd same other
  obtain ⟨xs, ys, cut⟩ := List.append_of_mem mem
  obtain ⟨links, removed, lists⟩ := remove_spec xs ys h.lists cut
  have cleared := h.lists.fresh_of_cut cut
  have erased := h.lists.erase_cut cut
  rw [← erased] at lists cleared
  have kept : ∀ {i u}, u ∈ (seqs i).erase t → u ≠ t ∧ u ∈ seqs i := by
    intro i u there
    refine ⟨?_, List.mem_of_mem_erase there⟩
    rintro rfl
    exact cleared i there
  refine ⟨links, ?_, lists, fun i u there => ?_, ?_, ?_, fun u there => ?_, fun i u there _ => ?_,
    ⟨fun i there => ?_, ?_⟩, trivial⟩
  · have same : k.forbid.links = k.links := rfl
    simp only [Kernel.destroyTask, Kernel.removeTask, same, removed]
    rfl
  · obtain ⟨u_other, old⟩ := kept there
    simpa [u_other] using h.known i u old
  · simpa [other.symm] using h.runs
  · exact h.ordered.sublist List.erase_sublist
  · have u_other : u ≠ t := by
      rintro rfl
      simp at there
    have old : k.tasks u := by simpa [u_other] using there
    rcases h.somewhere u old with ⟨i, linked⟩ | moving | free
    · exact .inl ⟨i, (List.mem_erase_of_ne u_other).mpr linked⟩
    · cases moving
    · exact .inr (.inr free)
  · exact h.flags i u (kept there).2 nofun
  · exact h.stands.1 i (kept there).2
  · exact h.stands.2

theorem destroy_eq (user : m.inTask) (known : m.k.tasks t) (other : t ≠ m.k.running_task)
    (placed : Placed m.k seqs .free .none) (stack_end : Ptr32) :
    ∃ k', step m (.destroyTask t stack_end) =
        some { m with k := k', ustack := Function.update m.ustack t [] } ∧
      Placed k' (fun l => (seqs l).erase t) .free .none ∧ k'.Used = m.k.Used ∧
      k'.running_task = m.k.running_task ∧ k'.k_reenter = m.k.k_reenter ∧
      k'.tasks = Function.update m.k.tasks t false := by
  obtain ⟨links, run, placed'⟩ := destroyTask_spec placed known other stack_end
  have eq : step m (.destroyTask t stack_end) = some { m with
      k := { m.k.forbid.permit with
        links
        live := Function.update (Function.update m.k.live stack_end false) t false
        tasks := Function.update m.k.tasks t false }
      ustack := Function.update m.ustack t [] } := by
    simp [step, if_pos user, Machine.destroyTask, run, other]
  exact ⟨_, eq, placed'.same rfl rfl rfl rfl (fun _ => rfl) rfl, used_eq rfl, rfl, rfl, rfl⟩

theorem destroy_inv (h : Inv m) (user : m.inTask) (known : m.k.tasks t)
    (other : t ≠ m.k.running_task)
    (run : step m (.destroyTask t stack_end) = some m') : Inv m' := by
  obtain ⟨seqs, placed⟩ := h.user user
  obtain ⟨k', eq, placed', -, -, level, -⟩ := destroy_eq user known other placed stack_end
  rw [eq] at run
  cases run
  have out := user.1
  have last : ∀ u, u ≠ t → Function.update m.ustack t [] u = m.ustack u :=
    fun u away => Function.update_of_ne away ..
  refine ⟨⟨?_, ?_, ?_⟩, ⟨?_, ?_, ?_, ?_⟩, ?_⟩
  · intro u f mem
    by_cases here : u = t
    · simp [here] at mem
    · exact h.nested.library u f (last u here ▸ mem)
  · rw [level]
    exact h.nested.reenter
  · exact h.nested.shape
  · exact h.still.kernel
  · exact h.still.rooted
  · exact h.still.below
  · intro u f mem
    have calm := h.still.behind u
    by_cases here : u = t
    · simp only [behind, Machine.current, here] at mem
      split at mem
      · next both => simp [← both.2] at mem
      · simp at mem
    · refine calm f ?_
      simp only [behind, Machine.current, last u here] at mem ⊢
      split at mem
      · next both =>
          rw [if_pos both, ← both.2]
          rwa [← both.2, last u here] at mem
      · next away =>
          rw [if_neg away]
          exact mem
  · refine user_located ⟨out, ?_⟩ placed'
    have current : m.ustack m.regs.stack = [] := user.2
    by_cases here : m.regs.stack = t
    · simp [Machine.current, here]
    · simp [Machine.current, here, current]

theorem spares_inv {op : Op} (h : Inv m) (spares : Spares m op) (run : step m op = some m') :
    Inv m' := by
  cases op with
  | event e => exact inv_step h spares run
  | destroyTask t stack_end =>
      by_cases user : m.inTask
      · exact destroy_inv h user spares.1 spares.2 run
      · simp [step, user] at run

/-- In runs in which no task destroys itself, nothing brings a destroyed task back, and each is
    taken out of the one list that it is in; all others stay where they are. -/
theorem destroy_removes {kernel_task : Ptr32}
    (reached : Runs.Reach step Spares (· = .boot kernel_task) m) :
    Gone m.k ∧ ∀ t stack_end, m.inTask → m.k.tasks t → t ≠ m.k.running_task →
      ∃ m' seqs, step m (.destroyTask t stack_end) = some m' ∧ m'.k.tasks t = false ∧
        Lists m.k.links m.k.Used seqs ∧ Lists m'.k.links m'.k.Used (fun l => (seqs l).erase t) ∧
        m'.k.Used = m.k.Used ∧ m'.k.running_task = m.k.running_task := by
  have h : Inv m := reached.invariant (fun _ same => same ▸ boot_inv kernel_task) fun _ _ _ =>
      spares_inv
  constructor
  · obtain ⟨seqs, s, -, placed⟩ := h.placed
    exact ⟨seqs, placed.lists, placed.known, placed.runs⟩
  · intro t stack_end user known other
    obtain ⟨seqs, placed⟩ := h.user user
    obtain ⟨k', eq, placed', used, runs, -, tasks⟩ := destroy_eq user known other placed stack_end
    refine ⟨_, seqs, eq, ?_, placed.lists, placed'.lists, used, runs⟩
    exact (congrFun tasks t).trans (Function.update_self ..)

instance (m : Machine) (e : Event) : Decidable (Ok m e) :=
  match e with
  | .stmt _ => inferInstanceAs (Decidable (∀ f ∈ top m, Orderly (aside m) m.k f))
  | .irq _ => instDecidableOr
  | .call _ | .compute _ | .store .. | .keybd _ => instDecidableTrue

instance (m : Machine) (op : Op) : Decidable (Admits m op) :=
  match op with
  | .event e => inferInstanceAs (Decidable (Ok m e))
  | .destroyTask t _ => inferInstanceAs (Decidable (m.k.tasks t = true))

instance (m : Machine) (op : Op) : Decidable (Spares m op) :=
  match op with
  | .event e => inferInstanceAs (Decidable (Ok m e))
  | .destroyTask _ _ => instDecidableAnd

/-- The kernel task creates the task 8, of a higher priority, which runs at its next yield. -/
def created : List Op :=
  [.event (.call (.createTask 1))] ++ List.replicate 8 (.event (.stmt 8)) ++
    List.replicate 14 (.event (.stmt 12)) ++
    [.event (.call .yield)] ++ List.replicate 14 (.event (.stmt 0))

/-- The task 8 destroys the kernel task, which is ready. -/
theorem destroy_removes_ready : ∃ m m' : Machine, ∃ seqs : TaskList → List Ptr32,
    Runs.run step (.boot 4) created = some m ∧ step m (.destroyTask 4 0) = some m' ∧
    m.k.running_task = 8 ∧ m'.k.tasks 4 = false ∧
    Lists m'.k.links m'.k.Used (fun l => (seqs l).erase 4) := by
  have meets : Runs.Meets step Spares (.boot 4) created := by decide +kernel
  have start : Runs.Reach step Spares (· = .boot 4) (.boot 4) := .start rfl
  obtain ⟨m, run, reached, ends⟩ := start.exists_of_run
    (p := fun m => m.inTask ∧ m.k.tasks 4 ∧ m.k.running_task = 8) meets (by decide +kernel)
  obtain ⟨user, known, runs⟩ := of_decide_eq_true ends
  have other : 4 ≠ m.k.running_task := by
    rw [runs]
    decide
  obtain ⟨m', seqs, eq, gone, -, lists, -⟩ := (destroy_removes reached).2 4 0 user known other
  exact ⟨m, m', seqs, run, eq, runs, gone, lists⟩

/-- A task that destroys itself is enqueued by the yield behind it, and goes on. -/
theorem destroyed_runs : ¬ ∀ m, Runs.Reach step Admits (· = .boot 4) m → m.inTask → Gone m.k := by
  intro all
  have meets : Runs.Meets step Admits (.boot 4)
      (created ++ [.destroyTask 8 12] ++ List.replicate 14 (.event (.stmt 0))) := by decide +kernel
  have start : Runs.Reach step Admits (· = .boot 4) (.boot 4) := .start rfl
  obtain ⟨m, -, reached, ends⟩ := start.exists_of_run
    (p := fun m => m.inTask ∧ m.k.running_task = 8 ∧ m.k.tasks 8 = false) meets (by decide +kernel)
  obtain ⟨user, runs, gone⟩ := of_decide_eq_true ends
  obtain ⟨seqs, -, -, known⟩ := all m reached user
  rw [runs, gone] at known
  cases known

end Destroy

end Krypton
