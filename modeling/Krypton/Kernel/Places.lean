import Krypton.Kernel.Operations

/-! # The places of the tasks between operations

With the lists and flags as `Placed` has them, every task is found where its
flag says whenever no function is moving one. What it takes is that `signal`
unlinks only tasks that are linked: bits of an earlier wait that are still set
in `sigs_waiting` let it pass its test for the running task too, which is in no
list.
-/

namespace Krypton

open LinkStore

namespace Operations

variable {m m' : Machine} {e : Event} {f g : Frame} {rest : List Frame}
variable {k k' : Kernel} {n : Next} {block : Ptr32}

/-! ## The idle loop -/

/-- `switch_tasks` has found no task. -/
def idles : Frame → Bool
  | .switchTasks .enable .. | .switchTasks .hlt .. | .switchTasks .halted .. => true
  | _ => false

theorem idles_switch (h : idles f) : f.isSwitch := by
  cases f <;> first | rfl | cases h

/-- No task is ready while the CPU idles. -/
def Idle (m : Machine) : Prop := ∀ f ∈ m.kstack, idles f →
    get_head m.k.links .tasks_ready = some .null

theorem idles_deliver (v : Value) : idles (f.deliver v) = idles f := by
  unfold Frame.deliver
  split <;> rfl

theorem idles_plain (plain : f.isSwitch = false) : idles f = false := by
  cases idle : idles f with
  | false => rfl
  | true =>
      rw [idles_switch idle] at plain
      cases plain

theorem called_idles {f' : Frame} (run : exec block k f = some (k', .call f' g)) :
    idles g = false := by
  cases switch : g.isSwitch with
  | false => exact idles_plain switch
  | true =>
      have tests := ((exec_effect run).switch f' g rfl switch).1
      obtain ⟨h, c, sched⟩ := tests_sched tests run
      rcases sched_spec sched with ⟨goto, -⟩ | ⟨called, -⟩
      · cases goto
      · cases called
        rfl

/-- Only `switch_tasks` goes into the idle loop, when it has seen that no task is ready. -/
theorem idle_exec (old : idles f → get_head k.links .tasks_ready = some .null)
    (run : exec block k f = some (k', n)) :
    ∀ g ∈ n.frames, idles g → get_head k'.links .tasks_ready = some .null := by
  have belongs := (exec_effect run).next
  cases switch : f.isSwitch with
  | true =>
      cases f with
      | switchTasks pc c t =>
          cases pc with
          | test =>
              simp only [exec, execSwitch] at run
              split at run <;> cases run
              · exact fun _ _ _ => ‹_›
              · simp [Next.frames, idles]
          | enable | hlt =>
              cases run
              exact fun _ _ _ => old rfl
          | halted => cases run
          | remove =>
              obtain ⟨k₁, -, both⟩ := Option.bind_eq_some_iff.mp run
              cases both
              simp [Next.frames, idles]
          | setRunning =>
              obtain ⟨-, rfl⟩ := setRunning_spec run
              simp [Next.frames, idles]
          | save | setRun | restore =>
              cases run
              simp [Next.frames, idles]
      | _ => cases switch
  | false =>
      have same : ∀ f' : Frame, f'.fn = f.fn → idles f' = false := by
        intro f' fn
        exact idles_plain ((same_isSwitch fn).trans switch)
      intro g mem idle
      refine absurd idle ?_
      rw [Bool.not_eq_true]
      cases n with
      | goto f' | int f' c | write f' b =>
          cases List.mem_singleton.mp mem
          exact same _ belongs.1
      | call f' h =>
          simp only [Next.frames, List.mem_cons, List.not_mem_nil, or_false] at mem
          rcases mem with rfl | rfl
          · exact called_idles run
          · exact same _ belongs.1
      | ret v | iret regs => cases mem

/-- A handler runs above the idle loop when an interrupt has ended the `hlt`. -/
theorem below_test (h : Inv m) (stack : m.kstack = f :: rest) :
    ∀ g ∈ rest, g.isSwitch = false ∨ ∃ c t, g = .switchTasks .test c t := by
  obtain ⟨seqs, s, fits, -⟩ := h.placed
  have rooted := h.still.rooted
  have entry : ∀ e, m.kstack.getLast? = some e → e.isSwitch = false :=
    fun e last => entry_plain (rooted e last)
  rw [stack] at entry
  cases fits with
  | task out | leaves out => simp [stack] at out
  | yields pc r inside =>
      obtain ⟨-, rfl⟩ := List.cons.inj (stack.symm.trans inside)
      simp
  | handler inside plain => exact fun g mem => .inl (plain g (by simp [stack, mem]))
  | switching fs pc c t e inside before idle plain =>
      cases fs with
      | nil =>
          obtain ⟨-, rfl⟩ := List.cons.inj (stack.symm.trans inside)
          simpa using .inl (entry e (by simp))
      | cons h hs =>
          rw [List.cons_append] at inside
          obtain ⟨-, rfl⟩ := List.cons.inj (stack.symm.trans inside)
          obtain rfl := idle (List.cons_ne_nil _ _)
          intro g mem
          simp only [List.mem_append, List.mem_cons, List.not_mem_nil, or_false] at mem
          rcases mem with above | rfl | rfl
          · exact .inl (plain g (List.mem_cons_of_mem _ above))
          · exact .inr ⟨c, t, rfl⟩
          · exact .inl (entry g (by simp [List.getLast?_cons]))
  | switched pc c t e inside =>
      obtain ⟨-, rfl⟩ := List.cons.inj (stack.symm.trans inside)
      simpa using .inl (entry e (by simp))

theorem below_idles (h : Inv m) (stack : m.kstack = f :: rest) : ∀ g ∈ rest, idles g = false := by
  intro g mem
  rcases below_test h stack g mem with plain | ⟨c, t, rfl⟩
  · exact idles_plain plain
  · rfl

theorem idle_none (none : ∀ f ∈ m.kstack, idles f = false) : Idle m := by
  intro f mem idle
  rw [none f mem] at idle
  cases idle

theorem idle_step (h : Inv m) (idle : Idle m) (ok : Ok m e) (step : m.step e = some m') :
    Idle m' := by
  cases stepped_of_step step with
  | kernel stack run after =>
      obtain ⟨intr, same⟩ := afterKernel_k after
      have links : m'.k.links = _ := congrArg Kernel.links same
      have below := below_idles h stack
      have first := idle_exec (idle _ (by simp [stack])) run
      unfold Idle
      rw [links]
      refine kernel_frames (fun v f _ => ?_) (fun g mem asleep => ?_) first
          (fun _ _ _ _ idle => by cases idle) after
      · rw [idles_deliver]
        exact id
      · rw [below g mem] at asleep
        cases asleep
  | @task f rest block k n _ out stack run after =>
      refine idle_none ?_
      cases n <;> cases after <;> simp [Machine.enter, out, idles]
  | irq on unmasked =>
      refine idle_none ?_
      cases stack : m.kstack with
      | nil => simp [Machine.enter, idles]
      | cons f rest =>
          have stop : halted f := by simpa [Ok, Machine.inTask, stack] using ok
          have woken : idles f.wake = false := by
            cases f with
            | switchTasks pc => cases pc <;> first | rfl | cases stop
            | _ => cases stop
          have below := below_idles h stack
          simpa [Machine.enter, stack, woken] using ⟨rfl, below⟩
  | call user c =>
      refine idle_none ?_
      cases c <;> simp [Machine.call, Machine.enter, user.1, idles]
  | compute user others => exact idle
  | store user dest byte => exact idle
  | keybd user queue => exact idle

/-! ## Between the operations -/

/-- What the callers promise: that tasks wait on lists for that, and signal tasks that exist. -/
def Aimed (k : Kernel) : Frame → Prop
  | .signal pc t _ => pc = .test → k.tasks t
  | f => Orderly false k f

/-- A signal that passes its test finds a task that is linked: not the running one, if that is
    ready and `schedule` has not put it aside. -/
def Wakes (aside : Bool) (k : Kernel) : Frame → Prop
  | .signal pc t sigs => pc = .test → sigs ≠ 0 → (k.task t).sigs_waiting &&& sigs ≠ 0 →
      t = k.running_task → (k.task t).ready → aside
  | _ => True

theorem orderly_of {aside : Bool} (aimed : Aimed k f) (wakes : Wakes aside k f) :
    Orderly aside k f := by
  cases f with
  | signal pc t sigs => exact fun test some waits => ⟨aimed test, wakes test some waits⟩
  | _ => exact aimed

/-- Every operation runs to its next yield. -/
def Lawful (m : Machine) : Event → Prop
  | .stmt _ => ∀ f ∈ top m, Aimed m.k f
  | .irq _ => m.inTask ∨ m.kstack.head?.any halted
  | _ => True

/-- The signals of the machine's next statement. -/
def Sound (m : Machine) : Event → Prop
  | .stmt _ => ∀ f ∈ top m, Wakes (aside m) m.k f
  | _ => True

theorem ok_of (lawful : Lawful m e) (sound : Sound m e) : Ok m e := by
  cases e with
  | stmt block => exact fun f here => orderly_of (lawful f here) (sound f here)
  | irq n => exact lawful
  | _ => trivial

instance (k : Kernel) (f : Frame) : Decidable (Aimed k f) :=
  match f with
  | .signal _ t _ => inferInstanceAs (Decidable (_ → k.tasks t = true))
  | .wait pc sigs list => inferInstanceAs (Decidable (Orderly false k (.wait pc sigs list)))
  | .createTask pc pri t => inferInstanceAs (Decidable (Orderly false k (.createTask pc pri t)))
  | .createQueue pc n size q =>
      inferInstanceAs (Decidable (Orderly false k (.createQueue pc n size q)))
  | .destroyQueue pc q => inferInstanceAs (Decidable (Orderly false k (.destroyQueue pc q)))
  | .permit _ | .delay .. | .queueSend .. | .queueRecv .. | .registerDevice .. => instDecidableTrue
  | .getDevice .. => instDecidableTrue
  | .trap .. | .irq .. | .switchTasks .. | .timerCallback .. | .keypressIsr .. => instDecidableTrue

instance (aside : Bool) (k : Kernel) (f : Frame) : Decidable (Wakes aside k f) :=
  match f with
  | .signal .. => inferInstanceAs (Decidable (_ → _ → _ → _ → _ → aside = true))
  | .wait .. | .createTask .. | .createQueue .. | .destroyQueue .. => instDecidableTrue
  | .permit _ => instDecidableTrue
  | .delay .. | .queueSend .. | .queueRecv .. | .registerDevice .. | .getDevice .. =>
      instDecidableTrue
  | .trap .. | .irq .. | .switchTasks .. | .timerCallback .. | .keypressIsr .. => instDecidableTrue

instance (m : Machine) (e : Event) : Decidable (Lawful m e) :=
  match e with
  | .stmt _ => inferInstanceAs (Decidable (∀ f ∈ top m, Aimed m.k f))
  | .irq _ => instDecidableOr
  | .call _ | .compute _ | .store .. | .keybd _ => instDecidableTrue

instance (m : Machine) (e : Event) : Decidable (Sound m e) :=
  match e with
  | .stmt _ => inferInstanceAs (Decidable (∀ f ∈ top m, Wakes (aside m) m.k f))
  | .irq _ | .call _ | .compute _ | .store .. | .keybd _ => instDecidableTrue

/-- No function has a task in its hands, and no task is being switched to. -/
structure Settled (m : Machine) : Prop where
  hands : hands m = .none
  switch : ∀ f ∈ m.kstack, f.isSwitch → idles f

/-- Every task has its place. -/
structure InPlace (k : Kernel) (seqs : TaskList → List Ptr32) : Prop where
  lists : Lists k.links k.Used seqs
  one : ∀ t, k.tasks t → t ≠ k.running_task → ∃! l, t ∈ seqs l
  flag : ∀ t, k.tasks t → t ≠ k.running_task → (t ∈ seqs .tasks_ready ↔ (k.task t).ready)
  running : (k.task k.running_task).ready → ∀ l, k.running_task ∉ seqs l

theorem placed_inPlace {seqs : TaskList → List Ptr32} {s : Status} (h : Placed k seqs s .none)
    (others : ∀ t, k.tasks t → t ≠ k.running_task → ∃ l, t ∈ seqs l)
    (running : (k.task k.running_task).ready → ∀ l, k.running_task ∉ seqs l) : InPlace k seqs := by
  refine ⟨h.lists, fun t known other => ?_, fun t known other => ?_, running⟩
  · obtain ⟨l, mem⟩ := others t known other
    exact ⟨l, mem, fun i there => h.lists.unique there mem⟩
  · obtain ⟨l, mem⟩ := others t known other
    have flag := h.flags l t mem nofun
    constructor
    · intro there
      exact (h.flags _ t there nofun).mpr rfl
    · intro ready
      exact flag.mp ready ▸ mem

theorem settled_inPlace (h : Inv m) (idle : Idle m) (settled : Settled m) :
    ∃ seqs, InPlace m.k seqs := by
  obtain ⟨seqs, s, fits, placed⟩ := h.placed
  rw [settled.hands] at placed
  refine ⟨seqs, ?_⟩
  cases s with
  | free =>
      refine placed_inPlace placed (fun t known other => ?_) fun _ => placed.stands.1
      rcases placed.somewhere t known with linked | moving | ⟨-, same⟩
      · exact linked
      · cases moving
      · exact absurd same other
  | blocked =>
      have asleep : (m.k.task m.k.running_task).ready = false := placed.stands
      refine placed_inPlace placed (fun t known _ => ?_) fun ready => ?_
      · rcases placed.somewhere t known with linked | moving | ⟨free, -⟩
        · exact linked
        · cases moving
        · cases free
      · rw [asleep] at ready
        cases ready
  | out =>
      have linked : ∀ t, m.k.tasks t → ∃ l, t ∈ seqs l := by
        intro t known
        rcases placed.somewhere t known with linked | moving | ⟨free, -⟩
        · exact linked
        · cases moving
        · cases free
      cases fits with
      | switching fs pc c t e inside =>
          -- the CPU idles, so that no task is ready, nor is the one that ran last
          have mem : Frame.switchTasks pc c t ∈ m.kstack := by simp [inside]
          have none := idle _ mem (settled.switch _ mem rfl)
          rw [get_head_eq (placed.lists.each .tasks_ready trivial)] at none
          have empty : seqs .tasks_ready = [] := by
            cases list : seqs .tasks_ready with
            | nil => rfl
            | cons u us => simp [list] at none
          refine placed_inPlace placed (fun t known _ => linked t known) fun ready => ?_
          obtain ⟨l, here⟩ := linked _ placed.runs
          have first := (placed.flags l _ here nofun).mp ready
          rw [first, empty] at here
          cases here

/-- Between the operations every task is in its place, in runs in which the running task is not
    signalled while it is ready: bits of an earlier wait that are still set would let `signal`
    move it. -/
theorem operations_in_place {kernel_task : Ptr32} (reached :
    Runs.Reach Machine.step (fun m e => Lawful m e ∧ Sound m e) (· = .boot kernel_task) m)
    (settled : Settled m) : ∃ seqs, InPlace m.k seqs := by
  have kept : Inv m ∧ Idle m := by
    refine reached.invariant (I := fun m => Inv m ∧ Idle m) ?_ ?_
    · rintro m rfl
      exact ⟨boot_inv kernel_task, by simp [Idle, Machine.boot]⟩
    · rintro m e m' ⟨h, idle⟩ ⟨lawful, sound⟩ step
      have ok := ok_of lawful sound
      exact ⟨inv_step h ok step, idle_step h idle ok step⟩
  exact settled_inPlace kept.1 kept.2 settled

theorem user_settled (user : m.inTask) : Settled m := by
  refine ⟨?_, by simp [user.1]⟩
  have last : m.current = [] := user.2
  simp [hands, top, user.1, last]

/-- The kernel task creates the task 8, of a higher priority, which waits for two signals. -/
def waiting : List Event :=
  [.call (.createTask 1)] ++ List.replicate 8 (.stmt 8) ++ List.replicate 14 (.stmt 12) ++
    [.call .yield] ++ List.replicate 14 (.stmt 0) ++
    [.call (.wait 3 .tasks_wait)] ++ List.replicate 25 (.stmt 0)

/-- It gets one of them and sends itself the other. -/
def woken : List Event :=
  waiting ++ [.call (.signal 8 1)] ++ List.replicate 25 (.stmt 0) ++
    [.call (.signal 8 2)] ++ List.replicate 25 (.stmt 0)

theorem operations_in_place_waiting : ∃ m : Machine, ∃ seqs,
    Runs.run Machine.step (.boot 4) waiting = some m ∧
    m.k.running_task = 4 ∧ m.k.tasks 8 = true ∧ InPlace m.k seqs := by
  have meets : Runs.Meets Machine.step (fun m e => Lawful m e ∧ Sound m e)
      (.boot 4) waiting := by decide +kernel
  have start : Runs.Reach Machine.step (fun m e => Lawful m e ∧ Sound m e) (· = .boot 4)
      (.boot 4) := .start rfl
  obtain ⟨m, run, reached, ends⟩ := start.exists_of_run
    (p := fun m => m.inTask ∧ m.k.running_task = 4 ∧ m.k.tasks 8) meets (by decide +kernel)
  obtain ⟨user, runs, known⟩ := of_decide_eq_true ends
  obtain ⟨seqs, placed⟩ := operations_in_place reached (user_settled user)
  exact ⟨m, seqs, run, runs, known, placed⟩

/-- A task that runs is linked in `tasks_ready`. -/
theorem woken_out_of_place : ¬ ∀ m, Runs.Reach Machine.step Lawful (· = .boot 4) m → Settled m →
    ∃ seqs, InPlace m.k seqs := by
  intro all
  have meets : Runs.Meets Machine.step Lawful (.boot 4) woken := by decide +kernel
  have start : Runs.Reach Machine.step Lawful (· = .boot 4) (.boot 4) := .start rfl
  obtain ⟨m, -, reached, ends⟩ := start.exists_of_run
    (p := fun m => m.inTask ∧ m.k.running_task = 8 ∧ (m.k.task 8).ready ∧
      get_head m.k.links .tasks_ready = some (.node 8)) meets (by decide +kernel)
  obtain ⟨user, runs, ready, head⟩ := of_decide_eq_true ends
  obtain ⟨seqs, placed⟩ := all m reached (user_settled user)
  have first := get_head_eq (placed.lists.each .tasks_ready trivial)
  have out := placed.running (runs ▸ ready) .tasks_ready
  rw [head] at first
  cases list : seqs .tasks_ready with
  | nil =>
      rw [list] at first
      cases first
  | cons u us =>
      rw [list] at first out
      cases first
      exact out (runs ▸ List.mem_cons_self)

end Operations

end Krypton
