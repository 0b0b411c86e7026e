import Krypton.Kernel.Queues
import Krypton.Kernel.Placement

/-! # Operations that no interrupt breaks into

An interrupt comes while a task executes code of its own, or while the CPU is
halted. Then at most one function is moving a task, the one that is executed.
-/

namespace Krypton

open LinkStore

namespace Frame

/-- What the statements ahead of the frame rely on. -/
@[grind] def window : Frame → Window
  | .signal pc t _ => match pc with
      | .forbid | .setReady => .due t
      | .clearWaiting | .setRecvd | .remove => .waking t
      | .enqueue => .moving t
      | _ => .none
  | .createTask pc _ t => match pc with
      | .forbid | .enqueue => .moving t
      | _ => .none
  | .wait pc .. => match pc with
      | .lock | .enqueue => .cleared
      | _ => .none
  | .switchTasks pc _ t => match pc with
      | .remove => .picked t
      | .setRunning => .moving t
      | _ => .none
  | _ => .none

/-- `wait` has put the running task on a list, and goes on to the scheduler. -/
@[grind] def leaves : Frame → Bool
  | .wait .unlock .. | .wait .permit .. | .wait .lower .. | .wait .yield .. => true
  | _ => false

/-- The next statement puts `running_task` somewhere else. -/
@[grind] def displaces : Frame → Bool
  | .wait .enqueue .. | .trap .sched .. | .irq .sched .. | .switchTasks .setRunning .. => true
  | _ => false

end Frame

/-- The window that a statement leaves open. -/
def Next.window : Next → Window
  | .goto f | .call _ f => f.window
  | _ => .none

/-- What is asked of the next statement: a `signal` whose test succeeds finds a task that is
    linked (`running_task` is when it waits, or when it was put `aside` by the scheduler), a task
    waits on a list for that, a block from `kmalloc` is new, and a queue is destroyed when no
    task waits on it. -/
def Orderly (aside : Bool) (k : Kernel) : Frame → Prop
  | .signal pc t sigs => pc = .test → sigs ≠ 0 → (k.task t).sigs_waiting &&& sigs ≠ 0 →
      k.tasks t ∧ (t = k.running_task → (k.task t).ready → aside)
  | .wait pc _ list => pc = .enqueue → k.Used list ∧ list ≠ .tasks_ready
  | .createTask pc _ new_task => pc = .init → k.tasks new_task = false
  | .createQueue pc _ _ new_queue => pc = .init → k.queues new_queue = false
  | .destroyQueue pc queue =>
      pc = .clear → k.queues queue → get_head k.links (.waiters queue) = some .null
  | _ => True

instance (k : Kernel) (l : TaskList) : Decidable (k.Used l) :=
  match l with
  | .tasks_ready | .tasks_wait => instDecidableTrue
  | .waiters queue => inferInstanceAs (Decidable (k.queues queue = true))

instance (aside : Bool) (k : Kernel) (f : Frame) : Decidable (Orderly aside k f) :=
  match f with
  | .signal _ t _ =>
      inferInstanceAs (Decidable (_ → _ → _ → k.tasks t = true ∧ (_ → _ → aside = true)))
  | .wait _ _ list => inferInstanceAs (Decidable (_ → k.Used list ∧ _))
  | .createTask _ _ t => inferInstanceAs (Decidable (_ → k.tasks t = false))
  | .createQueue _ _ _ q => inferInstanceAs (Decidable (_ → k.queues q = false))
  | .destroyQueue _ q => inferInstanceAs (Decidable (_ → k.queues q = true → _))
  | .permit _ | .delay .. | .queueSend .. | .queueRecv .. | .registerDevice .. => instDecidableTrue
  | .getDevice .. => instDecidableTrue
  | .trap .. | .irq .. | .switchTasks .. | .timerCallback .. | .keypressIsr .. => instDecidableTrue

variable {block : Ptr32} {k k' : Kernel} {f : Frame} {n : Next} {aside : Bool}
variable {seqs : TaskList → List Ptr32} {s : Status} {w : Window}

/-- Only few functions write these. -/
theorem exec_static (run : exec block k f = some (k', n))
    (other : f.fn ∉ [.switch_tasks, .create_task, .create_queue, .destroy_queue]) :
    k'.running_task = k.running_task ∧ k'.tasks = k.tasks ∧ k'.queues = k.queues := by
  cases f with
  | permit pc => cases pc <;> grind [execPermit]
  | wait pc => cases pc <;> grind [execWait]
  | signal pc => cases pc <;> grind [execSignal]
  | delay pc => cases pc <;> grind [execDelay]
  | queueSend pc => cases pc <;> grind [execSend]
  | queueRecv pc => cases pc <;> grind [execRecv]
  | registerDevice pc => cases pc <;> grind [execRegister]
  | getDevice pc dev_name aux => cases pc <;> cases aux <;> grind [execGetDevice]
  | trap pc call => cases pc <;> cases call <;> grind [execTrap]
  | irq pc n => cases pc <;> cases n <;> grind [execIrq]
  | timerCallback pc task => cases pc <;> cases task <;> grind [execTimer]
  | keypressIsr pc => cases pc <;> grind [execKeypress]
  | switchTasks | createTask | createQueue | destroyQueue => simp [Frame.fn] at other

/-- The functions that move no task. -/
def Fn.still : Fn → Bool
  | .wait | .signal | .create_task | .create_queue | .destroy_queue | .switch_tasks => false
  | _ => true

theorem still_window (still : f.fn.still) : f.window = .none ∧ f.leaves = false := by
  cases f <;> first | exact ⟨rfl, rfl⟩ | cases still

/-- A function starts with nothing in its hands. -/
theorem callee_fresh {f' g : Frame} (run : exec block k f = some (k', .call f' g)) :
    g.window = .none ∧ g.leaves = false := by
  have calls := (exec_effect run).next.2.2.1
  cases f with
  | delay pc =>
      cases pc <;> cases run
      exact ⟨rfl, rfl⟩
  | queueSend pc => cases pc <;> grind [execSend]
  | queueRecv pc => cases pc <;> grind [execRecv]
  | trap pc call => cases pc <;> cases call <;> grind [execTrap]
  | irq pc n => cases pc <;> cases n <;> grind [execIrq]
  | timerCallback pc task => cases pc <;> cases task <;> grind [execTimer]
  | keypressIsr pc => cases pc <;> grind [execKeypress]
  | _ => simp [Frame.calls] at calls

/-- What calls or traps has nothing in its hands. -/
theorem caller_stops {f' : Frame} (run : exec block k f = some (k', n))
    (left : (∃ g, n = .call f' g) ∨ ∃ c, n = .int f' c) : f'.window = .none ∧
    f'.leaves = false := by
  have same : f'.fn = f.fn := by
    have belongs := (exec_effect run).next
    rcases left with ⟨g, rfl⟩ | ⟨c, rfl⟩ <;> exact belongs.1
  cases still : f.fn.still with
  | true => exact still_window (same ▸ still)
  | false =>
      cases f with
      | wait pc => cases pc <;> grind [execWait]
      | signal pc => cases pc <;> grind [execSignal]
      | createTask pc => cases pc <;> grind [execCreateTask]
      | createQueue pc => cases pc <;> grind [execCreateQueue]
      | destroyQueue pc => cases pc <;> grind [execDestroyQueue]
      | switchTasks pc => cases pc <;> grind [execSwitch]
      | _ => cases still

theorem goto_leaves {f' : Frame} (run : exec block k f = some (k', .goto f')) (leaves : f'.leaves) :
    f.leaves ∨ f.displaces := by
  have same := (exec_effect run).next.1
  cases f with
  | wait pc => cases pc <;> grind [execWait]
  | _ =>
      cases f' <;> first | cases leaves | simp [Frame.fn] at same

theorem still_placed (h : Placed k seqs s w) (still : f.fn.still) (stays : f.displaces = false)
    (run : exec block k f = some (k', n)) : Placed k' seqs s w := by
  have other : f.fn ∉ [.switch_tasks, .create_task, .create_queue, .destroy_queue] := by
    cases f <;> first | (simp [Frame.fn]; done) | cases still
  obtain ⟨running, tasks, queues⟩ := exec_static run other
  have eff := exec_effect run
  have links : f.relinks = false := by
    cases f with
    | trap pc | irq pc => cases pc <;> first | rfl | cases stays
    | _ => first | rfl | cases still
  cases writes : f.retasks with
  | false =>
      have task := eff.task writes
      exact h.same (eff.links links) running tasks queues (fun t => by rw [task])
          (by unfold Kernel.pri; rw [task])
  | true =>
      cases f with
      | delay pc =>
          cases pc with
          | set =>
              cases run
              exact h.setTask _ (fun _ => rfl) fun _ => rfl
          | _ => cases writes
      | timerCallback pc task =>
          cases pc with
          | count =>
              cases task with
              | node task =>
                  cases run
                  exact h.setTask _ (fun _ => rfl) fun _ => rfl
              | _ => cases run
          | _ => cases writes
      | _ => first | (cases still; done) | cases writes

theorem still_next (still : f.fn.still) (run : exec block k f = some (k', n)) :
    n.window = .none := by
  cases n with
  | goto f' =>
      have same : f'.fn = f.fn := (exec_effect run).next.1
      exact (still_window (same ▸ still)).1
  | call f' g => exact (callee_fresh run).1
  | _ => rfl

theorem signal_placed {pc : SignalPc} {t : Ptr32} {sigs : BitVec 32}
    (h : Placed k seqs s (.signal pc t sigs : Frame).window)
    (orderly : Orderly aside k (.signal pc t sigs)) (resigned : aside → s = .out)
    (unblocked : s ≠ .blocked) (run : exec block k (.signal pc t sigs) = some (k', n)) :
    ∃ seqs', Placed k' seqs' s n.window := by
  cases pc with
  | test =>
      simp only [exec, execSignal] at run
      split at run
      · rename_i passes
        cases run
        obtain ⟨task, other⟩ := orderly rfl passes.1 passes.2
        exact ⟨seqs, h.linked task fun same ready => resigned (other same ready)⟩
      · cases run
        exact ⟨seqs, h⟩
  | setReady =>
      cases run
      exact ⟨seqs, h.setReady unblocked⟩
  | clearWaiting | setRecvd =>
      cases run
      exact ⟨seqs, h.setTask t (fun _ => rfl) fun _ => rfl⟩
  | remove =>
      obtain ⟨k₁, removed, same⟩ := Option.bind_eq_some_iff.mp run
      cases same
      obtain ⟨l, xs, ys, -, placed⟩ := h.removed (.inl rfl) removed
      exact ⟨_, placed⟩
  | enqueue =>
      obtain ⟨k₁, entered, same⟩ := Option.bind_eq_some_iff.mp run
      cases same
      exact ⟨_, h.queued entered⟩
  | priTest =>
      simp only [exec, execSignal] at run
      split at run <;> cases run <;> exact ⟨seqs, h⟩
  | permit =>
      cases run
      unfold Kernel.past
      split <;> exact ⟨seqs, h⟩
  | forbid | lower | ret =>
      cases run
      exact ⟨seqs, h.same rfl rfl rfl rfl (fun _ => rfl) rfl⟩

theorem wait_placed {pc : WaitPc} {sigs : BitVec 32} {list : TaskList}
    (h : Placed k seqs .free (.wait pc sigs list : Frame).window)
    (stays : (.wait pc sigs list : Frame).displaces = false)
    (run : exec block k (.wait pc sigs list) = some (k', n)) :
    ∃ seqs', Placed k' seqs' .free n.window := by
  cases pc with
  | test =>
      simp only [exec, execWait] at run
      split at run <;> cases run <;> exact ⟨seqs, h⟩
  | setWaiting | clearRecvd =>
      cases run
      exact ⟨seqs, h.setTask _ (fun _ => rfl) fun _ => rfl⟩
  | clearReady =>
      cases run
      exact ⟨seqs, h.cleared⟩
  | enqueue => cases stays
  | permit =>
      cases run
      unfold Kernel.past
      split <;> exact ⟨seqs, h⟩
  | forbid | lock | unlock | lower | yield | ret =>
      cases run
      exact ⟨seqs, h.same rfl rfl rfl rfl (fun _ => rfl) rfl⟩

theorem newTask_ready (task_pri : Int) (t : Ptr32) : (newTask task_pri t).ready = true := by
  simp [ready_bit, newTask, TS_READY]

theorem create_placed {pc : CreateTaskPc} {task_pri : Int} {t : Ptr32}
    (h : Placed k seqs s (.createTask pc task_pri t : Frame).window)
    (orderly : Orderly aside k (.createTask pc task_pri t))
    (run : exec block k (.createTask pc task_pri t) = some (k', n)) :
    ∃ seqs', Placed k' seqs' s n.window := by
  cases pc with
  | init =>
      cases run
      exact ⟨seqs, h.created (orderly rfl) _ (newTask_ready task_pri t)⟩
  | enqueue =>
      obtain ⟨k₁, entered, same⟩ := Option.bind_eq_some_iff.mp run
      cases same
      exact ⟨_, h.queued entered⟩
  | permit =>
      cases run
      unfold Kernel.past
      split <;> exact ⟨seqs, h⟩
  | task | stack | forbid | lower | ret =>
      cases run
      exact ⟨seqs, h.same rfl rfl rfl rfl (fun _ => rfl) rfl⟩

theorem queue_placed {pc : CreateQueuePc} {max_slots elem_sz q : BitVec 32}
    (h : Placed k seqs s .none) (orderly : Orderly aside k (.createQueue pc max_slots elem_sz q))
    (run : exec block k (.createQueue pc max_slots elem_sz q) = some (k', n)) :
    Placed k' seqs s .none ∧ n.window = .none := by
  cases pc with
  | init =>
      cases run
      have dead : ¬ k.Used (.waiters q) := by
        intro used
        have queue : k.queues q = true := used
        rw [orderly rfl] at queue
        cases queue
      have opened := h.lists.opened (t := new_list (k.clearQueue q).links (.waiters q)) dead
        (by simp [new_list]) (by simp [new_list]) (by simp [new_list])
        (fun w head tail tailPrev => by simp [new_list, Kernel.clearQueue, head, tail, tailPrev])
      refine ⟨h.headers ?_ rfl rfl rfl, rfl⟩
      rw [used_opened (k := k) (q := q) rfl]
      exact opened
  | permit =>
      cases run
      unfold Kernel.past
      split <;> exact ⟨h, rfl⟩
  | forbid | alloc | lower | ret =>
      cases run
      exact ⟨h.same rfl rfl rfl rfl (fun _ => rfl) rfl, rfl⟩

theorem destroy_placed {pc : DestroyQueuePc} {q : Ptr32} (h : Placed k seqs s .none)
    (orderly : Orderly aside k (.destroyQueue pc q))
    (run : exec block k (.destroyQueue pc q) = some (k', n)) :
    Placed k' seqs s .none ∧ n.window = .none := by
  cases pc with
  | clear =>
      cases run
      have empty : seqs (.waiters q) = [] := by
        by_cases used : k.Used (.waiters q)
        · have head := get_head_eq (h.lists.each _ used)
          rw [orderly rfl used] at head
          cases list : seqs (.waiters q) with
          | nil => rfl
          | cons t ts =>
              rw [list] at head
              cases head
        · exact h.lists.unused _ used
      have closed := h.lists.closed (t := (k.clearQueue q).links) empty
        (fun w head tail tailPrev => by simp [Kernel.clearQueue, head, tail, tailPrev])
      refine ⟨h.headers ?_ rfl rfl rfl, rfl⟩
      rw [used_closed (k := k) (q := q) rfl]
      exact closed
  | permit =>
      cases run
      unfold Kernel.past
      split <;> exact ⟨h, rfl⟩
  | forbid | free | lower | ret =>
      cases run
      exact ⟨h.same rfl rfl rfl rfl (fun _ => rfl) rfl, rfl⟩

theorem switch_placed {pc : SwitchPc} {c : Context} {t : Ptr32}
    (h : Placed k seqs s (.switchTasks pc c t : Frame).window)
    (stays : (.switchTasks pc c t : Frame).displaces = false)
    (run : exec block k (.switchTasks pc c t) = some (k', n)) :
    ∃ seqs', Placed k' seqs' s n.window := by
  cases pc with
  | save =>
      cases run
      exact ⟨seqs, h.setTask _ (fun _ => ready_stop _ c) fun _ => rfl⟩
  | test =>
      simp only [exec, execSwitch] at run
      split at run
      · cases run
        exact ⟨seqs, h⟩
      · rename_i next head
        cases run
        exact ⟨seqs, h.picks head⟩
      · cases run
  | remove =>
      obtain ⟨k₁, removed, same⟩ := Option.bind_eq_some_iff.mp run
      cases same
      obtain ⟨l, xs, ys, -, placed⟩ := h.removed (.inr rfl) removed
      exact ⟨_, placed⟩
  | setRunning => cases stays
  | setRun =>
      cases run
      exact ⟨seqs, h.setTask _ (fun _ => ready_start _) fun _ => rfl⟩
  | restore =>
      cases run
      exact ⟨seqs, h⟩
  | halted => cases run
  | enable | hlt =>
      cases run
      exact ⟨seqs, h.same rfl rfl rfl rfl (fun _ => rfl) rfl⟩

/-- One statement, wherever `running_task` stays where it is. -/
theorem exec_placed (h : Placed k seqs s f.window) (orderly : Orderly aside k f)
    (resigned : aside → s = .out) (stays : f.displaces = false)
    (waits : f.fn = .wait → s = .free) (signals : f.fn = .signal → s ≠ .blocked)
    (run : exec block k f = some (k', n)) : ∃ seqs', Placed k' seqs' s n.window := by
  cases still : f.fn.still with
  | true =>
      rw [(still_window still).1] at h
      have next := still_next still run
      exact ⟨seqs, next ▸ still_placed h still stays run⟩
  | false =>
      cases f with
      | wait pc sigs list =>
          obtain rfl := waits rfl
          exact wait_placed h stays run
      | signal pc t sigs => exact signal_placed h orderly resigned (signals rfl) run
      | createTask pc task_pri t => exact create_placed h orderly run
      | createQueue pc max_slots elem_sz q =>
          obtain ⟨placed, next⟩ := queue_placed h orderly run
          exact ⟨seqs, next ▸ placed⟩
      | destroyQueue pc q =>
          obtain ⟨placed, next⟩ := destroy_placed h orderly run
          exact ⟨seqs, next ▸ placed⟩
      | switchTasks pc c t => exact switch_placed h stays run
      | _ => cases still

theorem tests_sched (tests : f.tests) (run : exec block k f = some (k', n)) :
    ∃ f' c, execSched k f' c = some (k', n) := by
  cases f with
  | trap pc call c => cases pc <;> first | exact ⟨_, _, run⟩ | cases tests
  | irq pc i c => cases pc <;> first | exact ⟨_, _, run⟩ | cases tests
  | _ => cases tests

/-- The end of a handler, where it may call `switch_tasks`. -/
theorem tests_placed (h : Placed k seqs s .none) (tests : f.tests)
    (held : s ≠ .out ∨ 0 < k.k_reenter)
    (run : exec block k f = some (k', n)) :
    (∃ f', n = .goto f' ∧ k' = k) ∨
      ∃ f' c seqs', n = .call f' (.switchTasks .save c 0) ∧ Placed k' seqs' .out .none := by
  obtain ⟨f', c, run⟩ := tests_sched tests run
  unfold execSched at run
  split at run
  · obtain ⟨⟨k₁, switch⟩, scheduled, same⟩ := Option.bind_eq_some_iff.mp run
    cases switch with
    | false =>
        cases same
        have kept := (schedule_spec scheduled).1 rfl
        exact .inl ⟨f', rfl, kept⟩
    | true =>
        cases same
        obtain ⟨-, low, -⟩ := (schedule_spec scheduled).2 rfl
        obtain ⟨seqs', placed⟩ := h.scheduled (held.resolve_right (by omega)) scheduled
        exact .inr ⟨f', c, seqs', rfl, placed⟩
  · cases run
    exact .inl ⟨f', rfl, rfl⟩

end Krypton
