import Krypton.Kernel.Nesting

/-! # What tasks and queues share

A sender, a receiver and `signal` communicate through the counter and the list of
a queue and through the signals a task waits for. Few statements write these.
-/

namespace Krypton

open LinkStore

/-- The next statement writes a queue, its messages or the signals a task waits for. -/
@[grind] def Frame.shares : Frame → Bool
  | .wait .setWaiting .. | .signal .clearWaiting .. | .createTask .init .. => true
  | .queueSend .link _ | .queueSend .count _ | .queueRecv .unlink _ | .queueRecv .count _ => true
  | .createQueue .init .. | .destroyQueue .clear .. => true
  | _ => false

/-- Nothing that is shared changes. -/
structure Unshared (k k' : Kernel) : Prop where
  queue : k'.queue = k.queue
  msgs : k'.msgs = k.msgs
  waiting : ∀ t, (k'.task t).sigs_waiting = (k.task t).sigs_waiting

variable {block : Ptr32} {k k' : Kernel} {f : Frame} {n : Next}

theorem setTask_waiting {task : Ptr32} {g : Task → Task}
    (same : ∀ t, (g t).sigs_waiting = t.sigs_waiting) : Unshared k (k.setTask task g) := by
  constructor
  · rfl
  · rfl
  · intro t
    by_cases here : t = task
    · subst here
      simp [Kernel.setTask, same]
    · simp [Kernel.setTask, here]

private theorem other_unshared (run : exec block k f = some (k', n)) (writes : f.requeues)
    (own : f.shares = false) : Unshared k k' := by
  cases f with
  | queueSend pc s =>
      cases pc with
      | clear | setData =>
          cases run
          exact ⟨rfl, rfl, fun _ => rfl⟩
      | copy =>
          obtain ⟨msg, -, same⟩ := Option.bind_eq_some_iff.mp run
          cases same
          exact ⟨rfl, rfl, fun _ => rfl⟩
      | link | count => cases own
      | _ => cases writes
  | queueRecv pc r =>
      cases pc with
      | copy =>
          simp only [exec, execRecv] at run
          split at run
          · obtain ⟨ptr, -, same⟩ := Option.bind_eq_some_iff.mp run
            cases same
            exact ⟨rfl, rfl, fun _ => rfl⟩
          · cases run
            exact ⟨rfl, rfl, fun _ => rfl⟩
      | unlink | count => cases own
      | _ => cases writes
  | keypressIsr pc =>
      cases pc with
      | read =>
          cases run
          exact ⟨rfl, rfl, fun _ => rfl⟩
      | _ => cases writes
  | createQueue pc => cases pc <;> first | (cases writes; done) | cases own
  | destroyQueue pc => cases pc <;> first | (cases writes; done) | cases own
  | _ => cases writes

private theorem task_unshared (run : exec block k f = some (k', n)) (writes : f.retasks)
    (own : f.shares = false) : Unshared k k' := by
  cases f with
  | wait pc | signal pc | delay pc | switchTasks pc =>
      cases pc <;> first
        | (cases writes; done)
        | (cases own; done)
        | (cases run; exact setTask_waiting fun _ => rfl)
  | createTask pc => cases pc <;> first | (cases writes; done) | cases own
  | timerCallback pc task =>
      cases pc with
      | count =>
          cases task with
          | node =>
              cases run
              exact setTask_waiting fun _ => rfl
          | _ => cases run
      | _ => cases writes
  | _ => cases writes

/-- The other statements leave queues, messages and waiting tasks alone. -/
theorem exec_unshared (run : exec block k f = some (k', n)) (own : f.shares = false) :
    Unshared k k' := by
  have eff := exec_effect run
  cases tasks : f.retasks with
  | true => exact task_unshared run tasks own
  | false =>
      cases queues : f.requeues with
      | true => exact other_unshared run queues own
      | false =>
          obtain ⟨queue, msgs, -⟩ := eff.queue queues
          exact ⟨queue, msgs, fun t => by rw [eff.task tasks]⟩

/-- The size and the owner of a queue are set when it is created. -/
theorem exec_owner (run : exec block k f = some (k', n)) (create : f.fn ≠ .create_queue)
    (destroy : f.fn ≠ .destroy_queue) (q : Ptr32) :
    (k'.queue q).max_slots = (k.queue q).max_slots ∧ (k'.queue q).owner = (k.queue q).owner := by
  have sized (queue : Ptr32) (free_slots : BitVec 32) :
      ((k.setQueue queue fun x => { x with free_slots }).queue q).max_slots =
          (k.queue q).max_slots ∧
        ((k.setQueue queue fun x => { x with free_slots }).queue q).owner = (k.queue q).owner := by
    by_cases here : q = queue
    · subst here
      simp [Kernel.setQueue]
    · simp [Kernel.setQueue, here]
  cases own : f.shares with
  | false =>
      rw [(exec_unshared run own).queue]
      exact ⟨rfl, rfl⟩
  | true =>
      cases f with
      | wait pc | signal pc | createTask pc =>
          cases pc <;> first | (cases own; done) | (cases run; exact ⟨rfl, rfl⟩)
      | queueSend pc s =>
          cases pc with
          | link =>
              obtain ⟨msgs, -, same⟩ := Option.bind_eq_some_iff.mp run
              cases same
              exact ⟨rfl, rfl⟩
          | count =>
              simp only [exec, execSend] at run
              split at run <;> cases run <;> exact sized s.queue _
          | _ => cases own
      | queueRecv pc r =>
          cases pc with
          | unlink =>
              simp only [exec, execRecv] at run
              split at run <;> cases run
              exact ⟨rfl, rfl⟩
          | count =>
              simp only [exec, execRecv] at run
              split at run <;> cases run <;> exact sized r.queue _
          | _ => cases own
      | createQueue => exact absurd rfl create
      | destroyQueue => exact absurd rfl destroy
      | _ => cases own

/-- Only the code of a task sets `keybd_queue`. -/
theorem exec_keybd (run : exec block k f = some (k', n)) : k'.keybd_queue = k.keybd_queue := by
  cases f with
  | permit pc => cases pc <;> grind [execPermit]
  | wait pc => cases pc <;> grind [execWait]
  | signal pc => cases pc <;> grind [execSignal]
  | delay pc => cases pc <;> grind [execDelay]
  | createTask pc => cases pc <;> grind [execCreateTask]
  | createQueue pc => cases pc <;> grind [execCreateQueue]
  | destroyQueue pc => cases pc <;> grind [execDestroyQueue]
  | queueSend pc => cases pc <;> grind [execSend]
  | queueRecv pc => cases pc <;> grind [execRecv]
  | registerDevice pc => cases pc <;> grind [execRegister]
  | getDevice pc dev_name aux => cases pc <;> cases aux <;> grind [execGetDevice]
  | trap pc call => cases pc <;> cases call <;> grind [execTrap]
  | irq pc n => cases pc <;> cases n <;> grind [execIrq]
  | switchTasks pc => cases pc <;> grind [execSwitch]
  | timerCallback pc task => cases pc <;> cases task <;> grind [execTimer]
  | keypressIsr pc => cases pc <;> grind [execKeypress]

end Krypton
