import Krypton.Kernel.Machine

/-! # What a statement can do

The call graph of the kernel, and for every global that the scheduler reads the
statements that write it. Later modules take these facts instead of unfolding
the functions.
-/

namespace Krypton

open LinkStore

/-- The functions that have frames. -/
inductive Fn where
  | permit | wait | signal | delay | create_task
  | create_queue | destroy_queue | queue_send | queue_recv
  | register_device_node | get_device
  | idt_handler | irq_handler | switch_tasks | timer_callback | keypress_isr
  deriving DecidableEq

namespace Frame

@[grind] def fn : Frame → Fn
  | .permit .. => .permit
  | .wait .. => .wait
  | .signal .. => .signal
  | .delay .. => .delay
  | .createTask .. => .create_task
  | .createQueue .. => .create_queue
  | .destroyQueue .. => .destroy_queue
  | .queueSend .. => .queue_send
  | .queueRecv .. => .queue_recv
  | .registerDevice .. => .register_device_node
  | .getDevice .. => .get_device
  | .trap .. => .idt_handler
  | .irq .. => .irq_handler
  | .switchTasks .. => .switch_tasks
  | .timerCallback .. => .timer_callback
  | .keypressIsr .. => .keypress_isr

/-- An activation of `idt_handler` or `irq_handler`. -/
@[grind] def isEntry (f : Frame) : Bool := f.fn = .idt_handler ∨ f.fn = .irq_handler

@[grind] def isSwitch (f : Frame) : Bool := f.fn = .switch_tasks

/-- The function of the frame calls that of the other. -/
def calls : Frame → Frame → Bool
  | .delay .., .wait .. => true
  | .queueSend .., .wait .. | .queueSend .., .signal .. => true
  | .queueRecv .., .wait .. | .queueRecv .., .signal .. => true
  | .trap .., .switchTasks .. => true
  | .irq .., .timerCallback .. | .irq .., .keypressIsr .. | .irq .., .switchTasks .. => true
  | .timerCallback .., .signal .. => true
  | .keypressIsr .., .queueSend .. => true
  | _, _ => false

@[simp, grind =] theorem delay_calls {pc ticks pc' sigs list} :
    (delay pc ticks).calls (wait pc' sigs list) = true := rfl

@[simp, grind =] theorem send_calls_wait {pc s pc' sigs list} :
    (queueSend pc s).calls (wait pc' sigs list) = true := rfl

@[simp, grind =] theorem send_calls_signal {pc s pc' task sigs} :
    (queueSend pc s).calls (signal pc' task sigs) = true := rfl

@[simp, grind =] theorem recv_calls_wait {pc r pc' sigs list} :
    (queueRecv pc r).calls (wait pc' sigs list) = true := rfl

@[simp, grind =] theorem recv_calls_signal {pc r pc' task sigs} :
    (queueRecv pc r).calls (signal pc' task sigs) = true := rfl

@[simp, grind =] theorem trap_calls {pc call regs pc' cpu_context next_task} :
    (trap pc call regs).calls (switchTasks pc' cpu_context next_task) = true := rfl

@[simp, grind =] theorem irq_calls_switch {pc n regs pc' cpu_context next_task} :
    (irq pc n regs).calls (switchTasks pc' cpu_context next_task) = true := rfl

@[simp, grind =] theorem irq_calls_timer {pc n regs pc' tasks_waiting} :
    (irq pc n regs).calls (timerCallback pc' tasks_waiting) = true := rfl

@[simp, grind =] theorem irq_calls_keypress {pc n regs pc' scancode} :
    (irq pc n regs).calls (keypressIsr pc' scancode) = true := rfl

@[simp, grind =] theorem timer_calls {pc tasks_waiting pc' task sigs} :
    (timerCallback pc tasks_waiting).calls (signal pc' task sigs) = true := rfl

@[simp, grind =] theorem keypress_calls {pc scancode pc' s} :
    (keypressIsr pc scancode).calls (queueSend pc' s) = true := rfl

/-- The function of the frame makes system calls. -/
@[grind] def traps : Frame → Bool
  | .wait .. | .signal .. | .createTask .. | .createQueue .. | .destroyQueue .. => true
  | .queueSend .. | .queueRecv .. => true
  | _ => false

/-- The next statement is `forbid()`. -/
@[grind] def forbids : Frame → Bool
  | .wait .forbid .. | .signal .forbid .. | .delay .forbid .. | .createTask .forbid .. => true
  | .createQueue .forbid .. | .destroyQueue .forbid .. => true
  | .queueSend .forbid .. | .queueSend .reforbid .. => true
  | .queueRecv .forbid .. | .queueRecv .reforbid .. => true
  | .registerDevice .forbid .. | .getDevice .forbid .. => true
  | _ => false

/-- The next statement is the test of `permit()`. -/
@[grind] def permits : Frame → Bool
  | .permit .test | .wait .permit .. | .signal .permit .. | .delay .permit .. => true
  | .createTask .permit .. | .createQueue .permit .. | .destroyQueue .permit .. => true
  | .queueSend .permit .. | .queueRecv .permit .. => true
  | .registerDevice .permit .. | .getDevice .permit .. => true
  | _ => false

/-- The next statement is the decrement of `permit()`. -/
@[grind] def lowers : Frame → Bool
  | .permit .lower | .wait .lower .. | .signal .lower .. | .delay .lower .. => true
  | .createTask .lower .. | .createQueue .lower .. | .destroyQueue .lower .. => true
  | .queueSend .lower .. | .queueRecv .lower .. => true
  | .registerDevice .lower .. | .getDevice .lower .. => true
  | _ => false

/-- The next statement asks for the scheduler. -/
@[grind] def needs : Frame → Bool
  | .timerCallback .need .. | .trap .body .yield .. => true
  | _ => false

/-- The next statement tests `sched_state`. -/
@[grind] def tests : Frame → Bool
  | .trap .sched .. | .irq .sched .. => true
  | _ => false

end Frame

namespace Frame

/-- What a handler returns to. -/
@[grind] def context : Frame → Option Context
  | .trap _ _ regs | .irq _ _ regs => some regs
  | .permit _ | .wait .. | .signal .. | .delay .. | .createTask .. | .createQueue .. => none
  | .destroyQueue .. => none
  | .queueSend .. | .queueRecv .. | .registerDevice .. | .getDevice .. => none
  | .switchTasks .. | .timerCallback .. | .keypressIsr .. => none

/-- A handler that is counted in `k_reenter`. -/
@[grind] def active : Frame → Bool
  | .trap pc .. => match pc with | .enter | .iret => false | _ => true
  | .irq pc .. => match pc with | .enter | .iret => false | _ => true
  | .permit _ | .wait .. | .signal .. | .delay .. | .createTask .. | .createQueue .. => false
  | .destroyQueue .. => false
  | .queueSend .. | .queueRecv .. | .registerDevice .. | .getDevice .. => false
  | .switchTasks .. | .timerCallback .. | .keypressIsr .. => false

/-- Interrupts are off before the next statement, wherever the frame stands. -/
@[grind] def closed : Frame → Bool
  | .trap pc .. => match pc with | .enter | .sched => true | _ => false
  | .irq pc .. => match pc with | .enter | .sched => true | _ => false
  | .switchTasks pc .. => match pc with | .save => true | _ => false
  | .permit _ | .wait .. | .signal .. | .delay .. | .createTask .. | .createQueue .. => false
  | .destroyQueue .. => false
  | .queueSend .. | .queueRecv .. | .registerDevice .. | .getDevice .. => false
  | .timerCallback .. | .keypressIsr .. => false

/-- The handler has left: only its `iret` is to come. -/
@[grind] def leaving : Frame → Bool
  | .trap pc .. => match pc with | .iret => true | _ => false
  | .irq pc .. => match pc with | .iret => true | _ => false
  | .permit _ | .wait .. | .signal .. | .delay .. | .createTask .. | .createQueue .. => false
  | .destroyQueue .. => false
  | .queueSend .. | .queueRecv .. | .registerDevice .. | .getDevice .. => false
  | .switchTasks .. | .timerCallback .. | .keypressIsr .. => false

/-- The handler has not yet tested `sched_state`. -/
@[grind] def untested : Frame → Bool
  | .trap pc .. => match pc with | .leave | .iret => false | _ => true
  | .irq pc .. => match pc with | .eoi | .leave | .iret => false | _ => true
  | .permit _ | .wait .. | .signal .. | .delay .. | .createTask .. | .createQueue .. => false
  | .destroyQueue .. => false
  | .queueSend .. | .queueRecv .. | .registerDevice .. | .getDevice .. => false
  | .switchTasks .. | .timerCallback .. | .keypressIsr .. => false

/-- The frame is between a `forbid()` and its `permit()`. -/
@[grind] def holds : Frame → Bool
  | .permit _ => true
  | .wait pc .. => match pc with | .test | .forbid | .yield | .ret => false | _ => true
  | .signal pc .. => match pc with | .test | .forbid | .priTest | .ret => false | _ => true
  | .delay pc .. => match pc with | .set | .permit | .lower => true | _ => false
  | .createTask pc .. => match pc with | .enqueue | .permit | .lower => true | _ => false
  | .createQueue pc .. => match pc with | .forbid | .ret => false | _ => true
  | .destroyQueue pc .. => match pc with | .forbid | .ret => false | _ => true
  | .queueSend pc _ =>
      match pc with | .forbid | .reforbid | .mode | .wait | .ret => false | _ => true
  | .queueRecv pc _ =>
      match pc with | .forbid | .reforbid | .mode | .wait | .ret => false | _ => true
  | .registerDevice pc _ => match pc with | .forbid | .ret => false | _ => true
  | .getDevice pc .. => match pc with | .forbid | .ret => false | _ => true
  | _ => false

end Frame

/-- The frames that take the place of the one that executed the statement. -/
@[grind] def Next.frames : Next → List Frame
  | .goto f | .int f _ | .write f _ => [f]
  | .call f callee => [callee, f]
  | .ret _ | .iret _ => []

/-- What a statement leaves belongs to the frame that executed it. -/
@[grind] def Next.From (f : Frame) : Next → Prop
  | .goto f' => f'.fn = f.fn ∧ f'.context = f.context
  | .call f' g =>
      f'.fn = f.fn ∧ f'.context = f.context ∧ f.calls g ∧ (f.isEntry → f'.active)
  | .int f' _ => f'.fn = f.fn ∧ f.traps
  | .write f' _ => f'.fn = f.fn ∧ f'.context = f.context ∧ f.isEntry
  | .ret v => f.isEntry = false ∧ ∀ c, v = .context c → f.isSwitch
  | .iret regs => f.context = some regs ∧ f.active = false

attribute [grind =] Option.bind_eq_some_iff
attribute [grind] exec Irq.handler
attribute [grind] Kernel.forbid Kernel.lower Kernel.past Kernel.setTask Kernel.setQueue
    Kernel.enqueueTask
  Kernel.removeTask Kernel.copy Kernel.clearQueue Kernel.setNeed

section Exec

variable {block : Ptr32} {k k' : Kernel} {f : Frame} {n : Next}

@[grind →] theorem schedule_spec {switch : Bool} (h : k.schedule = some (k', switch)) :
    (switch = false → k' = k) ∧
    (switch = true → k.forbid_counter ≤ 0 ∧ k.k_reenter ≤ 0 ∧
      ∃ links, k' = { k with links, sched_state := k.sched_state &&& ~~~NEED_SCHEDULE }) := by
  grind [Kernel.schedule]

@[grind →] theorem sched_spec {regs : Context} (h : execSched k f regs = some (k', n)) :
    (n = .goto f ∧ k' = k) ∨
    (n = .call f (.switchTasks .save regs 0) ∧ k.need ∧ k.forbid_counter ≤ 0 ∧ k.k_reenter ≤ 0 ∧
      ∃ links, k' = { k with links, sched_state := k.sched_state &&& ~~~NEED_SCHEDULE }) := by
  grind [execSched]

/-- `forbid_counter` after the next statement of the frame. -/
@[grind] def Frame.counter (f : Frame) (forbid_counter : Int) : Int :=
  match f with
  | .trap .yielded .. => 0
  | f =>
      if f.forbids then forbid_counter + 1
      else if f.lowers then forbid_counter - 1 else forbid_counter

/-- The next statement writes the lists of tasks. -/
@[grind] def Frame.relinks : Frame → Bool
  | .wait .enqueue .. | .signal .remove .. | .signal .enqueue .. | .createTask .enqueue .. => true
  | .createQueue .init .. | .destroyQueue .clear .. => true
  | .trap .sched .. | .irq .sched .. | .switchTasks .remove .. => true
  | _ => false

/-- The next statement writes a task structure. -/
@[grind] def Frame.retasks : Frame → Bool
  | .wait .setWaiting .. | .wait .clearRecvd .. | .wait .clearReady .. => true
  | .signal .setReady .. | .signal .clearWaiting .. | .signal .setRecvd .. => true
  | .delay .set .. | .createTask .init .. | .timerCallback .count .. => true
  | .switchTasks .save .. | .switchTasks .setRun .. => true
  | _ => false

/-- The next statement writes a queue, a message or what is in memory. -/
@[grind] def Frame.requeues : Frame → Bool
  | .queueSend .clear .. | .queueSend .setData .. | .queueSend .copy .. => true
  | .queueSend .link .. | .queueSend .count .. => true
  | .queueRecv .unlink .. | .queueRecv .copy .. | .queueRecv .count .. => true
  | .createQueue .init .. | .destroyQueue .clear .. | .keypressIsr .read .. => true
  | _ => false

structure Effect (f : Frame) (k k' : Kernel) (n : Next) : Prop where
  next : n.From f
  counter : k'.forbid_counter = f.counter k.forbid_counter
  reenter : k'.k_reenter + f.active.toInt = k.k_reenter + n.frames.countP Frame.active
  closed : (f.closed → k.intr = false) → k'.intr = false ∨ n.frames.countP Frame.closed = 0
  opened : n.frames.tail.countP Frame.closed = 0
  holds : n.frames.countP Frame.holds + f.lowers.toNat ≤ f.holds.toNat + f.forbids.toNat
  tested : ∀ g ∈ n.frames, g.lowers → n = .goto g ∧ f.permits ∧ k' = k ∧ 0 < k.forbid_counter
  switch : ∀ f' g, n = .call f' g → g.isSwitch →
    f.tests ∧ f'.untested = false ∧ k.need ∧ k.forbid_counter ≤ 0 ∧ k.k_reenter ≤ 0
  untested : n.frames.countP Frame.untested ≤ f.untested.toNat
  kept : (∀ f' g, n = .call f' g → g.isSwitch = false) →
    k'.sched_state = k.sched_state ∨ k'.need
  need : f.needs → k'.need
  links : f.relinks = false → k'.links = k.links
  task : f.retasks = false → k'.task = k.task
  queue : f.requeues = false → k'.queue = k.queue ∧ k'.msgs = k.msgs ∧ k'.data_ptr = k.data_ptr ∧
    k'.mem = k.mem ∧ k'.queues = k.queues

attribute [local simp] Frame.fn Frame.isEntry Frame.isSwitch Frame.traps Frame.forbids Frame.permits
  Frame.lowers Frame.needs Frame.tests Frame.context Frame.active Frame.closed Frame.untested
      Frame.holds
  Frame.counter Frame.relinks Frame.retasks Frame.requeues Next.frames Next.From
  Kernel.forbid Kernel.lower Kernel.setTask Kernel.setQueue Kernel.clearQueue Kernel.copy
  Option.bind_eq_some_iff setNeed_need

private theorem enqueueTask_links {list : TaskList} {task : Ptr32}
    (done : k.enqueueTask list task = some k') : ∃ links, k' = { k with links } := by
  obtain ⟨links, _, rest⟩ := Option.bind_eq_some_iff.mp done
  cases rest
  exact ⟨links, rfl⟩

private theorem removeTask_spec {task : Ptr32} (done : k.removeTask task = some k') :
    ∃ links, k' = { k with links } := by
  obtain ⟨links, _, rest⟩ := Option.bind_eq_some_iff.mp done
  cases rest
  exact ⟨links, rfl⟩

private theorem permit_effect (pc : PermitPc) (h : execPermit k pc = some (k', n)) :
    Effect (.permit pc) k k' n := by
  cases pc with
  | test =>
      cases h
      split <;> constructor <;> simp_all
  | lower => cases h; constructor <;> simp

private theorem wait_effect (pc : WaitPc) (sigs : BitVec 32) (wait_list : TaskList)
    (h : execWait k sigs wait_list pc = some (k', n)) :
    Effect (.wait pc sigs wait_list) k k' n := by
  cases pc with
  | test =>
      simp only [execWait] at h
      split at h <;> cases h <;> constructor <;> simp
  | enqueue =>
      obtain ⟨k₁, done, rest⟩ := Option.bind_eq_some_iff.mp h
      obtain ⟨links, rfl⟩ := enqueueTask_links done
      cases rest
      constructor <;> simp
  | permit =>
      cases h
      unfold Kernel.past
      split <;> constructor <;> simp [*]
  | _ => cases h; constructor <;> simp

private theorem signal_effect (pc : SignalPc) (task : Ptr32) (sigs : BitVec 32)
    (h : execSignal k task sigs pc = some (k', n)) : Effect (.signal pc task sigs) k k' n := by
  cases pc with
  | test | priTest =>
      simp only [execSignal] at h
      split at h <;> cases h <;> constructor <;> simp
  | remove =>
      obtain ⟨k₁, done, rest⟩ := Option.bind_eq_some_iff.mp h
      obtain ⟨links, rfl⟩ := removeTask_spec done
      cases rest
      constructor <;> simp
  | enqueue =>
      obtain ⟨k₁, done, rest⟩ := Option.bind_eq_some_iff.mp h
      obtain ⟨links, rfl⟩ := enqueueTask_links done
      cases rest
      constructor <;> simp
  | permit =>
      cases h
      unfold Kernel.past
      split <;> constructor <;> simp [*]
  | _ => cases h; constructor <;> simp

private theorem delay_effect (pc : DelayPc) (ticks : BitVec 32)
    (h : execDelay k ticks pc = some (k', n)) : Effect (.delay pc ticks) k k' n := by
  cases pc with
  | permit =>
      cases h
      unfold Kernel.past
      split <;> constructor <;> simp [*]
  | _ => cases h; constructor <;> simp

private theorem create_effect (pc : CreateTaskPc) (task_pri : Int) (new_task : Ptr32)
    (h : execCreateTask k task_pri new_task pc = some (k', n)) :
    Effect (.createTask pc task_pri new_task) k k' n := by
  cases pc with
  | enqueue =>
      obtain ⟨k₁, done, rest⟩ := Option.bind_eq_some_iff.mp h
      obtain ⟨links, rfl⟩ := enqueueTask_links done
      cases rest
      constructor <;> simp
  | permit =>
      cases h
      unfold Kernel.past
      split <;> constructor <;> simp [*]
  | _ => cases h; constructor <;> simp

private theorem queue_effect (pc : CreateQueuePc) (max_slots elem_sz : BitVec 32)
    (new_queue : Ptr32) (h : execCreateQueue k max_slots elem_sz new_queue pc = some (k', n)) :
    Effect (.createQueue pc max_slots elem_sz new_queue) k k' n := by
  cases pc with
  | permit =>
      cases h
      unfold Kernel.past
      split <;> constructor <;> simp [*]
  | _ => cases h; constructor <;> simp

private theorem destroy_effect (pc : DestroyQueuePc) (queue : Ptr32)
    (h : execDestroyQueue k queue pc = some (k', n)) : Effect (.destroyQueue pc queue) k k' n := by
  cases pc with
  | permit =>
      cases h
      unfold Kernel.past
      split <;> constructor <;> simp [*]
  | _ => cases h; constructor <;> simp

private theorem send_effect (pc : SendPc) (s : Send) (h : execSend k s pc = some (k', n)) :
    Effect (.queueSend pc s) k k' n := by
  cases pc with
  | full | hasData | mode | refull | count =>
      simp only [execSend] at h
      split at h <;> cases h <;> constructor <;> simp
  | copy | link =>
      obtain ⟨_, _, rest⟩ := Option.bind_eq_some_iff.mp h
      cases rest
      constructor <;> simp
  | permit =>
      cases h
      unfold Kernel.past
      split <;> constructor <;> simp [*]
  | _ => cases h; constructor <;> simp

private theorem recv_effect (pc : RecvPc) (r : Recv) (h : execRecv k r pc = some (k', n)) :
    Effect (.queueRecv pc r) k k' n := by
  cases pc with
  | empty | mode | reempty | count =>
      simp only [execRecv] at h
      split at h <;> cases h <;> constructor <;> simp
  | unlink | each =>
      simp only [execRecv] at h
      split at h <;> cases h <;> constructor <;> simp
  | copy =>
      simp only [execRecv] at h
      split at h
      · obtain ⟨_, _, rest⟩ := Option.bind_eq_some_iff.mp h
        cases rest
        constructor <;> simp
      · cases h
        constructor <;> simp
  | freeData | first | next =>
      obtain ⟨_, _, rest⟩ := Option.bind_eq_some_iff.mp h
      cases rest
      constructor <;> simp
  | permit =>
      cases h
      unfold Kernel.past
      split <;> constructor <;> simp [*]
  | _ => cases h; constructor <;> simp

private theorem register_effect (pc : RegisterPc) (dev : Ptr32)
    (h : execRegister k dev pc = some (k', n)) : Effect (.registerDevice pc dev) k k' n := by
  cases pc with
  | link =>
      obtain ⟨_, _, rest⟩ := Option.bind_eq_some_iff.mp h
      cases rest
      constructor <;> simp
  | permit =>
      cases h
      unfold Kernel.past
      split <;> constructor <;> simp [*]
  | _ => cases h; constructor <;> simp

private theorem device_effect (pc : GetDevicePc) (dev_name : List (BitVec 8)) (aux : Ptr Ptr32 Unit)
    (h : execGetDevice k dev_name aux pc = some (k', n)) :
    Effect (.getDevice pc dev_name aux) k k' n := by
  cases pc with
  | first =>
      obtain ⟨_, _, rest⟩ := Option.bind_eq_some_iff.mp h
      cases rest
      constructor <;> simp
  | each =>
      cases aux with
      | null => cases h; constructor <;> simp
      | node dev =>
          simp only [execGetDevice] at h
          split at h
          · cases h
            constructor <;> simp
          · obtain ⟨_, _, rest⟩ := Option.bind_eq_some_iff.mp h
            cases rest
            constructor <;> simp
      | _ => cases h
  | permit =>
      cases h
      unfold Kernel.past
      split <;> constructor <;> simp [*]
  | _ => cases h; constructor <;> simp

private theorem trap_effect (pc : TrapPc) (call : SysCall) (regs : Context)
    (h : execTrap block k call regs pc = some (k', n)) : Effect (.trap pc call regs) k k' n := by
  cases pc with
  | body =>
      cases call with
      | yield =>
          cases h
          constructor <;> simp
          all_goals simp [Kernel.setNeed]
      | kmalloc =>
          simp only [execTrap] at h
          split at h <;> cases h
          constructor <;> simp
      | kfree ptr => cases h; constructor <;> simp
  | sched =>
      rcases sched_spec h with ⟨rfl, rfl⟩ | ⟨rfl, need, free, outer, links, rfl⟩
      · constructor <;> simp
      · constructor <;> simp [need, free, outer]
  | _ => cases h; constructor <;> simp

private theorem irq_effect (pc : IrqPc) (irq : Irq) (regs : Context)
    (h : execIrq k irq regs pc = some (k', n)) : Effect (.irq pc irq regs) k k' n := by
  cases pc with
  | handler =>
      obtain ⟨g, done, rest⟩ := Option.bind_eq_some_iff.mp h
      cases rest
      cases irq with
      | timer => cases done; constructor <;> simp
      | keyboard scancode =>
          simp only [Irq.handler] at done
          split at done <;> cases done
          constructor <;> simp
  | sched =>
      rcases sched_spec h with ⟨rfl, rfl⟩ | ⟨rfl, need, free, outer, links, rfl⟩
      · constructor <;> simp
      · constructor <;> simp [need, free, outer]
  | _ => cases h; constructor <;> simp

private theorem switch_effect (pc : SwitchPc) (cpu_context : Context) (next_task : Ptr32)
    (h : execSwitch k cpu_context next_task pc = some (k', n)) :
    Effect (.switchTasks pc cpu_context next_task) k k' n := by
  cases pc with
  | test => constructor <;> grind [execSwitch]
  | setRunning =>
      simp only [execSwitch] at h
      split at h
      · split at h <;> cases h
        constructor <;> simp
      · cases h
        constructor <;> simp
  | halted => cases h
  | remove =>
      obtain ⟨k₁, done, rest⟩ := Option.bind_eq_some_iff.mp h
      obtain ⟨links, rfl⟩ := removeTask_spec done
      cases rest
      constructor <;> simp
  | _ => cases h; constructor <;> simp

private theorem timer_effect (pc : TimerPc) (tasks_waiting : Ptr Ptr32 TaskList)
    (h : execTimer k tasks_waiting pc = some (k', n)) :
    Effect (.timerCallback pc tasks_waiting) k k' n := by
  cases pc with
  | first | next =>
      obtain ⟨_, _, rest⟩ := Option.bind_eq_some_iff.mp h
      cases rest
      constructor <;> simp
  | lock =>
      simp only [execTimer] at h
      split at h <;> cases h <;> constructor <;> simp
  | each | count | signal =>
      cases tasks_waiting <;> cases h <;> constructor <;> simp
  | delayed | expired =>
      cases tasks_waiting with
      | node task =>
          simp only [execTimer] at h
          split at h <;> cases h <;> constructor <;> simp
      | _ => cases h
  | need =>
      cases h
      constructor <;> simp
      all_goals simp [Kernel.setNeed]
  | _ => cases h; constructor <;> simp

private theorem keypress_effect (pc : KeypressPc) (scancode : BitVec 8)
    (h : execKeypress k scancode pc = some (k', n)) : Effect (.keypressIsr pc scancode) k k' n := by
  cases pc with
  | test =>
      simp only [execKeypress] at h
      split at h <;> cases h <;> constructor <;> simp
  | _ => cases h; constructor <;> simp

/-- What the next statement of a frame does. -/
theorem exec_effect (h : exec block k f = some (k', n)) : Effect f k k' n := by
  cases f with
  | permit pc => exact permit_effect pc h
  | wait pc sigs wait_list => exact wait_effect pc sigs wait_list h
  | signal pc task sigs => exact signal_effect pc task sigs h
  | delay pc ticks => exact delay_effect pc ticks h
  | createTask pc task_pri new_task => exact create_effect pc task_pri new_task h
  | createQueue pc max_slots elem_sz new_queue =>
      exact queue_effect pc max_slots elem_sz new_queue h
  | destroyQueue pc queue => exact destroy_effect pc queue h
  | queueSend pc s => exact send_effect pc s h
  | queueRecv pc r => exact recv_effect pc r h
  | registerDevice pc dev => exact register_effect pc dev h
  | getDevice pc dev_name aux => exact device_effect pc dev_name aux h
  | trap pc call regs => exact trap_effect pc call regs h
  | irq pc n regs => exact irq_effect pc n regs h
  | switchTasks pc cpu_context next_task => exact switch_effect pc cpu_context next_task h
  | timerCallback pc tasks_waiting => exact timer_effect pc tasks_waiting h
  | keypressIsr pc scancode => exact keypress_effect pc scancode h

end Exec

end Krypton
