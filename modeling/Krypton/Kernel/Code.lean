import Krypton.Common
import Krypton.Kernel.State

/-! # The statements of the kernel

Every function is a program counter that runs over its statements. A `Frame` is
one activation with its arguments and local variables; `exec` executes the next
statement of a frame and says what becomes of the frame.
-/

namespace Krypton

open LinkStore

/-- The system calls that the modelled code makes. -/
inductive SysCall where
  | yield
  | kmalloc
  | kfree (ptr : Ptr32)
  deriving DecidableEq

/-- The hardware interrupts with a registered handler. -/
inductive Irq where
  | timer
  | keyboard (scancode : BitVec 8)
  deriving DecidableEq

/-- The place of an interrupt in the order of the PIC, the most urgent first. -/
def Irq.line : Irq → Nat
  | timer => 0
  | keyboard _ => 1

/-- The test of `permit` and its decrement are two statements. -/
inductive PermitPc where
  | test | lower
  deriving DecidableEq

inductive WaitPc where
  | test | forbid | setWaiting | clearRecvd | clearReady | lock | enqueue | unlock
  | permit | lower | yield | ret
  deriving DecidableEq

inductive SignalPc where
  | test | forbid | setReady | clearWaiting | setRecvd | remove | enqueue
  | permit | lower | priTest | ret
  deriving DecidableEq

inductive DelayPc where
  | forbid | set | permit | lower | wait | ret
  deriving DecidableEq

inductive CreateTaskPc where
  | task | stack | init | forbid | enqueue | permit | lower | ret
  deriving DecidableEq

inductive CreateQueuePc where
  | forbid | alloc | init | permit | lower | ret
  deriving DecidableEq

inductive DestroyQueuePc where
  | forbid | clear | free | permit | lower | ret
  deriving DecidableEq

inductive SendPc where
  | forbid | full
  | alloc | clear | hasData | allocData | setData | copy | link | count | signal
  | permit | lower | ret
  | mode | wait | reforbid | refull
  deriving DecidableEq

inductive RecvPc where
  | forbid | empty
  | unlink | copy | freeData | freeMsg | count | first | each | next
  | permit | lower | ret
  | mode | wait | reforbid | reempty
  deriving DecidableEq

inductive RegisterPc where
  | forbid | link | permit | lower | ret
  deriving DecidableEq

inductive GetDevicePc where
  | forbid | first | each | permit | lower | ret
  deriving DecidableEq

/-- `idt_handler` with `syscall` as the registered handler. -/
inductive TrapPc where
  | enter | sti | body | yielded | cli | sched | leave | iret
  deriving DecidableEq

/-- `irq_handler`. -/
inductive IrqPc where
  | enter | sti | handler | cli | sched | eoi | leave | iret
  deriving DecidableEq

inductive SwitchPc where
  | save | test | enable | hlt | halted | remove | setRunning | setRun | restore
  deriving DecidableEq

inductive TimerPc where
  | tick | first | lock | each | delayed | count | expired | cli | signal | sti | next | need
  deriving DecidableEq

inductive KeypressPc where
  | read | test | cli | send | sti
  deriving DecidableEq

/-- The arguments and variables of `queue_send`. Its two paths are told apart by
    `resumed`, which is set on the one that has waited. -/
structure Send where
  queue : Ptr32
  msg : Option (Ptr32 × Nat)
  blocking : Bool
  resumed : Bool
  new_msg : Ptr32
  data : Ptr32
  deriving DecidableEq

/-- The arguments and variables of `queue_recv`. -/
structure Recv where
  queue : Ptr32
  ptr : Option (Ptr32 × Nat)
  blocking : Bool
  resumed : Bool
  msg : Ptr32
  aux : Ptr Ptr32 TaskList
  deriving DecidableEq

inductive Frame where
  | permit (pc : PermitPc)
  | wait (pc : WaitPc) (sigs : BitVec 32) (wait_list : TaskList)
  | signal (pc : SignalPc) (task : Ptr32) (sigs : BitVec 32)
  | delay (pc : DelayPc) (ticks : BitVec 32)
  | createTask (pc : CreateTaskPc) (task_pri : Int) (new_task : Ptr32)
  | createQueue (pc : CreateQueuePc) (max_slots elem_sz : BitVec 32) (new_queue : Ptr32)
  | destroyQueue (pc : DestroyQueuePc) (queue : Ptr32)
  | queueSend (pc : SendPc) (s : Send)
  | queueRecv (pc : RecvPc) (r : Recv)
  | registerDevice (pc : RegisterPc) (dev : Ptr32)
  | getDevice (pc : GetDevicePc) (dev_name : List (BitVec 8)) (aux : Ptr Ptr32 Unit)
  | trap (pc : TrapPc) (call : SysCall) (regs : Context)
  | irq (pc : IrqPc) (irq : Irq) (regs : Context)
  | switchTasks (pc : SwitchPc) (cpu_context : Context) (next_task : Ptr32)
  | timerCallback (pc : TimerPc) (tasks_waiting : Ptr Ptr32 TaskList)
  | keypressIsr (pc : KeypressPc) (scancode : BitVec 8)
  deriving DecidableEq

/-- What a function returns to its caller. -/
inductive Value where
  | none
  | word (w : BitVec 32)
  | ptr (p : Option Ptr32)
  | context (c : Context)
  deriving DecidableEq

/-- What becomes of a frame after a statement. -/
inductive Next where
  /-- it goes on at another statement -/
  | goto (f : Frame)
  /-- it calls a function -/
  | call (f callee : Frame)
  /-- it executes `int 0xFF` -/
  | int (f : Frame) (call : SysCall)
  /-- it stores the address of a block into a variable of the frame it interrupted -/
  | write (f : Frame) (block : Ptr32)
  | ret (v : Value)
  | iret (regs : Context)
  deriving DecidableEq

abbrev Exec := Option (Kernel × Next)

/-- `permit()` in the code of a task; the functions below have its two statements of their own. -/
def execPermit (k : Kernel) (pc : PermitPc) : Exec :=
  match pc with
  | .test => some (k, if k.forbid_counter > 0 then .goto (.permit .lower) else .ret .none)
  | .lower => some (k.lower, .ret .none)

/-- Where `permit()` goes on, at its decrement or behind it. -/
def Kernel.past {Pc : Type} (k : Kernel) (lower next : Pc) : Pc :=
  if k.forbid_counter > 0 then lower else next

def execWait (k : Kernel) (sigs : BitVec 32) (wait_list : TaskList) (pc : WaitPc) : Exec :=
  let goto (pc : WaitPc) := Next.goto (.wait pc sigs wait_list)
  match pc with
  | .test => if sigs = 0 then some (k, .ret (.word 0)) else some (k, goto .forbid)
  | .forbid => some (k.forbid, goto .setWaiting)
  | .setWaiting => some (k.setTask k.running_task fun t =>
      { t with sigs_waiting := t.sigs_waiting ||| sigs }, goto .clearRecvd)
  | .clearRecvd =>
      some (k.setTask k.running_task fun t => { t with sigs_recvd := 0 }, goto .clearReady)
  | .clearReady => some (k.setTask k.running_task fun t =>
      { t with flags := t.flags &&& ~~~TS_READY }, goto .lock)
  | .lock => some ({ k with wait_lock := k.wait_lock + 1 }, goto .enqueue)
  | .enqueue => do return (← k.enqueueTask wait_list k.running_task, goto .unlock)
  | .unlock => some ({ k with wait_lock := k.wait_lock - 1 }, goto .permit)
  | .permit => some (k, goto (k.past .lower .yield))
  | .lower => some (k.lower, goto .yield)
  | .yield => some (k, .int (.wait .ret sigs wait_list) .yield)
  | .ret => some (k, .ret (.word (k.task k.running_task).sigs_recvd))

def execSignal (k : Kernel) (task : Ptr32) (sigs : BitVec 32) (pc : SignalPc) : Exec :=
  let goto (pc : SignalPc) := Next.goto (.signal pc task sigs)
  match pc with
  | .test =>
      if sigs ≠ 0 ∧ (k.task task).sigs_waiting &&& sigs ≠ 0 then some (k, goto .forbid)
      else some (k, .ret (.word 0))
  | .forbid => some (k.forbid, goto .setReady)
  | .setReady => some (k.setTask task fun t => { t with flags := t.flags ||| TS_READY },
      goto .clearWaiting)
  | .clearWaiting => some (k.setTask task fun t =>
      { t with sigs_waiting := t.sigs_waiting &&& ~~~sigs }, goto .setRecvd)
  | .setRecvd => some (k.setTask task fun t =>
      { t with sigs_recvd := t.sigs_recvd ||| sigs }, goto .remove)
  | .remove => do return (← k.removeTask task, goto .enqueue)
  | .enqueue => do return (← k.enqueueTask .tasks_ready task, goto .permit)
  | .permit => some (k, goto (k.past .lower .priTest))
  | .lower => some (k.lower, goto .priTest)
  | .priTest =>
      if k.pri k.running_task ≤ k.pri task then some (k, .int (.signal .ret task sigs) .yield)
      else some (k, goto .ret)
  | .ret => some (k, .ret (.word sigs))

def execDelay (k : Kernel) (ticks : BitVec 32) (pc : DelayPc) : Exec :=
  let goto (pc : DelayPc) := Next.goto (.delay pc ticks)
  match pc with
  | .forbid => some (k.forbid, goto .set)
  | .set => some (k.setTask k.running_task fun t => { t with task_delay := ticks }, goto .permit)
  | .permit => some (k, goto (k.past .lower .wait))
  | .lower => some (k.lower, goto .wait)
  | .wait => some (k, .call (.delay .ret ticks) (.wait .test TB_DELAY .tasks_wait))
  | .ret => some (k, .ret .none)

/-- A task as `create_task` fills it in, ready to run at the entry of its code. -/
def newTask (task_pri : Int) (new_task : Ptr32) : Task where
  pri := task_pri
  task_state := .user ⟨new_task, true, 0⟩
  flags := TS_READY
  sigs_waiting := 0
  sigs_recvd := 0
  task_delay := 0

/-- `kmalloc` never returns NULL: it panics. -/
def execCreateTask (k : Kernel) (task_pri : Int) (new_task : Ptr32) (pc : CreateTaskPc) : Exec :=
  let goto (pc : CreateTaskPc) := Next.goto (.createTask pc task_pri new_task)
  match pc with
  | .task => some (k, .int (.createTask .stack task_pri new_task) .kmalloc)
  | .stack => some (k, .int (.createTask .init task_pri new_task) .kmalloc)
  | .init =>
      let k := { k with tasks := Function.update k.tasks new_task true }
      some (k.setTask new_task fun _ => newTask task_pri new_task, goto .forbid)
  | .forbid => some (k.forbid, goto .enqueue)
  | .enqueue => do return (← k.enqueueTask .tasks_ready new_task, goto .permit)
  | .permit => some (k, goto (k.past .lower .ret))
  | .lower => some (k.lower, goto .ret)
  | .ret => some (k, .ret (.ptr (some new_task)))

/-- The headers of a queue after its `memset`. -/
def Kernel.clearQueue (k : Kernel) (queue : Ptr32) : Kernel :=
  { k with
    queue := Function.update k.queue queue ⟨0, 0, 0, 0⟩
    links := set (set (set k.links (.head (.waiters queue)) .null) (.tail (.waiters queue)) .null)
      (.tailPrev (.waiters queue)) .null
    msgs := set (set (set k.msgs (.head queue) .null) (.tail queue) .null) (.tailPrev queue) .null }

def execCreateQueue (k : Kernel) (max_slots elem_sz : BitVec 32) (new_queue : Ptr32)
    (pc : CreateQueuePc) : Exec :=
  let goto (pc : CreateQueuePc) := Next.goto (.createQueue pc max_slots elem_sz new_queue)
  match pc with
  | .forbid => some (k.forbid, goto .alloc)
  | .alloc => some (k, .int (.createQueue .init max_slots elem_sz new_queue) .kmalloc)
  | .init =>
      let k := k.clearQueue new_queue
      let k := { k with msgs := new_list k.msgs new_queue
                        links := new_list k.links (.waiters new_queue)
                        queues := Function.update k.queues new_queue true }
      some (k.setQueue new_queue fun _ => ⟨max_slots, max_slots, elem_sz, k.running_task⟩,
        goto .permit)
  | .permit => some (k, goto (k.past .lower .ret))
  | .lower => some (k.lower, goto .ret)
  | .ret => some (k, .ret (.ptr (some new_queue)))

def execDestroyQueue (k : Kernel) (queue : Ptr32) (pc : DestroyQueuePc) : Exec :=
  let goto (pc : DestroyQueuePc) := Next.goto (.destroyQueue pc queue)
  match pc with
  | .forbid => some (k.forbid, goto .clear)
  | .clear =>
      some ({ k.clearQueue queue with queues := Function.update k.queues queue false }, goto .free)
  | .free => some (k, .int (.destroyQueue .permit queue) (.kfree queue))
  | .permit => some (k, goto (k.past .lower .ret))
  | .lower => some (k.lower, goto .ret)
  | .ret => some (k, .ret .none)

/-- `memcpy(dest, src, len)` between blocks. -/
def Kernel.copy (k : Kernel) (dest src : Ptr32 × Nat) (len : Nat) : Kernel :=
  { k with mem := Function.update k.mem dest.1 fun i =>
      if dest.2 ≤ i ∧ i < dest.2 + len then k.mem src.1 (src.2 + (i - dest.2)) else k.mem dest.1 i }

def execSend (k : Kernel) (s : Send) (pc : SendPc) : Exec :=
  let goto (pc : SendPc) := Next.goto (.queueSend pc s)
  let queue := k.queue s.queue
  match pc with
  | .forbid => some (k.forbid, goto .full)
  | .full => if queue.free_slots > 0 then some (k, goto .alloc) else some (k, goto .mode)
  | .alloc => some (k, .int (.queueSend .clear s) .kmalloc)
  | .clear => some ({ k with data_ptr := Function.update k.data_ptr s.new_msg none }, goto .hasData)
  | .hasData => if s.msg.isSome then some (k, goto .allocData) else some (k, goto .link)
  | .allocData => some (k, .int (.queueSend .setData s) .kmalloc)
  | .setData =>
      some ({ k with data_ptr := Function.update k.data_ptr s.new_msg (some s.data) }, goto .copy)
  | .copy => do
      let msg ← s.msg
      return (k.copy (s.data, 0) msg queue.elem_sz.toNat, goto .link)
  | .link => do return ({ k with msgs := ← add_head k.msgs s.queue s.new_msg }, goto .count)
  | .count =>
      let k := k.setQueue s.queue fun q => { q with free_slots := q.free_slots - 1 }
      if s.resumed = false ∧ queue.free_slots = queue.max_slots then some (k, goto .signal)
      else some (k, goto .permit)
  | .signal => some (k, .call (.queueSend .permit s) (.signal .test queue.owner TB_QUEUE))
  | .permit => some (k, goto (k.past .lower .ret))
  | .lower => some (k.lower, goto .ret)
  | .ret => some (k, .ret (.ptr (some s.new_msg)))
  | .mode => if s.blocking then some (k, goto .wait) else some (k, .ret (.ptr none))
  | .wait => some (k, .call (.queueSend .reforbid s) (.wait .test TB_QUEUE (.waiters s.queue)))
  | .reforbid => some (k.forbid, .goto (.queueSend .refull { s with resumed := true }))
  | .refull => if queue.free_slots = 0 then some (k, goto .wait) else some (k, goto .alloc)

def execRecv (k : Kernel) (r : Recv) (pc : RecvPc) : Exec :=
  let goto (pc : RecvPc) := Next.goto (.queueRecv pc r)
  let queue := k.queue r.queue
  match pc with
  | .forbid => some (k.forbid, goto .empty)
  | .empty =>
      if queue.free_slots < queue.max_slots then some (k, goto .unlink) else some (k, goto .mode)
  | .unlink =>
      match remove_tail k.msgs r.queue with
      | some (.node msg, msgs) => some ({ k with msgs }, .goto (.queueRecv .copy { r with msg }))
      | _ => none
  | .copy =>
      match k.data_ptr r.msg with
      | some data => do
          return (k.copy (← r.ptr) (data, 0) queue.elem_sz.toNat, goto .freeData)
      | none => some (k, goto .freeMsg)
  | .freeData => do return (k, .int (.queueRecv .freeMsg r) (.kfree (← k.data_ptr r.msg)))
  | .freeMsg => some (k, .int (.queueRecv .count r) (.kfree r.msg))
  | .count =>
      let k := k.setQueue r.queue fun q => { q with free_slots := q.free_slots + 1 }
      if r.resumed = false ∧ queue.free_slots = 0 then some (k, goto .first)
      else some (k, goto .permit)
  | .first => do
      return (k, .goto (.queueRecv .each { r with aux := ← get_head k.links (.waiters r.queue) }))
  | .each =>
      match r.aux with
      | .null => some (k, goto .permit)
      | .node aux => some (k, .call (.queueRecv .next r) (.signal .test aux TB_QUEUE))
      | _ => none
  | .next => do return (k, .goto (.queueRecv .each { r with aux := ← get_next k.links r.aux }))
  | .permit => some (k, goto (k.past .lower .ret))
  | .lower => some (k.lower, goto .ret)
  | .ret => some (k, .ret (.ptr (r.ptr.map (·.1))))
  | .mode => if r.blocking then some (k, goto .wait) else some (k, .ret (.ptr none))
  | .wait => some (k, .call (.queueRecv .reforbid r) (.wait .test TB_QUEUE .tasks_wait))
  | .reforbid => some (k.forbid, .goto (.queueRecv .reempty { r with resumed := true }))
  | .reempty =>
      if queue.free_slots = queue.max_slots then some (k, goto .wait) else some (k, goto .unlink)

def execRegister (k : Kernel) (dev : Ptr32) (pc : RegisterPc) : Exec :=
  let goto (pc : RegisterPc) := Next.goto (.registerDevice pc dev)
  match pc with
  | .forbid => some (k.forbid, goto .link)
  | .link => do return ({ k with devices := ← add_head k.devices () dev }, goto .permit)
  | .permit => some (k, goto (k.past .lower .ret))
  | .lower => some (k.lower, goto .ret)
  | .ret => some (k, .ret .none)

def execGetDevice (k : Kernel) (dev_name : List (BitVec 8)) (aux : Ptr Ptr32 Unit)
    (pc : GetDevicePc) : Exec :=
  let goto (pc : GetDevicePc) := Next.goto (.getDevice pc dev_name aux)
  match pc with
  | .forbid => some (k.forbid, goto .first)
  | .first => do return (k, .goto (.getDevice .each dev_name (← get_head k.devices ())))
  | .each =>
      match aux with
      | .null => some (k, goto .permit)
      | .node dev =>
          if Common.strcmp dev_name (k.dev_name dev) = 0 then some (k, goto .permit)
          else do return (k, .goto (.getDevice .each dev_name (← get_next k.devices aux)))
      | _ => none
  | .permit => some (k, goto (k.past .lower .ret))
  | .lower => some (k.lower, goto .ret)
  | .ret => some (k, .ret (.ptr (match aux with | .node dev => some dev | _ => none)))

/-- The test of the "schedule needed" flag, with which both handlers end; `f` goes on. -/
def execSched (k : Kernel) (f : Frame) (regs : Context) : Exec :=
  if k.need then do
    let (k, switch) ← k.schedule
    return if switch then (k, .call f (.switchTasks .save regs 0)) else (k, .goto f)
  else some (k, .goto f)

/-- `block` is the block that a `kmalloc` returns, if it is free. -/
def execTrap (block : Ptr32) (k : Kernel) (call : SysCall) (regs : Context) (pc : TrapPc) : Exec :=
  let goto (pc : TrapPc) := Next.goto (.trap pc call regs)
  match pc with
  | .enter => some ({ k with k_reenter := k.k_reenter + 1 }, goto .sti)
  | .sti => some ({ k with intr := true }, goto .body)
  | .body =>
      match call with
      | .yield => some (k.setNeed, goto .yielded)
      | .kmalloc =>
          if k.live block ∨ block = 0 then none
          else some ({ k with live := Function.update k.live block true },
            .write (.trap .cli call regs) block)
      | .kfree ptr => some ({ k with live := Function.update k.live ptr false }, goto .cli)
  | .yielded => some ({ k with forbid_counter := 0 }, goto .cli)
  | .cli => some ({ k with intr := false }, goto .sched)
  | .sched => execSched k (.trap .leave call regs) regs
  | .leave => some ({ k with k_reenter := k.k_reenter - 1 }, goto .iret)
  | .iret => some (k, .iret regs)

/-- `interrupt_handlers[int_no]`. -/
def Irq.handler (k : Kernel) : Irq → Option Frame
  | timer => some (.timerCallback .tick .null)
  | keyboard scancode => if k.keybd_queue = 0 then none else some (.keypressIsr .read scancode)

def execIrq (k : Kernel) (irq : Irq) (regs : Context) (pc : IrqPc) : Exec :=
  let goto (pc : IrqPc) := Next.goto (.irq pc irq regs)
  match pc with
  | .enter => some ({ k with k_reenter := k.k_reenter + 1 }, goto .sti)
  | .sti => some ({ k with intr := true }, goto .handler)
  | .handler => do return (k, .call (.irq .cli irq regs) (← irq.handler k))
  | .cli => some ({ k with intr := false }, goto .sched)
  | .sched => execSched k (.irq .eoi irq regs) regs
  | .eoi => some (k, goto .leave)
  | .leave => some ({ k with k_reenter := k.k_reenter - 1 }, goto .iret)
  | .iret => some (k, .iret regs)

/-- The CPU that has executed `hlt` executes no statement until an interrupt. A task that was
    preempted in the epilogue of a handler left its context on the kernel stack. Unless it is
    dispatched again at once, that stack is gone; what the CPU does with it is not modelled. -/
def execSwitch (k : Kernel) (cpu_context : Context) (next_task : Ptr32) (pc : SwitchPc) : Exec :=
  let goto (pc : SwitchPc) := Next.goto (.switchTasks pc cpu_context next_task)
  match pc with
  | .save => some (k.setTask k.running_task fun t =>
      { t with flags := t.flags &&& ~~~TS_RUN, task_state := cpu_context }, goto .test)
  | .test =>
      match get_head k.links .tasks_ready with
      | some .null => some (k, goto .enable)
      | some (.node next_task) => some (k, .goto (.switchTasks .remove cpu_context next_task))
      | _ => none
  | .enable => some ({ k with intr := true }, goto .hlt)
  | .hlt => some (k, goto .halted)
  | .halted => none
  | .remove => do return (← k.removeTask next_task, goto .setRunning)
  | .setRunning =>
      match (k.task next_task).task_state with
      | .kernel _ =>
          if next_task = k.running_task then
            some ({ k with running_task := next_task }, goto .setRun)
          else none
      | .user _ => some ({ k with running_task := next_task }, goto .setRun)
  | .setRun => some (k.setTask k.running_task fun t => { t with flags := t.flags ||| TS_RUN },
      goto .restore)
  | .restore => some (k, .ret (.context (k.task k.running_task).task_state))

def execTimer (k : Kernel) (tasks_waiting : Ptr Ptr32 TaskList) (pc : TimerPc) : Exec :=
  let goto (pc : TimerPc) := Next.goto (.timerCallback pc tasks_waiting)
  match pc with
  | .tick => some ({ k with system_tick := k.system_tick + 1 }, goto .first)
  | .first => do return (k, .goto (.timerCallback .lock (← get_head k.links .tasks_wait)))
  | .lock => if k.wait_lock = 0 then some (k, goto .each) else some (k, goto .need)
  | .each =>
      match tasks_waiting with
      | .null => some (k, goto .need)
      | .node _ => some (k, goto .delayed)
      | _ => none
  | .delayed =>
      match tasks_waiting with
      | .node task =>
          if (k.task task).sigs_waiting &&& TB_DELAY ≠ 0 then some (k, goto .count)
          else some (k, goto .next)
      | _ => none
  | .count =>
      match tasks_waiting with
      | .node task =>
          some (k.setTask task fun t => { t with task_delay := t.task_delay - 1 }, goto .expired)
      | _ => none
  | .expired =>
      match tasks_waiting with
      | .node task =>
          if (k.task task).task_delay ≤ 0 then some (k, goto .cli) else some (k, goto .next)
      | _ => none
  | .cli => some ({ k with intr := false }, goto .signal)
  | .signal =>
      match tasks_waiting with
      | .node task =>
          some (k, .call (.timerCallback .sti tasks_waiting) (.signal .test task TB_DELAY))
      | _ => none
  | .sti => some ({ k with intr := true }, goto .next)
  | .next => do
      return (k, .goto (.timerCallback .each (← get_next k.links tasks_waiting)))
  | .need => some (k.setNeed, .ret .none)

/-- The static variable `scancode` of `keypress_isr`. -/
def scancodeAddr : Ptr32 × Nat := (0, 0)

/-- The arguments of `queue_send(keybd_queue, &scancode, QM_NONBLOCKING)`. -/
def keySend (k : Kernel) : Send where
  queue := k.keybd_queue
  msg := some scancodeAddr
  blocking := false
  resumed := false
  new_msg := 0
  data := 0

def execKeypress (k : Kernel) (scancode : BitVec 8) (pc : KeypressPc) : Exec :=
  let goto (pc : KeypressPc) := Next.goto (.keypressIsr pc scancode)
  match pc with
  | .read =>
      some ({ k with mem := Function.update k.mem scancodeAddr.1 fun i =>
        if i = 0 then scancode else if i < 4 then 0 else k.mem scancodeAddr.1 i }, goto .test)
  | .test => if scancode &&& 0x80 = 0 then some (k, goto .cli) else some (k, .ret .none)
  | .cli => some ({ k with intr := false }, goto .send)
  | .send => some (k, .call (.keypressIsr .sti scancode) (.queueSend .forbid (keySend k)))
  | .sti => some ({ k with intr := true }, .ret .none)

/-- The next statement of a frame. -/
def exec (block : Ptr32) (k : Kernel) : Frame → Exec
  | .permit pc => execPermit k pc
  | .wait pc sigs wait_list => execWait k sigs wait_list pc
  | .signal pc task sigs => execSignal k task sigs pc
  | .delay pc ticks => execDelay k ticks pc
  | .createTask pc task_pri new_task => execCreateTask k task_pri new_task pc
  | .createQueue pc max_slots elem_sz new_queue => execCreateQueue k max_slots elem_sz new_queue pc
  | .destroyQueue pc queue => execDestroyQueue k queue pc
  | .queueSend pc s => execSend k s pc
  | .queueRecv pc r => execRecv k r pc
  | .registerDevice pc dev => execRegister k dev pc
  | .getDevice pc dev_name aux => execGetDevice k dev_name aux pc
  | .trap pc call regs => execTrap block k call regs pc
  | .irq pc irq regs => execIrq k irq regs pc
  | .switchTasks pc cpu_context next_task => execSwitch k cpu_context next_task pc
  | .timerCallback pc tasks_waiting => execTimer k tasks_waiting pc
  | .keypressIsr pc scancode => execKeypress k scancode pc

/-- A value arrives in the frame that waits for it: a block from `kmalloc`, or
    the registers that `switch_tasks` restored. -/
def Frame.deliver : Value → Frame → Frame
  | .ptr (some b), .createTask .stack task_pri _ => .createTask .stack task_pri b
  | .ptr (some b), .createQueue .init max_slots elem_sz _ => .createQueue .init max_slots elem_sz b
  | .ptr (some b), .queueSend .clear s => .queueSend .clear { s with new_msg := b }
  | .ptr (some b), .queueSend .setData s => .queueSend .setData { s with data := b }
  | .context c, .trap pc call _ => .trap pc call c
  | .context c, .irq pc n _ => .irq pc n c
  | _, f => f

end Krypton
