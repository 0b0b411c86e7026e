import Krypton.Kernel.Code
import Krypton.Foundations.Runs

/-! # The kernel as a machine

One CPU executes the statements of the running task, of the interrupt handlers
and of the idle loop one at a time. There is one kernel stack; every task has a
stack of its own, and which one the CPU uses is told by its registers, so that
`switch_tasks` changes stacks by exchanging the registers that the outermost
handler returns to.
-/

namespace Krypton

/-- What the code of a task may call. -/
inductive Call where
  | forbid
  | permit
  | yield
  | wait (sigs : BitVec 32) (wait_list : TaskList)
  | signal (task : Ptr32) (sigs : BitVec 32)
  | delay (ticks : BitVec 32)
  | createTask (task_pri : Int)
  | createQueue (max_slots elem_sz : BitVec 32)
  | destroyQueue (queue : Ptr32)
  | queueSend (queue : Ptr32) (msg : Option (Ptr32 × Nat)) (blocking : Bool)
  | queueRecv (queue : Ptr32) (ptr : Option (Ptr32 × Nat)) (blocking : Bool)
  | registerDevice (dev : Ptr32)
  | getDevice (dev_name : List (BitVec 8))
  deriving DecidableEq

inductive Event where
  /-- the next statement of the kernel's code; `block` is what a `kmalloc` takes -/
  | stmt (block : Ptr32)
  | irq (n : Irq)
  /-- the code of the running task calls a function -/
  | call (c : Call)
  /-- it computes in its registers -/
  | compute (others : Nat)
  /-- it stores a byte -/
  | store (dest : Ptr32 × Nat) (byte : BitVec 8)
  /-- it sets `keybd_queue` and registers the keyboard handler -/
  | keybd (queue : Ptr32)
  deriving DecidableEq

structure Machine where
  k : Kernel
  /-- the frames on the kernel stack, the innermost first -/
  kstack : List Frame
  /-- the registers, while the CPU is in the code of a task -/
  regs : Regs
  /-- the frames of each task -/
  ustack : Ptr32 → List Frame

/-- The frame of a call, for the functions that do not end at once. -/
def Call.frame : Call → Option Frame
  | forbid | yield => none
  | permit => some (.permit .test)
  | wait sigs wait_list => some (.wait .test sigs wait_list)
  | signal task sigs => some (.signal .test task sigs)
  | delay ticks => some (.delay .forbid ticks)
  | createTask task_pri => some (.createTask .task task_pri 0)
  | createQueue max_slots elem_sz => some (.createQueue .forbid max_slots elem_sz 0)
  | destroyQueue queue => some (.destroyQueue .forbid queue)
  | queueSend queue msg blocking => some (.queueSend .forbid ⟨queue, msg, blocking, false, 0, 0⟩)
  | queueRecv queue ptr blocking =>
      some (.queueRecv .forbid ⟨queue, ptr, blocking, false, 0, .null⟩)
  | registerDevice dev => some (.registerDevice .forbid dev)
  | getDevice dev_name => some (.getDevice .forbid dev_name .null)

/-- An `irq_handler` that has not sent its end-of-interrupt. -/
def Frame.unacked : Frame → Option Irq
  | .irq .leave .. | .irq .iret .. => none
  | .irq _ n _ => some n
  | _ => none

/-- An interrupt ends the `hlt` of the idle loop. -/
def Frame.wake : Frame → Frame
  | .switchTasks .halted cpu_context next_task => .switchTasks .test cpu_context next_task
  | f => f

namespace Machine

/-- The frames of the task whose stack the CPU uses. -/
def current (m : Machine) : List Frame := m.ustack m.regs.stack

def setCurrent (m : Machine) (fs : List Frame) : Machine :=
  { m with ustack := Function.update m.ustack m.regs.stack fs }

@[simp, grind =] theorem setCurrent_k (m : Machine) (fs : List Frame) : (m.setCurrent fs).k = m.k :=
  rfl

@[simp, grind =] theorem setCurrent_kstack (m : Machine) (fs : List Frame) :
    (m.setCurrent fs).kstack = m.kstack := rfl

@[simp, grind =] theorem setCurrent_regs (m : Machine) (fs : List Frame) :
    (m.setCurrent fs).regs = m.regs := rfl

@[simp, grind =] theorem setCurrent_current (m : Machine) (fs : List Frame) :
    (m.setCurrent fs).current = fs := by
  simp [current, setCurrent]

/-- The CPU enters a handler through an interrupt gate. -/
def enter (m : Machine) (f : Context → Frame) : Machine :=
  match m.kstack with
  | [] => { m with
      k := { m.k with intr := false }
      kstack := [f (.user { m.regs with intr := m.k.intr })] }
  | fs => { m with k := { m.k with intr := false }, kstack := f (.kernel m.k.intr) :: fs }

/-- `iret` to a task leaves nothing on the kernel stack. -/
def iret (m : Machine) (rest : List Frame) : Context → Option Machine
  | .user regs => some { m with k := { m.k with intr := regs.intr }, kstack := [], regs := regs }
  | .kernel intr =>
      if rest = [] then none else some { m with k := { m.k with intr := intr }, kstack := rest }

/-- What follows a statement of a frame on the kernel stack, above `rest`. -/
def afterKernel (m : Machine) (rest : List Frame) : Next → Option Machine
  | .goto f => some { m with kstack := f :: rest }
  | .call f callee => some { m with kstack := callee :: f :: rest }
  | .int f call => some ({ m with kstack := f :: rest }.enter (.trap .enter call))
  | .write f block =>
      match rest with
      | [] => some ({ m with kstack := [f] }.setCurrent
          (m.current.modifyHead (.deliver (.ptr (some block)))))
      | g :: rest => some { m with kstack := f :: g.deliver (.ptr (some block)) :: rest }
  | .ret v => some { m with kstack := rest.modifyHead (.deliver v) }
  | .iret regs => m.iret rest regs

/-- What follows a statement of a frame of the running task, above `rest`. -/
def afterTask (m : Machine) (rest : List Frame) : Next → Option Machine
  | .goto f => some (m.setCurrent (f :: rest))
  | .call f callee => some (m.setCurrent (callee :: f :: rest))
  | .int f call => some ((m.setCurrent (f :: rest)).enter (.trap .enter call))
  | .write .. => none
  | .ret v => some (m.setCurrent (rest.modifyHead (.deliver v)))
  | .iret _ => none

def stmt (m : Machine) (block : Ptr32) : Option Machine :=
  match m.kstack, m.current with
  | f :: rest, _ => do
      let (k, next) ← exec block m.k f
      { m with k }.afterKernel rest next
  | [], f :: rest => do
      let (k, next) ← exec block m.k f
      { m with k }.afterTask rest next
  | [], [] => none

/-- The PIC delivers no interrupt while one as urgent awaits its end-of-interrupt. -/
def masks (m : Machine) (n : Irq) : Bool :=
  m.kstack.any fun f => f.unacked.any fun n' => n'.line ≤ n.line

def irq (m : Machine) (n : Irq) : Option Machine :=
  if m.k.intr ∧ ¬ m.masks n then
    some (({ m with kstack := m.kstack.modifyHead .wake } : Machine).enter (.irq .enter n))
  else none

/-- The CPU executes the code of a task, outside the kernel's functions. -/
def inTask (m : Machine) : Prop := m.kstack = [] ∧ m.current = []

instance (m : Machine) : Decidable m.inTask := instDecidableAnd

def call (m : Machine) : Call → Machine
  | .forbid => { m with k := m.k.forbid }
  | .yield => m.enter (.trap .enter .yield)
  | c => m.setCurrent c.frame.toList

def step (m : Machine) : Event → Option Machine
  | .stmt block => m.stmt block
  | .irq n => m.irq n
  | .call c => if m.inTask then some (m.call c) else none
  | .compute others => if m.inTask then some { m with regs := { m.regs with others } } else none
  | .store dest byte =>
      if m.inTask then some { m with k := m.k.store dest byte } else none
  | .keybd queue =>
      if m.inTask then some { m with k := { m.k with keybd_queue := queue } } else none

/-- The kernel as `init` leaves it before it creates tasks, in cleared memory. -/
def boot (kernel_task : Ptr32) : Machine where
  k :=
    { links := new_list (new_list (fun _ => .null) .tasks_ready) .tasks_wait
      task := fun t => ⟨0, .user ⟨0, true, 0⟩, if t = kernel_task then TS_READY ||| TS_RUN else 0,
          0, 0, 0⟩
      running_task := kernel_task
      wait_lock := 0
      forbid_counter := 0
      k_reenter := -1
      sched_state := 0
      system_tick := 0
      queue := fun _ => ⟨0, 0, 0, 0⟩
      msgs := fun _ => .null
      data_ptr := fun _ => none
      mem := fun _ _ => 0
      live := fun _ => false
      tasks := fun t => t = kernel_task
      queues := fun _ => false
      keybd_queue := 0
      devices := new_list (fun _ => .null) ()
      dev_name := fun _ => []
      intr := true }
  kstack := []
  regs := ⟨kernel_task, true, 0⟩
  ustack := fun _ => []

end Machine

end Krypton
