import Krypton.List
import Mathlib.Data.List.Perm.Subperm

/-! # The data of the kernel

The globals of `task.c`, the task structures, and the queues of `queue.c`.
Tasks, queues, messages and data blocks are known by the address `kmalloc`
returned for them. The list headers are `tasks_ready`, `tasks_wait` and the two
in each queue; the links of tasks and the links of messages are separate stores.

The `int` counters are integers: C leaves their overflow undefined.
-/

namespace Krypton

open LinkStore

/-- A 32-bit pointer. -/
abbrev Ptr32 := BitVec 32

def TS_RUN : BitVec 32 := 1#32
def TS_READY : BitVec 32 := 2#32

def TB_DELAY : BitVec 32 := 1#32
def TB_QUEUE : BitVec 32 := 2#32

def NEED_SCHEDULE : BitVec 32 := 1#32

/-- The headers that tasks are linked on. -/
inductive TaskList where
  | tasks_ready
  | tasks_wait
  | waiters (queue : Ptr32)
  deriving DecidableEq

/-- What a `registers_t` of a task holds: whose stack `esp` points into, the
    interrupt flag of `eflags`, and the other registers. -/
structure Regs where
  stack : Ptr32
  intr : Bool
  others : Nat
  deriving DecidableEq

/-- The state that an interrupt saves: a task's, or that of the kernel code it
    interrupted, of which only the interrupt flag is of interest. -/
inductive Context where
  | user (regs : Regs)
  | kernel (intr : Bool)
  deriving DecidableEq

structure Task where
  pri : Int
  task_state : Context
  flags : BitVec 32
  sigs_waiting : BitVec 32
  sigs_recvd : BitVec 32
  task_delay : BitVec 32

structure Queue where
  free_slots : BitVec 32
  max_slots : BitVec 32
  elem_sz : BitVec 32
  owner : Ptr32

structure Kernel where
  links : Store Ptr32 TaskList
  task : Ptr32 → Task
  running_task : Ptr32
  wait_lock : Int
  forbid_counter : Int
  k_reenter : Int
  sched_state : BitVec 32
  system_tick : BitVec 32
  queue : Ptr32 → Queue
  /-- the links of the messages and the headers `msg_list` -/
  msgs : Store Ptr32 Ptr32
  data_ptr : Ptr32 → Option Ptr32
  /-- the bytes of every block, by offset -/
  mem : Ptr32 → Nat → BitVec 8
  /-- the blocks that `kmalloc` has handed out -/
  live : Ptr32 → Bool
  /-- the tasks there are: `kernel_task` and those that `create_task` has filled in -/
  tasks : Ptr32 → Bool
  /-- the queues that `create_queue` has filled in and `destroy_queue` not cleared -/
  queues : Ptr32 → Bool
  /-- NULL until the console has registered the keyboard handler -/
  keybd_queue : Ptr32
  devices : Store Ptr32 Unit
  dev_name : Ptr32 → List (BitVec 8)
  /-- the interrupt flag of the CPU -/
  intr : Bool

/-- The state of a task that `TS_READY` tells. -/
def Task.ready (t : Task) : Bool := t.flags &&& TS_READY ≠ 0

namespace Kernel

/-- `task->field = ..` -/
def setTask (k : Kernel) (task : Ptr32) (f : Task → Task) : Kernel :=
  { k with task := Function.update k.task task (f (k.task task)) }

def setQueue (k : Kernel) (queue : Ptr32) (f : Queue → Queue) : Kernel :=
  { k with queue := Function.update k.queue queue (f (k.queue queue)) }

/-- `*dest = byte` -/
def store (k : Kernel) (dest : Ptr32 × Nat) (byte : BitVec 8) : Kernel :=
  { k with mem := Function.update k.mem dest.1 (Function.update (k.mem dest.1) dest.2 byte) }

@[simp] theorem setTask_self (k : Kernel) (task : Ptr32) (f : Task → Task) :
    (k.setTask task f).task task = f (k.task task) :=
  Function.update_self ..

@[simp] theorem setTask_other (k : Kernel) {task t : Ptr32} (f : Task → Task) (other : t ≠ task) :
    (k.setTask task f).task t = k.task t :=
  Function.update_of_ne other ..

/-- The priorities by which `enqueue` compares. -/
def pri (k : Kernel) (task : Ptr32) : Int := (k.task task).pri

/-- `enqueue(list, task)`; no list has more nodes than there are pointers. -/
def enqueueTask (k : Kernel) (list : TaskList) (task : Ptr32) : Option Kernel := do
  return { k with links := ← enqueue k.pri (2 ^ 32) k.links list task }

def removeTask (k : Kernel) (task : Ptr32) : Option Kernel := do
  return { k with links := ← remove k.links (.node task) }

def forbid (k : Kernel) : Kernel := { k with forbid_counter := k.forbid_counter + 1 }

/-- `forbid_counter--` -/
def lower (k : Kernel) : Kernel := { k with forbid_counter := k.forbid_counter - 1 }

/-- `permit()`, when nothing comes between its test and its decrement. -/
def permit (k : Kernel) : Kernel :=
  { k with
    forbid_counter := if k.forbid_counter > 0 then k.forbid_counter - 1 else k.forbid_counter }

theorem permit_lower {k : Kernel} (positive : k.forbid_counter > 0) : k.permit = k.lower := by
  simp only [permit, if_pos positive, lower]

theorem permit_self {k : Kernel} (low : ¬ k.forbid_counter > 0) : k.permit = k := by
  simp only [permit, if_neg low]

/-- The scheduler is asked for. -/
def need (k : Kernel) : Bool := k.sched_state &&& NEED_SCHEDULE ≠ 0

def setNeed (k : Kernel) : Kernel := { k with sched_state := k.sched_state ||| NEED_SCHEDULE }

/-- `schedule()`, which runs with interrupts off; true for `NEED_TASK_SWITCH`. -/
def schedule (k : Kernel) : Option (Kernel × Bool) :=
  if k.forbid_counter > 0 ∨ k.k_reenter > 0 then some (k, false)
  else do
    let k := { k with sched_state := k.sched_state &&& ~~~NEED_SCHEDULE }
    if (k.task k.running_task).ready then
      return (← k.enqueueTask .tasks_ready k.running_task, true)
    else return (k, true)

end Kernel

@[grind =] theorem setNeed_need (k : Kernel) : k.setNeed.need = true := by
  unfold Kernel.need Kernel.setNeed
  apply decide_eq_true
  intro none
  have bit := congrArg (BitVec.getLsbD · 0) none
  simp [NEED_SCHEDULE] at bit

/-- A list holds no more nodes than there are pointers. -/
theorem ptrs_length {xs : List Ptr32} (nodup : xs.Nodup) : xs.length ≤ 2 ^ 32 := by
  have inside : xs.map BitVec.toNat ⊆ List.range (2 ^ 32) := by
    intro n mem
    obtain ⟨x, -, rfl⟩ := List.mem_map.mp mem
    exact List.mem_range.mpr x.isLt
  have distinct : (xs.map BitVec.toNat).Nodup := nodup.map fun _ _ => BitVec.eq_of_toNat_eq
  have fewer := (distinct.subperm inside).length_le
  rwa [List.length_map, List.length_range] at fewer

end Krypton
