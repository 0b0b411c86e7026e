import Krypton.Kernel.Signals
import Krypton.Priorities

/-! # Which task is dispatched

The number of tasks that were put on `tasks_ready` before a task's last arrival
there is recorded beside the machine. `tasks_ready` is in the order of the
priorities and, within a priority, of these numbers, so that `switch_tasks` takes
the task that has waited longest among those of the highest priority.
-/

namespace Krypton

open LinkStore
open Operations (top top_kernel top_task enter_frames enter_k)

/-- `schedule` is called, and puts the running task back. -/
def Kernel.resumes (k : Kernel) : Bool :=
  k.need ∧ k.forbid_counter ≤ 0 ∧ k.k_reenter ≤ 0 ∧ (k.task k.running_task).ready

/-- The task that the next statement puts on `tasks_ready`. -/
def Frame.readies (k : Kernel) : Frame → Option Ptr32
  | .signal .enqueue t _ | .createTask .enqueue _ t => some t
  | .trap .sched .. | .irq .sched .. => if k.resumes then some k.running_task else none
  | _ => none

/-- The machine with the number of arrivals on `tasks_ready`, and of those before the last one
    of each task. -/
structure Dispatches where
  m : Machine
  since : Ptr32 → Nat
  count : Nat

namespace Dispatches

def readies (m : Machine) : Event → Option Ptr32
  | .stmt _ => (top m).bind (Frame.readies m.k)
  | _ => none

def stamp (since : Ptr32 → Nat) (count : Nat) : Option Ptr32 → Ptr32 → Nat
  | some t => Function.update since t count
  | none => since

def step (s : Dispatches) (e : Event) : Option Dispatches := do
  let arrives := readies s.m e
  return {
    m := ← s.m.step e
    since := stamp s.since s.count arrives
    count := s.count + arrives.toList.length }

/-- Every operation runs to its next yield, and every wait is for one signal. -/
def Ok (s : Dispatches) (e : Event) : Prop := Operations.Lawful s.m e ∧ Operations.Single s.m e

def Init (kernel_task : Ptr32) (s : Dispatches) : Prop := s = ⟨.boot kernel_task, fun _ => 0, 0⟩

/-- The task is of a higher priority, or of the same and came earlier. -/
def Precedes (pri : Ptr32 → Int) (since : Ptr32 → Nat) (t u : Ptr32) : Prop :=
  pri u < pri t ∨ pri u = pri t ∧ since t < since u

structure Fair (s : Dispatches) : Prop where
  sorted : ∃ xs, IsList s.m.k.links .tasks_ready xs ∧ xs.Pairwise (Precedes s.m.k.pri s.since)
  /-- when `switch_tasks` has set `running_task` -/
  chosen : ∀ cpu_context next_task rest,
      s.m.kstack = .switchTasks .restore cpu_context next_task :: rest →
    ∃ xs, IsList s.m.k.links .tasks_ready xs ∧ ∀ t ∈ xs,
        Precedes s.m.k.pri s.since s.m.k.running_task t

variable {pri : Ptr32 → Int} {since : Ptr32 → Nat} {count : Nat} {xs : List Ptr32} {t u : Ptr32}
variable {m m' : Machine} {e : Event} {f g : Frame} {rest : List Frame} {k k' : Kernel} {n : Next}
    {block : Ptr32}
variable {seqs : TaskList → List Ptr32} {s : Status} {aside : Bool}

/-! ## Arrivals -/

/-- The list is in order, and no number has been given out that is not below `count`. -/
structure Aged (pri : Ptr32 → Int) (since : Ptr32 → Nat) (count : Nat) (xs : List Ptr32) :
    Prop where
  order : xs.Pairwise (Precedes pri since)
  old : ∀ t ∈ xs, since t < count

theorem Aged.ordered (h : Aged pri since count xs) : xs.Pairwise fun t u => pri u ≤ pri t := by
  refine h.order.imp fun {t u} precedes => ?_
  rcases precedes with higher | ⟨same, -⟩ <;> omega

theorem Aged.sublist {ys : List Ptr32} (h : Aged pri since count xs) (sub : ys.Sublist xs) :
    Aged pri since count ys :=
  ⟨h.order.sublist sub, fun t mem => h.old t (sub.subset mem)⟩

/-- What arrives goes behind all that are not lower. -/
theorem Aged.insert (h : Aged pri since count xs) (fresh : t ∉ xs) :
    Aged pri (Function.update since t count) (count + 1) (insertPri pri t xs) := by
  have split := List.takeWhile_append_dropWhile (p := (pri t ≤ pri ·)) (l := xs)
  have same (u : Ptr32) (mem : u ∈ xs) : Function.update since t count u = since u := by
    refine Function.update_of_ne ?_ ..
    rintro rfl
    exact fresh mem
  have order : xs.Pairwise (Precedes pri (Function.update since t count)) := by
    refine h.order.imp_of_mem fun {u v} mem mem' precedes => ?_
    rw [Precedes, same u mem, same v mem']
    exact precedes
  have ordered := h.ordered
  constructor
  · rw [← split, List.pairwise_append] at order
    obtain ⟨front, back, across⟩ := order
    refine List.pairwise_append.mpr ⟨front, List.pairwise_cons.mpr ⟨fun u mem => ?_, back⟩,
        fun u mem v mem' => ?_⟩
    · exact .inl (dropWhile_lower pri ordered u mem)
    · cases mem' with
      | head =>
          have higher := takeWhile_higher pri u mem
          have old := h.old u ((List.takeWhile_sublist _).subset mem)
          rw [Precedes, Function.update_self, same u ((List.takeWhile_sublist _).subset mem)]
          omega
      | tail _ mem' => exact across u mem v mem'
  · intro u mem
    rcases (mem_insertPri pri).mp mem with rfl | old
    · simp
    · rw [same u old]
      exact Nat.lt_succ_of_lt (h.old u old)

theorem Aged.congr {pri' : Ptr32 → Int} (h : Aged pri since count xs)
    (same : ∀ t ∈ xs, pri' t = pri t) :
    Aged pri' since count xs := by
  refine ⟨h.order.imp_of_mem fun {t u} mem mem' precedes => ?_, h.old⟩
  rw [Precedes, same t mem, same u mem']
  exact precedes

/-! ## One statement -/

/-- What the next statement makes of `tasks_ready`. -/
def relist (k : Kernel) (xs : List Ptr32) (f : Frame) : List Ptr32 :=
  match f, f.readies k with
  | .switchTasks .remove _ t, _ => xs.erase t
  | _, some t => insertPri k.pri t xs
  | _, none => xs

theorem relist_stays (stays : f.relinks = false) : f.readies k = none ∧ relist k xs f = xs := by
  cases f with
  | signal pc | createTask pc | trap pc | irq pc | switchTasks pc =>
      cases pc <;> first | exact ⟨rfl, rfl⟩ | cases stays
  | _ => exact ⟨rfl, rfl⟩

/-- Only `create_task` writes a priority. -/
theorem exec_pri (run : exec block k f = some (k', n))
    (other : ∀ task_pri, f ≠ .createTask .init task_pri t) :
    k'.pri t = k.pri t := by
  have kept (u : Ptr32) {g : Task → Task} (same : ∀ x, (g x).pri = x.pri) :
      (k.setTask u g).pri t = k.pri t := by
    unfold Kernel.pri
    by_cases here : t = u
    · rw [here, Kernel.setTask_self, same]
    · rw [Kernel.setTask_other k g here]
  cases writes : f.retasks with
  | false => rw [Kernel.pri, (exec_effect run).task writes, Kernel.pri]
  | true =>
      cases f with
      | wait pc | signal pc | delay pc | switchTasks pc =>
          cases pc <;> first
            | (cases writes; done)
            | (cases run; exact kept _ fun _ => rfl)
      | createTask pc task_pri new_task =>
          cases pc with
          | init =>
              have away : t ≠ new_task := by
                rintro rfl
                exact other task_pri rfl
              cases run
              rw [Kernel.pri, Kernel.setTask_other _ _ away, Kernel.pri]
          | _ => cases writes
      | timerCallback pc task =>
          cases pc with
          | count =>
              cases task with
              | node task =>
                  cases run
                  exact kept _ fun _ => rfl
              | _ => cases run
          | _ => cases writes
      | _ => cases writes

/-- The headers of a queue are not those of `tasks_ready`. -/
theorem ready_cleared {q : Ptr32} (h : IsList k.links .tasks_ready xs) :
    IsList (k.clearQueue q).links .tasks_ready xs := by
  refine h.frame fun w own => ?_
  cases w with
  | next t | prev t => simp [Kernel.clearQueue]
  | head l | tail l | tailPrev l =>
      obtain rfl : l = .tasks_ready := own
      simp [Kernel.clearQueue]

theorem ready_opened {q : Ptr32} {links : Store Ptr32 TaskList} (h : IsList links .tasks_ready xs) :
    IsList (new_list links (.waiters q)) .tasks_ready xs := by
  refine h.frame fun w own => ?_
  cases w with
  | next t | prev t => simp [new_list]
  | head l | tail l | tailPrev l =>
      obtain rfl : l = .tasks_ready := own
      simp [new_list]

theorem enqueue_ready (lists : Lists k.links k.Used seqs) (fresh : ∀ l, t ∉ seqs l)
    (run : k.enqueueTask .tasks_ready t = some k') :
    IsList k'.links .tasks_ready (insertPri k.pri t (seqs .tasks_ready)) := by
  obtain ⟨links, rfl, lists'⟩ := enqueueTask_spec (l := .tasks_ready) lists trivial fresh run
  have list := lists'.each .tasks_ready trivial
  rwa [put, Function.update_self] at list

theorem sched_ready {f' : Frame} {c : Context} (lists : Lists k.links k.Used seqs)
    (free : k.resumes → ∀ l, k.running_task ∉ seqs l) (run : execSched k f' c = some (k', n)) :
    (k.resumes →
        IsList k'.links .tasks_ready (insertPri k.pri k.running_task (seqs .tasks_ready))) ∧
      (¬ k.resumes → IsList k'.links .tasks_ready (seqs .tasks_ready)) := by
  have list := lists.each .tasks_ready trivial
  unfold execSched at run
  split at run
  · rename_i need
    obtain ⟨⟨k₁, switch⟩, scheduled, same⟩ := Option.bind_eq_some_iff.mp run
    have links : k' = k₁ := by
      cases switch <;> cases same <;> rfl
    subst links
    unfold Kernel.schedule at scheduled
    split at scheduled
    · rename_i held
      cases scheduled
      refine ⟨fun resumes => ?_, fun _ => list⟩
      obtain ⟨-, low, outer, -⟩ := of_decide_eq_true resumes
      omega
    · rename_i allowed
      simp only at scheduled
      split at scheduled
      · rename_i ready
        obtain ⟨k₂, entered, same⟩ := Option.bind_eq_some_iff.mp scheduled
        cases same
        have resumes : k.resumes := decide_eq_true ⟨need, by omega, by omega, ready⟩
        exact ⟨fun _ =>
            enqueue_ready (k := { k with sched_state := k.sched_state &&& ~~~NEED_SCHEDULE }) lists
            (free resumes) entered, absurd resumes⟩
      · rename_i asleep
        cases scheduled
        exact ⟨fun resumes => absurd (of_decide_eq_true resumes).2.2.2 asleep, fun _ => list⟩
  · rename_i idle
    cases run
    exact ⟨fun resumes => absurd (of_decide_eq_true resumes).1 idle, fun _ => list⟩

/-- The running task goes to another list. -/
theorem wait_ready {sigs : BitVec 32} {l : TaskList}
    (h : Placed k seqs s (Frame.wait .enqueue sigs l).window)
    (orderly : Orderly aside k (.wait .enqueue sigs l))
    (run : execWait k sigs l .enqueue = some (k', n)) :
    IsList k'.links .tasks_ready (seqs .tasks_ready) := by
  obtain ⟨used, other⟩ := orderly rfl
  obtain ⟨k₁, entered, same⟩ := Option.bind_eq_some_iff.mp run
  cases same
  have stands := h.stands
  obtain rfl : s = .free := h.ahead
  obtain ⟨links, rfl, lists⟩ := enqueueTask_spec h.lists used stands.1 entered
  have here := lists.each .tasks_ready trivial
  rwa [put, Function.update_of_ne (Ne.symm other)] at here

/-- The task that `signal` wakes leaves another list. -/
theorem signal_ready {sigs : BitVec 32}
    (h : Placed k seqs s (Frame.signal .remove t sigs).window)
    (asleep : Operations.Asleep k (Frame.signal .remove t sigs).window)
    (run : execSignal k t sigs .remove = some (k', n)) :
    IsList k'.links .tasks_ready (seqs .tasks_ready) := by
  obtain ⟨k₁, removed, same⟩ := Option.bind_eq_some_iff.mp run
  cases same
  obtain ⟨l, xs, ys, cut, placed⟩ := h.removed (.inl rfl) removed
  have mem : t ∈ seqs l := cut ▸ List.mem_append_right xs List.mem_cons_self
  have other : l ≠ .tasks_ready := by
    rintro rfl
    exact asleep t _ (.inr rfl) (h.lists.each .tasks_ready trivial) mem
  have here := placed.lists.each .tasks_ready trivial
  rwa [Function.update_of_ne (Ne.symm other)] at here

/-- The next task leaves `tasks_ready`. -/
theorem switch_ready {c : Context} (h : Placed k seqs s (Frame.switchTasks .remove c t).window)
    (run : execSwitch k c t .remove = some (k', n)) :
    IsList k'.links .tasks_ready ((seqs .tasks_ready).erase t) := by
  obtain ⟨k₁, removed, same⟩ := Option.bind_eq_some_iff.mp run
  cases same
  obtain ⟨l, xs, ys, cut, placed⟩ := h.removed (.inr rfl) removed
  have here := placed.lists.each .tasks_ready trivial
  rwa [← h.lists.erase_cut cut] at here

/-- `tasks_ready` after a statement. -/
theorem exec_ready (h : Placed k seqs s f.window) (orderly : Orderly aside k f)
    (asleep : Operations.Asleep k f.window)
    (free : f.tests → k.resumes → ∀ l, k.running_task ∉ seqs l)
    (run : exec block k f = some (k', n)) :
    IsList k'.links .tasks_ready (relist k (seqs .tasks_ready) f) ∧
      ∀ t, f.readies k = some t → t ∉ seqs .tasks_ready := by
  have list := h.lists.each .tasks_ready trivial
  cases links : f.relinks with
  | false =>
      obtain ⟨none, stays⟩ : _ ∧ relist k (seqs .tasks_ready) f = _ := relist_stays links
      rw [stays, (exec_effect run).links links]
      exact ⟨list, fun t same => by simp [none] at same⟩
  | true =>
      cases f with
      | wait pc sigs l =>
          cases pc with
          | enqueue => exact ⟨wait_ready h orderly run, fun t => nofun⟩
          | _ => cases links
      | signal pc t sigs =>
          cases pc with
          | remove => exact ⟨signal_ready h asleep run, fun t => nofun⟩
          | enqueue =>
              obtain ⟨k₁, entered, same⟩ := Option.bind_eq_some_iff.mp run
              cases same
              obtain ⟨-, fresh, -⟩ := h.ahead
              refine ⟨enqueue_ready h.lists fresh entered, fun u same => ?_⟩
              cases same
              exact fresh _
          | _ => cases links
      | createTask pc task_pri t =>
          cases pc with
          | enqueue =>
              obtain ⟨k₁, entered, same⟩ := Option.bind_eq_some_iff.mp run
              cases same
              obtain ⟨-, fresh, -⟩ := h.ahead
              refine ⟨enqueue_ready h.lists fresh entered, fun u same => ?_⟩
              cases same
              exact fresh _
          | _ => cases links
      | createQueue pc =>
          cases pc with
          | init =>
              cases run
              exact ⟨ready_opened (ready_cleared list), fun t => nofun⟩
          | _ => cases links
      | destroyQueue pc =>
          cases pc with
          | clear =>
              cases run
              exact ⟨ready_cleared list, fun t => nofun⟩
          | _ => cases links
      | trap pc | irq pc =>
          cases pc with
          | sched =>
              obtain ⟨resumes, stays⟩ := sched_ready h.lists (free rfl) run
              by_cases again : k.resumes
              · refine ⟨by simpa [relist, Frame.readies, again] using resumes again,
                    fun u same => ?_⟩
                obtain rfl : k.running_task = u := by simpa [Frame.readies, again] using same
                exact free rfl again .tasks_ready
              · exact ⟨by simpa [relist, Frame.readies, again] using stays again,
                    by simp [Frame.readies, again]⟩
          | _ => cases links
      | switchTasks pc c t =>
          cases pc with
          | remove => exact ⟨switch_ready h run, fun t => nofun⟩
          | _ => cases links
      | _ => cases links

/-- The task that `switch_tasks` has taken from `tasks_ready`. -/
def taken (k : Kernel) : Frame → Option Ptr32
  | .switchTasks .setRunning _ t => some t
  | .switchTasks .setRun .. | .switchTasks .restore .. => some k.running_task
  | _ => none

section Statement

variable (h : Placed k seqs s f.window) (orderly : Orderly aside k f)
    (run : exec block k f = some (k', n))

include h orderly run

/-- The tasks in `tasks_ready` keep their priorities. -/
theorem ready_pri : ∀ t ∈ seqs .tasks_ready, k'.pri t = k.pri t := by
  intro t mem
  refine exec_pri run ?_
  rintro task_pri rfl
  have known := h.known _ t mem
  rw [orderly rfl] at known
  cases known

omit orderly in
theorem arrival_pri (arrives : f.readies k = some t) : k'.pri = k.pri := by
  have tasks : f.retasks = false := by
    cases f with
    | signal pc | createTask pc | trap pc | irq pc | switchTasks pc =>
        cases pc <;> first | rfl | cases arrives
    | _ => first | rfl | cases arrives
  unfold Kernel.pri
  rw [(exec_effect run).task tasks]

theorem exec_aged (asleep : Operations.Asleep k f.window)
    (free : f.tests → k.resumes → ∀ l, k.running_task ∉ seqs l)
    (aged : Aged k.pri since count (seqs .tasks_ready)) :
    Aged k'.pri (stamp since count (f.readies k)) (count + (f.readies k).toList.length)
        (relist k (seqs .tasks_ready) f) := by
  obtain ⟨-, fresh⟩ := exec_ready h orderly asleep free run
  cases arrives : f.readies k with
  | some t =>
      have same : relist k (seqs .tasks_ready) f = insertPri k.pri t (seqs .tasks_ready) := by
        unfold relist
        split
        · cases arrives
        · next u again => rw [Option.some.inj (again.symm.trans arrives)]
        · next again => simp [arrives] at again
      rw [same, arrival_pri h run arrives]
      exact aged.insert (fresh t arrives)
  | none =>
      have kept := aged.congr (ready_pri h orderly run)
      unfold relist
      split
      · exact kept.sublist List.erase_sublist
      · next u again => simp [arrives] at again
      · exact kept

/-- The task that `switch_tasks` has taken comes before those that it has left. -/
theorem exec_ahead {f' : Frame} (aged : Aged k.pri since count (seqs .tasks_ready))
    (ahead : ∀ t, taken k f = some t → ∀ u ∈ seqs .tasks_ready, Precedes k.pri since t u)
    (goto : n = .goto f') (takes : taken k' f' = some t) :
    ∀ u ∈ relist k (seqs .tasks_ready) f,
        Precedes k'.pri (stamp since count (f.readies k)) t u := by
  subst goto
  have same := (exec_effect run).next.1
  cases f with
  | switchTasks pc c next_task =>
      cases pc with
      | remove =>
          obtain ⟨k₁, removed, both⟩ := Option.bind_eq_some_iff.mp run
          cases both
          cases takes
          have pri : k'.pri = k.pri := by
            unfold Kernel.pri
            rw [(exec_effect run).task rfl]
          intro u mem
          have first : (seqs .tasks_ready).head? = some t := h.ahead
          obtain ⟨rest, list⟩ := List.head?_eq_some_iff.mp first
          have order := aged.order
          have left : u ∈ (seqs .tasks_ready).erase t := mem
          rw [list] at order left
          rw [List.erase_cons_head] at left
          rw [pri]
          exact (List.pairwise_cons.mp order).1 u left
      | setRunning =>
          obtain ⟨rfl, goes⟩ := Operations.setRunning_spec run
          cases goes
          cases takes
          exact ahead _ rfl
      | setRun =>
          intro u mem
          have pri := ready_pri h orderly run u mem
          have mine : k'.pri k.running_task = k.pri k.running_task := exec_pri run (by simp)
          have same : t = k.running_task := by
            cases run
            cases takes
            rfl
          have old := ahead _ rfl u mem
          rw [Precedes] at old
          rw [same, Precedes, mine, pri]
          exact old
      | test =>
          simp only [exec, execSwitch] at run
          split at run <;> cases run <;> cases takes
      | restore => cases run
      | save | enable | hlt =>
          cases run
          cases takes
      | halted => cases run
  | _ => cases f' <;> first | cases takes | cases same

end Statement

/-! ## Runs -/

structure Inv (s : Dispatches) : Prop where
  single : Operations.Single.Inv s.m
  aged : ∀ xs, IsList s.m.k.links .tasks_ready xs → Aged s.m.k.pri s.since s.count xs
  ahead : ∀ t ∈ (top s.m).bind (taken s.m.k), ∀ xs, IsList s.m.k.links .tasks_ready xs →
    ∀ u ∈ xs, Precedes s.m.k.pri s.since t u

theorem Inv.fair {s : Dispatches} (h : Inv s) : Fair s := by
  obtain ⟨seqs, status, -, placed⟩ := h.single.inv.placed
  have list := placed.lists.each .tasks_ready trivial
  refine ⟨⟨_, list, (h.aged _ list).order⟩, fun c t rest stack => ⟨_, list, ?_⟩⟩
  exact h.ahead s.m.k.running_task (by simp [top_kernel stack, taken]) _ list

/-- A handler that is about to put the running task back has interrupted it. -/
theorem sched_free (h : Operations.Inv m) (placed : Placed m.k seqs s (Operations.hands m)) 
    (fits : Operations.Fits m s) (stack : m.kstack = f :: rest) (tests : f.tests)
    (resumes : m.k.resumes) (l : TaskList) :
    m.k.running_task ∉ seqs l := by
  obtain ⟨-, -, low, ready⟩ := of_decide_eq_true resumes
  cases fits with
  | task out | leaves out => simp [stack] at out
  | yields =>
      have asleep : (m.k.task m.k.running_task).ready = false := placed.stands
      rw [asleep] at ready
      cases ready
  | handler => exact placed.stands.1 l
  | switching fs pc c t e inside =>
      cases fs with
      | nil =>
          obtain ⟨rfl, -⟩ := List.cons.inj (stack.symm.trans inside)
          cases tests
      | cons g gs =>
          -- the handler has ended a hlt of the idle loop, inside another one
          rw [List.cons_append] at inside
          obtain ⟨rfl, rfl⟩ := List.cons.inj (stack.symm.trans inside)
          have active : e.active := by
            refine (h.still.below e (by simp [stack])).entry (h.still.rooted e ?_)
            simp [stack, List.getLast?_cons, List.getLast?_append]
          have mine := tests_active tests
          have reenter := h.nested.reenter
          simp only [stack, List.countP_cons, List.countP_append, mine, active, if_true] at reenter
          omega
  | switched pc c t e inside =>
      obtain ⟨rfl, -⟩ := List.cons.inj (stack.symm.trans inside)
      cases tests

theorem taken_plain (plain : f.isSwitch = false) : taken k f = none := by
  cases f <;> first | rfl | cases plain

theorem taken_deliver (v : Value) : taken k (f.deliver v) = taken k f := by
  unfold Frame.deliver
  split <;> rfl

/-- A function that calls another, ends or is interrupted has not taken a task. -/
theorem next_taken (run : exec block k f = some (k', n)) (left : Operations.goes n = none) :
    ∀ g ∈ n.frames, taken k' g = none := by
  have belongs := (exec_effect run).next
  cases switch : f.isSwitch with
  | true =>
      cases f with
      | switchTasks pc c t =>
          cases pc with
          | restore =>
              cases run
              simp [Next.frames]
          | test =>
              simp only [exec, execSwitch] at run
              split at run <;> cases run <;> cases left
          | remove =>
              obtain ⟨k₁, -, both⟩ := Option.bind_eq_some_iff.mp run
              cases both
              cases left
          | halted => cases run
          | setRunning =>
              obtain ⟨-, rfl⟩ := Operations.setRunning_spec run
              cases left
          | save | enable | hlt | setRun =>
              cases run
              cases left
      | _ => cases switch
  | false =>
      have same (f' : Frame) (fn : f'.fn = f.fn) : taken k' f' = none :=
        taken_plain ((same_isSwitch fn).trans switch)
      intro g mem
      cases n with
      | goto f' => cases left
      | int f' c | write f' b =>
          cases List.mem_singleton.mp mem
          exact same _ belongs.1
      | call f' callee =>
          simp only [Next.frames, List.mem_cons, List.not_mem_nil, or_false] at mem
          rcases mem with rfl | rfl
          · cases inside : g.isSwitch with
            | false => exact taken_plain inside
            | true =>
                have tests := ((exec_effect run).switch f' g rfl inside).1
                obtain ⟨h, c, sched⟩ := tests_sched tests run
                rcases sched_spec sched with ⟨goto, -⟩ | ⟨called, -⟩
                · cases goto
                · cases called
                  rfl
          · exact same _ belongs.1
      | ret v | iret regs => cases mem

/-- The code of a task takes no task from a list. -/
theorem top_taken (nested : Nested m) (kernel : ∀ g ∈ m.kstack, taken k g = none) :
    ∀ g ∈ top m, taken k g = none := by
  intro g here
  cases stack : m.kstack with
  | nil =>
      have mem : g ∈ m.current := by
        simp only [top, stack] at here
        exact List.mem_of_mem_head? here
      have library := nested.library m.regs.stack g mem
      exact taken_plain (by cases g <;> first | rfl | cases library)
  | cons f fs =>
      rw [top_kernel stack] at here
      cases here
      exact kernel g (by simp [stack])

variable {d d' : Dispatches}

theorem enter_taken {F : Context → Frame} (plain : ∀ c, (F c).isSwitch = false) :
    ∀ g ∈ top (m.enter F), taken (m.enter F).k g = none := by
  obtain ⟨c, kstack⟩ := enter_frames m F
  rw [top_kernel kstack]
  simpa using taken_plain (plain c)

/-- Where no task arrives and `tasks_ready` stays as it is. -/
theorem Inv.quiet (h : Inv d) (next : Operations.Single.Inv m') (links : m'.k.links = d.m.k.links)
    (pri : m'.k.pri = d.m.k.pri) (untaken : ∀ g ∈ top m', taken m'.k g = none) :
    Inv { d with m := m' } := by
  refine ⟨next, fun xs list => ?_, fun t taken => ?_⟩
  · rw [pri]
    exact h.aged xs (links ▸ list)
  · obtain ⟨g, here, takes⟩ := Option.bind_eq_some_iff.mp taken
    rw [untaken g here] at takes
    cases takes

theorem statement_inv (h : Inv d) (next : Operations.Single.Inv m') (here : top d.m = some f)
    (aimed : Operations.Ok d.m (.stmt block))
    (tests : f.tests → ∃ rest, d.m.kstack = f :: rest) (run : exec block d.m.k f = some (k, n))
    (same : ∃ intr, m'.k = { k with intr }) (goto : ∀ f', n = .goto f' → top m' = some f')
    (left : Operations.goes n = none → ∀ g ∈ top m', taken k g = none) :
    Inv ⟨m', stamp d.since d.count (f.readies d.m.k),
        d.count + (f.readies d.m.k).toList.length⟩ := by
  obtain ⟨seqs, s, fits, placed⟩ := h.single.inv.placed
  obtain ⟨intr, same⟩ := same
  have window : Operations.hands d.m = f.window := by
    rw [Operations.hands, here]
  have free (tested : f.tests) (resumes : d.m.k.resumes) (l : TaskList) :
      d.m.k.running_task ∉ seqs l := by
    obtain ⟨rest, stack⟩ := tests tested
    exact sched_free h.single.inv placed fits stack tested resumes l
  have orderly := aimed f here
  have asleep := h.single.asleep
  rw [window] at placed asleep
  have list := placed.lists.each .tasks_ready trivial
  have aged := h.aged _ list
  have list' := (exec_ready placed orderly asleep free run).1
  have aged' := exec_aged placed orderly run asleep free aged
  refine ⟨next, fun xs list => ?_, fun t takes xs list => ?_⟩
  · rw [same] at list ⊢
    rw [list.inj list']
    exact aged'
  · obtain ⟨g, here', takes⟩ := Option.bind_eq_some_iff.mp takes
    rw [same] at list takes ⊢
    rw [list.inj list']
    have ahead (t : Ptr32) (takes : taken d.m.k f = some t) : ∀ u ∈ seqs .tasks_ready,
        Precedes d.m.k.pri d.since t u :=
      h.ahead t (by simp [here, takes]) _ (placed.lists.each .tasks_ready trivial)
    cases n with
    | goto f' =>
        obtain rfl := Option.some.inj ((goto f' rfl).symm.trans here')
        have old := exec_ahead placed orderly run aged ahead rfl takes
        exact old
    | _ =>
        have none := left rfl g here'
        exact absurd (none.symm.trans takes) (by simp)

/-- A statement, wherever it is executed. -/
theorem left_taken (h : Operations.Inv m) (next : Nested m') (stack : m.kstack = f :: rest)
    (run : exec block m.k f = some (k, n))
    (after : ({ m with k } : Machine).afterKernel rest n = some m')
    (left : Operations.goes n = none) : ∀ g ∈ top m', taken k g = none := by
  refine top_taken next (kernel_frames (fun v g _ => ?_) (fun g mem => ?_) (next_taken run left)
      (fun _ _ _ _ => rfl) after)
  · rw [taken_deliver]
    exact id
  · rcases Operations.below_test h stack g mem with plain | ⟨c, t, rfl⟩
    · exact taken_plain plain
    · rfl

theorem inv_step (h : Inv d) (ok : Ok d e) (step : step d e = some d') : Inv d' := by
  obtain ⟨m', stepped, same⟩ := Option.bind_eq_some_iff.mp step
  cases same
  have next := h.single.step ok.1 ok.2 stepped
  have orderly := h.single.ok ok.1
  have untaken (user : m'.inTask) :
      ∀ g ∈ top m', taken m'.k g = none := by simp [Operations.top_user user]
  cases stepped_of_step stepped with
  | @kernel f rest block k n _ stack run after =>
      have here := top_kernel stack
      have arrives : readies d.m (.stmt block) = f.readies d.m.k := by simp [readies, here]
      rw [arrives]
      refine statement_inv h next here orderly (fun _ => ⟨rest, stack⟩) run (afterKernel_k after) ?_
        (left_taken h.single.inv next.inv.nested stack run after)
      rintro f' rfl
      cases after
      rfl
  | @task f rest block k n _ out stack run after =>
      have here := top_task out stack
      have arrives : readies d.m (.stmt block) = f.readies d.m.k := by simp [readies, here]
      have library : f.library := h.single.inv.nested.library d.m.regs.stack f (by
        have current : d.m.ustack d.m.regs.stack = f :: rest := stack
        simp [current])
      obtain ⟨-, -, same, shape⟩ := afterTask_spec out after
      rw [arrives]
      refine statement_inv h next here orderly (fun tests => ?_) run same ?_ ?_
      · cases f <;> first | cases tests | cases library
      · rintro f' rfl
        cases after
        simp [top, out]
      · refine fun _ => top_taken next.inv.nested ?_
        rcases shape with empty | ⟨call, c, trap⟩
        · simp [empty]
        · simp [trap, taken]
  | irq on unmasked =>
      exact h.quiet next (by rw [enter_k]) (by rw [enter_k]; rfl) (enter_taken fun c => rfl)
  | call user c =>
      have inside : ∀ fs, ∀ g ∈ (d.m.setCurrent fs).kstack, taken d.m.k g = none := by simp [user.1]
      cases c with
      | yield =>
          exact h.quiet next (by rw [Machine.call, enter_k]) (by rw [Machine.call, enter_k]; rfl)
              (enter_taken fun c => rfl)
      | forbid => exact h.quiet next rfl rfl (untaken user)
      | _ => exact h.quiet next rfl rfl (top_taken next.inv.nested (inside _))
  | compute user others => exact h.quiet next rfl rfl (untaken user)
  | store user dest byte => exact h.quiet next rfl rfl (untaken user)
  | keybd user queue => exact h.quiet next rfl rfl (untaken user)

theorem boot_inv (kernel_task : Ptr32) : Inv ⟨.boot kernel_task, fun _ => 0, 0⟩ := by
  have list := (Operations.boot_placed kernel_task).lists.each .tasks_ready trivial
  refine ⟨Operations.Single.boot kernel_task, fun xs list' => ?_, fun t takes => ?_⟩
  · rw [list'.inj list]
    exact ⟨.nil, by simp⟩
  · cases takes

/-- `tasks_ready` is in the order of the priorities and, among equals, of the arrivals, and the task
    that `switch_tasks` takes comes before all that it leaves there. -/
theorem dispatches_fair {kernel_task : Ptr32} (reached : Runs.Reach step Ok (Init kernel_task) d) :
    Fair d := by
  have inv : Inv d := by
    refine reached.invariant ?_ fun _ _ _ h ok step => inv_step h ok step
    rintro d rfl
    exact boot_inv kernel_task
  exact inv.fair

instance (d : Dispatches) (e : Event) : Decidable (Ok d e) := instDecidableAnd

/-- The kernel task creates the tasks 8 and 16, of one priority that is higher than its own, and
    yields. -/
def equals : List Event :=
  [.call (.createTask 1)] ++ List.replicate 8 (.stmt 8) ++ List.replicate 14 (.stmt 12) ++
    [.call (.createTask 1)] ++ List.replicate 8 (.stmt 16) ++ List.replicate 14 (.stmt 20) ++
    [.call .yield] ++ List.replicate 11 (.stmt 0)

/-- The task 8 has been taken, and the task 16 is still ready. -/
theorem dispatches_fair_equals : ∃ d : Dispatches,
    Runs.run step ⟨.boot 4, fun _ => 0, 0⟩ equals = some d ∧ d.m.k.running_task = 8 ∧
    get_head d.m.k.links .tasks_ready = some (.node 16) ∧ Fair d := by
  have meets : Runs.Meets step Ok ⟨.boot 4, fun _ => 0, 0⟩ equals := by decide +kernel
  have start : Runs.Reach step Ok (Init 4) ⟨.boot 4, fun _ => 0, 0⟩ := .start rfl
  have ends : (Runs.run step ⟨.boot 4, fun _ => 0, 0⟩ equals).any (fun d =>
      d.m.k.running_task = 8 ∧
          get_head d.m.k.links .tasks_ready = some (.node 16)) := by decide +kernel
  obtain ⟨d, run, ends⟩ := (Option.any_eq_true _ _).mp ends
  obtain ⟨runs, left⟩ := of_decide_eq_true ends
  exact ⟨d, run, runs, left, dispatches_fair (start.of_run meets run)⟩

end Dispatches

end Krypton
