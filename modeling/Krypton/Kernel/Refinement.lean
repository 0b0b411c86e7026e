import Krypton.Foundations.Simulation
import Krypton.Kernel.Dispatch
import Krypton.Kernel.Scheduler

/-! # The kernel is a priority scheduler

In runs whose operations keep to themselves, with waits for one signal, every
statement and every interrupt is one step of the scheduler or none: of all that
`wait`, `signal`, `create_task`, `schedule` and `switch_tasks` do, the statement
that links or unlinks the task is the one that counts.
-/

namespace Krypton

open LinkStore
open Operations (top top_kernel top_task enter_frames enter_k hands goes)
open Relation (ReflGen)

/-- What a task can wait on. -/
abbrev WaitList := {l : TaskList // l ≠ .tasks_ready}

/-- The task that is to be ready, while it is in no list. -/
def Frame.entering : Frame → Option Ptr32
  | .signal .enqueue t _ | .createTask .forbid _ t | .createTask .enqueue _ t => some t
  | _ => none

namespace Refinement

/-- The ready tasks, with one that is not linked yet. -/
def arrived (pri : Ptr32 → Int) (o : Option Ptr32) (xs : List Ptr32) : List Ptr32 :=
  o.elim xs fun t => insertPri pri t xs

/-- What the data of the kernel says of the places of the tasks. -/
structure Represents (m : Machine) (a : Scheduler Ptr32 WaitList) : Prop where
  pri : a.pri = m.k.pri
  known : ∀ t, a.place t = none ↔ m.k.tasks t = false
  waiting : ∀ (l : WaitList) t, a.place t = some (.waiting l) ↔
    m.k.Used l ∧ ∃ xs, IsList m.k.links l.1 xs ∧ t ∈ xs
  ready : ∃ xs, IsList m.k.links .tasks_ready xs ∧
      a.ready = arrived m.k.pri ((top m).bind Frame.entering) xs
  running : m.inTask → a.place m.k.running_task = some .running

/-- The same, by the sequences of the lists. -/
structure Shows (k : Kernel) (seqs : TaskList → List Ptr32) (o : Option Ptr32)
    (a : Scheduler Ptr32 WaitList) :
    Prop where
  pri : a.pri = k.pri
  known : ∀ t, a.place t = none ↔ k.tasks t = false
  waiting : ∀ (l : WaitList) t, a.place t = some (.waiting l) ↔ t ∈ seqs l
  ready : a.ready = arrived k.pri o (seqs .tasks_ready)

variable {m m' : Machine} {e : Event} {f g : Frame} {rest : List Frame} {k k' : Kernel} {n : Next}
variable {seqs seqs' : TaskList → List Ptr32} {s : Status} {w : Window} {o : Option Ptr32}
    {block t u : Ptr32}
variable {aside : Bool}
variable {a b : Scheduler Ptr32 WaitList} {pri : Ptr32 → Int} {xs : List Ptr32}

theorem mem_arrived : t ∈ arrived pri o xs ↔ o = some t ∨ t ∈ xs := by
  cases o with
  | none => simp [arrived]
  | some u => simp [arrived, eq_comm]

/-- A task in no list runs, when it is not about to be ready. -/
theorem Shows.runs (h : Shows k seqs o a) (known : k.tasks t) (out : ∀ l, t ∉ seqs l)
    (other : o ≠ some t) :
    a.place t = some .running := by
  cases place : a.place t with
  | none =>
      rw [(h.known t).mp place] at known
      cases known
  | some p =>
      cases p with
      | running => rfl
      | ready =>
          rw [← a.mem_ready, h.ready, mem_arrived] at place
          exact absurd place (not_or.mpr ⟨other, out _⟩)
      | waiting l => exact absurd ((h.waiting l t).mp place) (out l)

/-- No task runs while all are in lists. -/
theorem Shows.idle (h : Shows k seqs o a) (linked : ∀ t, k.tasks t → ∃ l, t ∈ seqs l) (t : Ptr32) :
    a.place t ≠ some .running := by
  intro runs
  have known : k.tasks t := by
    cases task : k.tasks t with
    | true => rfl
    | false =>
        rw [(h.known t).mpr task] at runs
        cases runs
  obtain ⟨l, mem⟩ := linked t known
  by_cases ready : l = .tasks_ready
  · subst ready
    have place : a.place t = some .ready := by
      rw [← a.mem_ready, h.ready, mem_arrived]
      exact .inr mem
    rw [place] at runs
    cases runs
  · have place := (h.waiting ⟨l, ready⟩ t).mpr mem
    rw [place] at runs
    cases runs

theorem lists_unique {links : Store Ptr32 TaskList} {live : TaskList → Prop}
    (h : Lists links live seqs)
    (h' : Lists links live seqs') : seqs = seqs' := by
  funext l
  by_cases used : live l
  · exact (h.each l used).inj (h'.each l used)
  · rw [h.unused l used, h'.unused l used]

theorem Represents.shows (h : Represents m a) (lists : Lists m.k.links m.k.Used seqs) :
    Shows m.k seqs ((top m).bind Frame.entering) a := by
  refine ⟨h.pri, h.known, fun l t => ?_, ?_⟩
  · rw [h.waiting]
    constructor
    · rintro ⟨used, xs, list, mem⟩
      exact list.inj (lists.each l used) ▸ mem
    · intro mem
      have used := lists.live_of_mem mem
      exact ⟨used, _, lists.each l used, mem⟩
  · obtain ⟨xs, list, same⟩ := h.ready
    rw [same, list.inj (lists.each .tasks_ready trivial)]

theorem Shows.represents (inv : Operations.Inv m) (lists : Lists m.k.links m.k.Used seqs)
    (h : Shows m.k seqs ((top m).bind Frame.entering) a) : Represents m a := by
  refine ⟨h.pri, h.known, fun l t => ?_, ⟨_, lists.each .tasks_ready trivial, h.ready⟩,
      fun user => ?_⟩
  · rw [h.waiting]
    constructor
    · intro mem
      have used := lists.live_of_mem mem
      exact ⟨used, _, lists.each l used, mem⟩
    · rintro ⟨used, xs, list, mem⟩
      exact list.inj (lists.each l used) ▸ mem
  · obtain ⟨seqs', placed⟩ := inv.user user
    obtain rfl := lists_unique lists placed.lists
    exact h.runs placed.runs placed.stands.1 (by simp [Operations.top_user user])

/-! ## The steps of the scheduler -/

theorem Shows.creates (h : Shows k seqs none a) (k' : Kernel) (fresh : k.tasks t = false)
    (out : ∀ l, t ∉ seqs l) {p : Int}
    (pri : k'.pri = Function.update k.pri t p) (tasks : k'.tasks = Function.update k.tasks t true) :
    ∃ b, ReflGen Scheduler.Step a b ∧ Shows k' seqs (some t) b := by
  have none := (h.known t).mpr fresh
  have same : (a.create t p none).pri = k'.pri := by
    rw [pri, ← h.pri]
    rfl
  refine ⟨_, .single (.create t p none), same, fun u => ?_, fun l u => ?_, ?_⟩
  · by_cases here : u = t
    · simp [Scheduler.create, Scheduler.arrive, here, tasks]
    · simpa [Scheduler.create, Scheduler.arrive, Scheduler.declare, Function.update_of_ne here,
          tasks]
        using h.known u
  · by_cases here : u = t
    · simpa [Scheduler.create, Scheduler.arrive, here] using out l
    · simpa [Scheduler.create, Scheduler.arrive, Scheduler.declare, Function.update_of_ne here]
          using h.waiting l u
  · rw [← same]
    have ready : (a.create t p none).ready = insertPri (a.create t p none).pri t a.ready := rfl
    rw [ready, h.ready]
    rfl

theorem Shows.blocks (h : Shows k seqs none a) (k' : Kernel) {l : TaskList}
    (waits : l ≠ .tasks_ready)
    (runs : a.place t = some .running)
    (pri : k'.pri = k.pri) (tasks : k'.tasks = k.tasks) :
    ∃ b, ReflGen Scheduler.Step a b ∧ Shows k' (put k seqs l t) none b := by
  refine ⟨_, .single (.block t ⟨l, waits⟩ runs), h.pri.trans pri.symm, fun u => ?_, fun i u => ?_,
      ?_⟩
  · rw [tasks, ← h.known]
    by_cases here : u = t
    · simp [Scheduler.block, here, runs]
    · simp [Scheduler.block, Function.update_of_ne here]
  · rw [mem_put, ← h.waiting]
    by_cases here : u = t
    · simp [Scheduler.block, here, runs, Subtype.ext_iff, eq_comm]
    · simp [Scheduler.block, here]
  · have other : put k seqs l t .tasks_ready = seqs .tasks_ready :=
      Function.update_of_ne waits.symm ..
    rw [pri, other]
    exact h.ready

theorem Shows.wakes (h : Shows k seqs none a) (k' : Kernel) {l : TaskList} {ys : List Ptr32}
    (lists : Lists k.links k.Used seqs)
    (waits : l ≠ .tasks_ready) (cut : seqs l = xs ++ t :: ys) (pri : k'.pri = k.pri)
    (tasks : k'.tasks = k.tasks) :
    ∃ b, ReflGen Scheduler.Step a b ∧ Shows k' (Function.update seqs l (xs ++ ys)) (some t) b := by
  have mem : t ∈ seqs l := by simp [cut]
  have place : a.place t = some (.waiting ⟨l, waits⟩) := (h.waiting ⟨l, waits⟩ t).mpr mem
  have fresh := lists.fresh_of_cut cut
  refine ⟨_, .single (.wake t ⟨l, waits⟩ place), h.pri.trans pri.symm, fun u => ?_, fun i u => ?_,
      ?_⟩
  · rw [tasks, ← h.known]
    by_cases here : u = t
    · simp [Scheduler.arrive, here, place]
    · simp [Scheduler.arrive, Function.update_of_ne here]
  · by_cases here : u = t
    · subst here
      simpa [Scheduler.arrive] using fresh i
    · have kept : u ∈ Function.update seqs l (xs ++ ys) i ↔ u ∈ seqs i :=
        ⟨mem_of_cut cut, fun there => (mem_cut cut there).resolve_left here⟩
      rw [kept, ← h.waiting]
      simp [Scheduler.arrive, Function.update_of_ne here]
  · have other : Function.update seqs l (xs ++ ys) .tasks_ready = seqs .tasks_ready :=
      Function.update_of_ne waits.symm ..
    have ready : a.ready = seqs .tasks_ready := h.ready
    rw [pri, ← h.pri, other, ← ready]
    rfl

theorem Shows.preempts (h : Shows k seqs none a) (k' : Kernel) (runs : a.place t = some .running)
    (pri : k'.pri = k.pri)
    (tasks : k'.tasks = k.tasks) :
    ∃ b, ReflGen Scheduler.Step a b ∧ Shows k' (put k seqs .tasks_ready t) none b := by
  refine ⟨_, .single (.preempt t runs), h.pri.trans pri.symm, fun u => ?_, fun i u => ?_, ?_⟩
  · rw [tasks, ← h.known]
    by_cases here : u = t
    · simp [Scheduler.arrive, here, runs]
    · simp [Scheduler.arrive, Function.update_of_ne here]
  · rw [mem_put, ← h.waiting]
    by_cases here : u = t
    · simp [Scheduler.arrive, here, runs, i.2]
    · simp [Scheduler.arrive, here]
  · have ready : a.ready = seqs .tasks_ready := h.ready
    rw [put, Function.update_self, ← h.pri, ← ready]
    rfl

theorem Shows.dispatches (h : Shows k seqs none a) (k' : Kernel) {ys : List Ptr32}
    (linked : ∀ t, k.tasks t →
    ∃ l, t ∈ seqs l)
    (cut : seqs .tasks_ready = t :: ys) (pri : k'.pri = k.pri) (tasks : k'.tasks = k.tasks) :
    ∃ b, ReflGen Scheduler.Step a b ∧ Shows k' (Function.update seqs .tasks_ready ys) none b := by
  have ready : a.ready = t :: ys := h.ready.trans cut
  have place : a.place t = some .ready := (a.mem_ready t).mp (by simp [ready])
  refine ⟨_, .single (.dispatch t ys ready (h.idle linked)), h.pri.trans pri.symm, fun u => ?_,
      fun i u => ?_, ?_⟩
  · rw [tasks, ← h.known]
    by_cases here : u = t
    · simp [Scheduler.dispatch, here, place]
    · simp [Scheduler.dispatch, Function.update_of_ne here]
  · rw [Function.update_of_ne i.2, ← h.waiting]
    by_cases here : u = t
    · simp [Scheduler.dispatch, here, place]
    · simp [Scheduler.dispatch, Function.update_of_ne here]
  · rw [Function.update_self]
    rfl

/-- The task that was about to be ready is linked. -/
theorem Shows.enters (h : Shows k seqs (some t) a) (k' : Kernel) (pri : k'.pri = k.pri)
    (tasks : k'.tasks = k.tasks) :
    Shows k' (put k seqs .tasks_ready t) none a := by
  refine ⟨h.pri.trans pri.symm, fun u => by rw [tasks, h.known], fun i u => ?_, ?_⟩
  · have other : put k seqs .tasks_ready t i = seqs i := Function.update_of_ne i.2 ..
    rw [other]
    exact h.waiting i u
  · rw [put, Function.update_self, h.ready]
    rfl

theorem Shows.same (h : Shows k seqs o a) (pri : k'.pri = k.pri) (tasks : k'.tasks = k.tasks) :
    Shows k' seqs o a :=
  ⟨h.pri.trans pri.symm, fun u => by rw [tasks, h.known], h.waiting, by rw [pri, h.ready]⟩

/-! ## One statement -/

theorem entering_window (empty : f.window = .none) : f.entering = none := by
  cases f with
  | signal pc | createTask pc => cases pc <;> first | rfl | cases empty
  | _ => rfl

/-- The next statement creates a task. -/
def isNew : Frame → Bool
  | .createTask .init .. => true
  | _ => false

/-- Statements that neither link a task nor create one. -/
theorem exec_quiet (run : exec block k f = some (k', n)) (links : f.relinks = false)
    (other : isNew f = false) :
    k'.tasks = k.tasks ∧ k'.queues = k.queues ∧ k'.pri = k.pri ∧
        (goes n).bind Frame.entering = f.entering := by
  have pri : k'.pri = k.pri := by
    refine funext fun t => Dispatches.exec_pri run fun task_pri same => ?_
    rw [same] at other
    cases other
  have static : k'.tasks = k.tasks ∧ k'.queues = k.queues := by
    by_cases static : f.fn ∈ [.switch_tasks, .create_task, .create_queue, .destroy_queue]
    · cases f with
      | switchTasks pc => cases pc <;> grind [execSwitch]
      | createTask pc task_pri t =>
          cases pc with
          | init => cases other
          | enqueue => cases links
          | _ => cases run; exact ⟨rfl, rfl⟩
      | createQueue pc | destroyQueue pc =>
          cases pc <;> first | (cases links; done) | (cases run; exact ⟨rfl, rfl⟩)
      | _ => simp [Frame.fn] at static
    · exact (exec_static run static).2
  refine ⟨static.1, static.2, pri, ?_⟩
  have belongs := (exec_effect run).next
  cases f with
  | signal pc t sigs =>
      cases pc with
      | test | priTest =>
          simp only [exec, execSignal] at run
          split at run <;> cases run <;> rfl
      | remove | enqueue => cases links
      | permit =>
          cases run
          unfold Kernel.past
          split <;> rfl
      | _ => cases run; rfl
  | createTask pc task_pri t =>
      cases pc with
      | init => cases other
      | enqueue => cases links
      | permit =>
          cases run
          unfold Kernel.past
          split <;> rfl
      | _ => cases run; rfl
  | _ =>
      cases n with
      | goto f' => cases f' <;> first | rfl | cases belongs.1
      | _ => rfl

theorem exec_lists (lists : Lists k.links k.Used seqs) (run : exec block k f = some (k', n))
    (links : f.relinks = false)
    (queues : k'.queues = k.queues) : Lists k'.links k'.Used seqs := by
  rw [(exec_effect run).links links, used_eq queues]
  exact lists

/-- The end of a handler, where it may put the running task back. -/
theorem sched_shows {f' : Frame} {c : Context} (lists : Lists k.links k.Used seqs)
    (runs : k.tasks k.running_task)
    (free : k.resumes → ∀ l, k.running_task ∉ seqs l) (h : Shows k seqs none a)
    (run : execSched k f' c = some (k', n)) :
    ∃ seqs' b, ReflGen Scheduler.Step a b ∧ Lists k'.links k'.Used seqs' ∧
        Shows k' seqs' none b := by
  unfold execSched at run
  split at run
  · rename_i need
    obtain ⟨⟨k₁, switch⟩, scheduled, same⟩ := Option.bind_eq_some_iff.mp run
    obtain rfl : k' = k₁ := by cases switch <;> cases same <;> rfl
    unfold Kernel.schedule at scheduled
    split at scheduled
    · cases scheduled
      exact ⟨seqs, a, .refl, lists, h⟩
    · rename_i allowed
      simp only at scheduled
      split at scheduled
      · rename_i ready
        obtain ⟨k₂, entered, same⟩ := Option.bind_eq_some_iff.mp scheduled
        cases same
        have resumes : k.resumes := decide_eq_true ⟨need, by omega, by omega, ready⟩
        have out := free resumes
        obtain ⟨links, rfl, lists'⟩ := enqueueTask_spec
          (k := { k with sched_state := k.sched_state &&& ~~~NEED_SCHEDULE })
          (l := .tasks_ready) lists trivial
              out entered
        obtain ⟨b, step, shows⟩ := h.preempts k (h.runs runs out (by simp)) rfl rfl
        exact ⟨_, b, step, lists', shows.same rfl rfl⟩
      · cases scheduled
        exact ⟨seqs, a, .refl, lists, h.same rfl rfl⟩
  · cases run
    exact ⟨seqs, a, .refl, lists, h⟩

/-- The statement is a step of the scheduler, or none. -/
def Follows (k' : Kernel) (n : Next) (a : Scheduler Ptr32 WaitList) : Prop :=
  ∃ seqs' b, ReflGen Scheduler.Step a b ∧ Lists k'.links k'.Used seqs' ∧
    Shows k' seqs' ((goes n).bind Frame.entering) b

theorem quiet_follows (placed : Placed k seqs s w) (run : exec block k f = some (k', n))
    (links : f.relinks = false) (other : isNew f = false) (h : Shows k seqs f.entering a) :
    Follows k' n a := by
  obtain ⟨tasks, queues, pri, entering⟩ := exec_quiet run links other
  exact ⟨seqs, a, .refl, exec_lists placed.lists run links queues, entering ▸ h.same pri tasks⟩

/-- What is to be ready is put on `tasks_ready`. -/
theorem enters_follows (placed : Placed k seqs s (.moving t)) (h : Shows k seqs (some t) a)
    (entered : k.enqueueTask .tasks_ready t = some k')
    (left : (goes n).bind Frame.entering = none) :
    Follows k' n a := by
  obtain ⟨-, fresh, -⟩ := placed.ahead
  obtain ⟨links, rfl, lists⟩ :=
    enqueueTask_spec (l := .tasks_ready) placed.lists trivial fresh entered
  refine ⟨_, a, .refl, lists, ?_⟩
  rw [left]
  exact (h.enters k rfl rfl).same rfl rfl

theorem wait_follows {pc : WaitPc} {sigs : BitVec 32} {l : TaskList}
    (placed : Placed k seqs s (.wait pc sigs l : Frame).window)
    (orderly : Orderly aside k (.wait pc sigs l))
    (h : Shows k seqs none a) (run : exec block k (.wait pc sigs l) = some (k', n)) :
    Follows k' n a := by
  cases pc with
  | enqueue =>
      obtain ⟨used, waits⟩ := orderly rfl
      obtain ⟨k₁, entered, same⟩ := Option.bind_eq_some_iff.mp run
      cases same
      have stands := placed.stands
      obtain rfl : s = .free := placed.ahead
      obtain ⟨links, rfl, lists⟩ := enqueueTask_spec placed.lists used stands.1 entered
      obtain ⟨b, step, shows⟩ := h.blocks k waits (h.runs placed.runs stands.1 (by simp)) rfl rfl
      exact ⟨_, b, step, lists, shows.same rfl rfl⟩
  | _ => exact quiet_follows placed run rfl rfl h

theorem signal_follows {pc : SignalPc} {sigs : BitVec 32}
    (placed : Placed k seqs s (.signal pc t sigs : Frame).window)
    (asleep : Operations.Asleep k (.signal pc t sigs : Frame).window)
    (h : Shows k seqs (.signal pc t sigs : Frame).entering a)
    (run : exec block k (.signal pc t sigs) = some (k', n)) :
    Follows k' n a := by
  cases pc with
  | remove =>
      obtain ⟨k₁, removed, same⟩ := Option.bind_eq_some_iff.mp run
      cases same
      obtain ⟨l, xs, ys, cut, placed'⟩ := placed.removed (.inl rfl) removed
      have waits : l ≠ .tasks_ready := by
        rintro rfl
        have mem : t ∈ seqs .tasks_ready := cut ▸ List.mem_append_right xs List.mem_cons_self
        exact asleep t _ (.inr rfl) (placed.lists.each .tasks_ready trivial) mem
      obtain ⟨links, -, rest⟩ := Option.bind_eq_some_iff.mp removed
      cases rest
      obtain ⟨b, step, shows⟩ := h.wakes k placed.lists waits cut rfl rfl
      exact ⟨_, b, step, placed'.lists, shows.same rfl rfl⟩
  | enqueue =>
      obtain ⟨k₁, entered, same⟩ := Option.bind_eq_some_iff.mp run
      cases same
      exact enters_follows placed h entered rfl
  | _ => exact quiet_follows placed run rfl rfl h

theorem create_follows {pc : CreateTaskPc} {task_pri : Int}
    (placed : Placed k seqs s (.createTask pc task_pri t : Frame).window)
    (orderly : Orderly aside k (.createTask pc task_pri t))
    (h : Shows k seqs (.createTask pc task_pri t : Frame).entering a)
    (run : exec block k (.createTask pc task_pri t) = some (k', n)) : Follows k' n a := by
  cases pc with
  | init =>
      have fresh := orderly rfl
      have outside : ∀ l, t ∉ seqs l := fun l mem => by
        have known := placed.known l t mem
        rw [fresh] at known
        cases known
      cases run
      have pri : (({ k with tasks := Function.update k.tasks t true } : Kernel).setTask t fun _ =>
          newTask task_pri t).pri = Function.update k.pri t task_pri := by
        funext u
        by_cases here : u = t
        · simp [here, Kernel.pri, newTask]
        · simp [Kernel.pri, Kernel.setTask_other _ _ here, Function.update_of_ne here]
      obtain ⟨b, step, shows⟩ := h.creates _ fresh outside pri rfl
      exact ⟨seqs, b, step, placed.lists, shows⟩
  | enqueue =>
      obtain ⟨k₁, entered, same⟩ := Option.bind_eq_some_iff.mp run
      cases same
      exact enters_follows placed h entered rfl
  | _ => exact quiet_follows placed run rfl rfl h

/-- `switch_tasks` takes the first of `tasks_ready`. -/
theorem switch_follows {pc : SwitchPc} {c : Context}
    (placed : Placed k seqs s (.switchTasks pc c t : Frame).window)
    (out : pc = .remove → s = .out) (h : Shows k seqs none a)
    (run : exec block k (.switchTasks pc c t) = some (k', n)) : Follows k' n a := by
  cases pc with
  | remove =>
      obtain rfl := out rfl
      obtain ⟨k₁, removed, same⟩ := Option.bind_eq_some_iff.mp run
      cases same
      have first : (seqs .tasks_ready).head? = some t := placed.ahead
      obtain ⟨ys, cut⟩ := List.head?_eq_some_iff.mp first
      obtain ⟨links, unlinked, lists⟩ := remove_spec [] ys placed.lists cut
      have linked : ∀ u, k.tasks u → ∃ l, u ∈ seqs l := fun u known => by
        rcases placed.somewhere u known with linked | moving | ⟨free, -⟩
        · exact linked
        · cases moving
        · cases free
      rw [Kernel.removeTask, unlinked] at removed
      cases removed
      obtain ⟨b, step, shows⟩ := h.dispatches k linked cut rfl rfl
      exact ⟨_, b, step, lists, shows.same rfl rfl⟩
  | _ => exact quiet_follows placed run rfl rfl h

theorem exec_follows (placed : Placed k seqs s f.window) (orderly : Orderly aside k f)
    (asleep : Operations.Asleep k f.window)
    (free : f.tests → k.resumes → ∀ l, k.running_task ∉ seqs l)
    (out : ∀ c t, f = .switchTasks .remove c t → s = .out) (h : Shows k seqs f.entering a)
    (run : exec block k f = some (k', n)) : Follows k' n a := by
  cases f with
  | wait pc sigs l => exact wait_follows placed orderly h run
  | signal pc t sigs => exact signal_follows placed asleep h run
  | createTask pc task_pri t => exact create_follows placed orderly h run
  | createQueue pc max_slots elem_sz q =>
      cases pc with
      | init =>
          obtain ⟨placed', -⟩ := queue_placed placed orderly run
          cases run
          exact ⟨seqs, a, .refl, placed'.lists, h.same rfl rfl⟩
      | _ => exact quiet_follows placed run rfl rfl h
  | destroyQueue pc q =>
      cases pc with
      | clear =>
          obtain ⟨placed', -⟩ := destroy_placed placed orderly run
          cases run
          exact ⟨seqs, a, .refl, placed'.lists, h.same rfl rfl⟩
      | _ => exact quiet_follows placed run rfl rfl h
  | trap pc call c | irq pc i c =>
      cases pc with
      | sched =>
          have none : (goes n).bind Frame.entering = none := by
            rcases sched_spec run with ⟨rfl, -⟩ | ⟨rfl, -⟩ <;> rfl
          unfold Follows
          rw [none]
          exact sched_shows placed.lists placed.runs (free rfl) h run
      | _ => exact quiet_follows placed run rfl rfl h
  | switchTasks pc c t =>
      refine switch_follows placed ?_ h run
      rintro rfl
      exact out c t rfl
  | _ => exact quiet_follows placed run rfl rfl h

/-! ## Runs -/

/-- Every operation runs to its next yield, and every wait is for one signal. -/
def Ok (m : Machine) (e : Event) : Prop := Operations.Lawful m e ∧ Operations.Single m e

/-- A statement, wherever it is executed. -/
theorem Represents.statement (h : Represents m a) (inv : Operations.Inv m)
    (next : Operations.Inv m')
    (here : top m = some f) (orderly : Orderly aside m.k f)
    (asleep : Operations.Asleep m.k (hands m)) (tests : f.tests → ∃ rest, m.kstack = f :: rest)
    (switch : f.isSwitch → ∃ rest, m.kstack = f :: rest) (run : exec block m.k f = some (k, n))
    (same : ∃ intr, m'.k = { k with intr })
    (entering : (top m').bind Frame.entering = (goes n).bind Frame.entering) :
    ∃ b, ReflGen Scheduler.Step a b ∧ Represents m' b := by
  obtain ⟨seqs, s, fits, placed⟩ := inv.placed
  have free (tested : f.tests) (resumes : m.k.resumes) (l : TaskList) :
      m.k.running_task ∉ seqs l := by
    obtain ⟨rest, stack⟩ := tests tested
    exact Dispatches.sched_free inv placed fits stack tested resumes l
  have window : hands m = f.window := by rw [Operations.hands, here]
  have out : ∀ c t, f = .switchTasks .remove c t → s = .out := by
    rintro c t rfl
    obtain ⟨rest, stack⟩ := switch rfl
    cases fits with
    | task outside | leaves outside => simp [stack] at outside
    | yields pc r inside => simp [stack] at inside
    | handler inside plain =>
        have first := plain _ (stack ▸ List.mem_cons_self)
        cases first
    | switching => rfl
    | switched pc c t e inside behind =>
        obtain ⟨same, -⟩ := List.cons.inj (stack.symm.trans inside)
        cases same
        cases behind
  have shows := h.shows placed.lists
  rw [here] at shows
  rw [window] at placed asleep
  obtain ⟨seqs', b, step, lists, shows'⟩ := exec_follows placed orderly asleep free out shows run
  obtain ⟨intr, same⟩ := same
  have sorted : Lists m'.k.links m'.k.Used seqs' := by
    rw [same]
    exact lists
  refine ⟨b, step, Shows.represents next sorted ?_⟩
  rw [same, entering]
  exact shows'.same rfl rfl

/-- An event that moves no task. -/
theorem Represents.quiet (h : Represents m a) (inv : Operations.Inv m) (next : Operations.Inv m')
    (links : m'.k.links = m.k.links) (queues : m'.k.queues = m.k.queues)
    (tasks : m'.k.tasks = m.k.tasks)
    (pri : m'.k.pri = m.k.pri) (before : (top m).bind Frame.entering = none)
    (after : (top m').bind Frame.entering = none) : ∃ b, ReflGen Scheduler.Step a b ∧
    Represents m' b := by
  obtain ⟨seqs, s, -, placed⟩ := inv.placed
  have shows := h.shows placed.lists
  rw [before] at shows
  have lists : Lists m'.k.links m'.k.Used seqs := by
    rw [links, used_eq queues]
    exact placed.lists
  refine ⟨a, .refl, Shows.represents next lists ?_⟩
  rw [after]
  exact shows.same pri tasks

theorem enter_entering {F : Context → Frame} (calm : ∀ c, (F c).entering = none) :
    (top (m.enter F)).bind Frame.entering = none := by
  obtain ⟨c, kstack⟩ := enter_frames m F
  rw [top_kernel kstack]
  exact calm c

theorem Represents.step (h : Represents m a) (inv : Operations.Single.Inv m) (ok : Ok m e)
    (step : m.step e = some m') :
    ∃ b, ReflGen Scheduler.Step a b ∧ Represents m' b := by
  have next := (inv.step ok.1 ok.2 step).inv
  have orderly := inv.ok ok.1
  have idle {m : Machine} (user : m.inTask) : (top m).bind Frame.entering = none := by
    rw [Operations.top_user user]
    rfl
  cases stepped_of_step step with
  | @kernel f rest block k n _ stack run after =>
      have here := top_kernel stack
      have still : ∀ g ∈ rest, Operations.Calm g :=
        fun g mem => inv.inv.still.below g (by rw [stack]; exact mem)
      refine h.statement inv.inv next here (orderly f here) inv.asleep (fun _ => ⟨rest, stack⟩)
          (fun _ => ⟨rest, stack⟩) run
        (afterKernel_k after) (Operations.next_top (fun _ => entering_window) run ?_
          (Operations.kernel_hands (m := { m with k }) still (inv.inv.still.tasks stack) run after))
      rintro f' rfl
      cases after
      rfl
  | @task f rest block k n _ out stack run after =>
      have here := top_task out stack
      have library : f.library := inv.inv.nested.library m.regs.stack f (by
        have current : m.ustack m.regs.stack = f :: rest := stack
        simp [current])
      obtain ⟨-, -, same, -⟩ := afterTask_spec out after
      refine h.statement inv.inv next here (orderly f here) inv.asleep (fun tests => ?_)
          (fun switch => ?_) run same
        (Operations.next_top (fun _ => entering_window) run ?_
          (Operations.task_hands (Operations.under_calm inv.inv out stack) out run after))
      · cases f <;> first | cases tests | cases library
      · cases f <;> first | (cases switch; done) | cases library
      · rintro f' rfl
        cases after
        simp [top, out]
  | irq on unmasked =>
      refine h.quiet inv.inv next (by rw [enter_k]) (by rw [enter_k]) (by rw [enter_k])
          (by rw [enter_k]; rfl) ?_
        (enter_entering fun c => rfl)
      rcases ok.1 with user | halt
      · exact idle user
      · cases stack : m.kstack with
        | nil => simp [stack] at halt
        | cons f fs =>
            rw [top_kernel stack]
            have stop : Operations.halted f := by simpa [stack] using halt
            cases f <;> first | rfl | cases stop
  | call user c =>
      have push (f : Frame) (calm : f.entering = none) :
          (top (m.setCurrent [f])).bind Frame.entering = none := by
        have here : top (m.setCurrent [f]) = some f :=
          top_task user.1 (Machine.setCurrent_current m [f])
        rw [here]
        exact calm
      cases c with
      | forbid => exact h.quiet inv.inv next rfl rfl rfl rfl (idle user) (idle user)
      | yield =>
          exact h.quiet inv.inv next (by rw [Machine.call, enter_k]) (by rw [Machine.call, enter_k])
            (by rw [Machine.call, enter_k]) (by rw [Machine.call, enter_k]; rfl) (idle user)
            (enter_entering fun c => rfl)
      | _ => exact h.quiet inv.inv next rfl rfl rfl rfl (idle user) (push _ rfl)
  | compute user others => exact h.quiet inv.inv next rfl rfl rfl rfl (idle user) (idle user)
  | store user dest byte => exact h.quiet inv.inv next rfl rfl rfl rfl (idle user) (idle user)
  | keybd user queue => exact h.quiet inv.inv next rfl rfl rfl rfl (idle user) (idle user)

theorem boot_represents (kernel_task : Ptr32) : Represents (.boot kernel_task)
    (.single (fun _ => 0) kernel_task) := by
  have inv := Operations.boot_inv kernel_task
  have lists := (Operations.boot_placed kernel_task).lists
  refine Shows.represents inv lists ⟨rfl, fun t => ?_, fun l t => ?_, rfl⟩
  · by_cases here : t = kernel_task
    · simp [Scheduler.single, Machine.boot, here]
    · simp [Scheduler.single, Machine.boot, here]
  · by_cases here : t = kernel_task
    · simp [Scheduler.single, here]
    · simp [Scheduler.single, Function.update_of_ne here]

theorem inv_reached {kernel_task : Ptr32}
    (reached : Runs.Reach Machine.step Ok (· = .boot kernel_task) m) :
    Operations.Single.Inv m := by
  refine reached.invariant ?_ fun _ _ _ h ok step => h.step ok.1 ok.2 step
  rintro m rfl
  exact Operations.Single.boot kernel_task

theorem refines (kernel_task : Ptr32) : Runs.Refines Machine.step Ok (· = .boot kernel_task)
    Scheduler.Step (.single (fun _ => 0) kernel_task) Represents := by
  refine ⟨?_, fun m e m' a reached h ok step => h.step (inv_reached reached) ok step⟩
  rintro m rfl
  exact boot_represents kernel_task

/-- In runs whose operations keep to themselves, with waits for one signal, the kernel is a priority
    scheduler: what it has reached stands for a state of the scheduler, and its next step for one of
    the scheduler's steps or none. -/
theorem kernel_schedules {kernel_task : Ptr32}
    (reached : Runs.Reach Machine.step Ok (· = .boot kernel_task) m) :
    ∃ a, Relation.ReflTransGen Scheduler.Step (.single (fun _ => 0) kernel_task) a ∧
        Represents m a ∧
      ∀ e m', Ok m e → m.step e = some m' → ∃ b, ReflGen Scheduler.Step a b ∧ Represents m' b := by
  obtain ⟨a, path, represents⟩ := (refines kernel_task).reached reached
  exact ⟨a, path, represents, fun e m' ok step => represents.step (inv_reached reached) ok step⟩

instance (m : Machine) (e : Event) : Decidable (Ok m e) := instDecidableAnd

/-- The kernel task runs again, and the task 8 waits for the timer. -/
def delayed : List Event :=
  [.call (.createTask 1)] ++ List.replicate 8 (.stmt 8) ++ List.replicate 14 (.stmt 12) ++
    [.call .yield] ++ List.replicate 14 (.stmt 0) ++
    [.call (.wait 1 .tasks_wait)] ++ List.replicate 25 (.stmt 0)

theorem kernel_schedules_delayed : ∃ m a, Runs.run Machine.step (.boot 4) delayed = some m ∧
    m.k.running_task = 4 ∧ get_head m.k.links .tasks_wait = some (.node 8) ∧
    Relation.ReflTransGen Scheduler.Step (.single (fun _ => 0) 4) a ∧ Represents m a := by
  have meets : Runs.Meets Machine.step Ok (.boot 4) delayed := by decide +kernel
  have start : Runs.Reach Machine.step Ok (· = .boot 4) (.boot 4) := .start rfl
  have ends : (Runs.run Machine.step (.boot 4) delayed).any (fun m =>
      m.k.running_task = 4 ∧ get_head m.k.links .tasks_wait = some (.node 8)) := by decide +kernel
  obtain ⟨m, run, ends⟩ := (Option.any_eq_true _ _).mp ends
  obtain ⟨runs, waits⟩ := of_decide_eq_true ends
  obtain ⟨a, path, represents, -⟩ := kernel_schedules (start.of_run meets run)
  exact ⟨m, a, run, runs, waits, path, represents⟩

end Refinement

end Krypton
