import Krypton.Kernel.State

/-! # Where the tasks are

Every task but `running_task` is linked in exactly one list, and in
`tasks_ready` exactly when its `TS_READY` is set. The functions that move a task
break this for a few statements; a `Window` says for which task, and how.
-/

namespace Krypton

open LinkStore

/-- The headers that are set up. -/
def Kernel.Used (k : Kernel) : TaskList → Prop
  | .tasks_ready | .tasks_wait => True
  | .waiters queue => k.queues queue

/-- Where `running_task` is. -/
inductive Status where
  /-- in no list -/
  | free
  /-- in the list it waits on -/
  | blocked
  /-- wherever `schedule` has left it, until the next task is chosen -/
  | out
  deriving DecidableEq

/-- The task that a function is about to move, and how far it has got. -/
inductive Window where
  | none
  /-- it is linked, and `signal` is to move it -/
  | due (task : Ptr32)
  /-- it is flagged as ready where it was linked -/
  | waking (task : Ptr32)
  /-- it is ready and in no list -/
  | moving (task : Ptr32)
  /-- it is the first that is ready -/
  | picked (task : Ptr32)
  /-- `running_task` is not ready and in no list yet -/
  | cleared
  deriving DecidableEq

variable {k k' : Kernel} {seqs seqs' : TaskList → List Ptr32} {s : Status} {w : Window}
variable {l : TaskList} {t u : Ptr32} {xs ys : List Ptr32}

/-- What the next statements rely on. -/
def Ahead (k : Kernel) (seqs : TaskList → List Ptr32) (s : Status) : Window → Prop
  | .none => True
  | .due t => ∃ l, t ∈ seqs l
  | .waking t => (∃ l, t ∈ seqs l) ∧ (k.task t).ready
  | .moving t => k.tasks t ∧ (∀ l, t ∉ seqs l) ∧ (k.task t).ready
  | .picked t => (seqs .tasks_ready).head? = some t
  | .cleared => s = .free

/-- What is known of `running_task`. -/
def Stands (k : Kernel) (seqs : TaskList → List Ptr32) (w : Window) : Status → Prop
  | .free => (∀ l, k.running_task ∉ seqs l) ∧ w ≠ .moving k.running_task ∧
      ((k.task k.running_task).ready ↔ w ≠ .cleared)
  | .blocked => (k.task k.running_task).ready = false
  | .out => True

structure Placed (k : Kernel) (seqs : TaskList → List Ptr32) (s : Status) (w : Window) : Prop where
  lists : Lists k.links k.Used seqs
  known : ∀ l, ∀ t ∈ seqs l, k.tasks t
  runs : k.tasks k.running_task
  ordered : (seqs .tasks_ready).Pairwise fun t u => k.pri u ≤ k.pri t
  somewhere : ∀ t, k.tasks t → (∃ l, t ∈ seqs l) ∨ w = .moving t ∨ (s = .free ∧ t = k.running_task)
  flags : ∀ l, ∀ t ∈ seqs l, w ≠ .waking t → ((k.task t).ready ↔ l = .tasks_ready)
  stands : Stands k seqs w s
  ahead : Ahead k seqs s w

theorem used_eq (queues : k'.queues = k.queues) : k'.Used = k.Used := by
  funext l
  cases l with
  | waiters q => exact congrArg (· q = true) queues
  | _ => rfl

/-- A statement that writes none of this. -/
theorem Placed.same (h : Placed k seqs s w) (links : k'.links = k.links)
    (running : k'.running_task = k.running_task) (tasks : k'.tasks = k.tasks)
    (queues : k'.queues = k.queues) (ready : ∀ t, (k'.task t).ready = (k.task t).ready)
    (pri : k'.pri = k.pri) : Placed k' seqs s w where
  lists := by
    rw [links, used_eq queues]
    exact h.lists
  known := tasks ▸ h.known
  runs := by
    rw [tasks, running]
    exact h.runs
  ordered := pri ▸ h.ordered
  somewhere := by
    rw [tasks, running]
    exact h.somewhere
  flags := by
    simp only [ready]
    exact h.flags
  stands := by
    have old := h.stands
    cases s <;> simp only [Stands, running, ready] at old ⊢ <;> exact old
  ahead := by
    have old := h.ahead
    cases w <;> simp only [Ahead, tasks, ready] at old ⊢ <;> exact old

/-- A store to a task that keeps its priority and `TS_READY`. -/
theorem Placed.setTask (h : Placed k seqs s w) (t : Ptr32) {g : Task → Task}
    (ready : ∀ t, (g t).ready = t.ready) (pri : ∀ t, (g t).pri = t.pri) :
    Placed (k.setTask t g) seqs s w := by
  refine h.same rfl rfl rfl rfl (fun u => ?_) (funext fun u => ?_)
  · by_cases here : u = t
    · rw [here, Kernel.setTask_self, ready]
    · rw [Kernel.setTask_other k g here]
  · unfold Kernel.pri
    by_cases here : u = t
    · rw [here, Kernel.setTask_self, pri]
    · rw [Kernel.setTask_other k g here]

theorem ready_bit (t : Task) : t.ready = t.flags.getLsbD 1 := by
  have bit : TS_READY = BitVec.twoPow 32 1 := rfl
  rw [Task.ready, bit, BitVec.and_twoPow]
  cases t.flags.getLsbD 1 <;> rfl

theorem ready_set (t : Task) : ({ t with flags := t.flags ||| TS_READY } : Task).ready = true := by
  simp [ready_bit, TS_READY]

theorem ready_clear (t : Task) :
    ({ t with flags := t.flags &&& ~~~TS_READY } : Task).ready = false := by
  simp [ready_bit, TS_READY]

theorem ready_stop (t : Task) (c : Context) :
    ({ t with flags := t.flags &&& ~~~TS_RUN, task_state := c } : Task).ready = t.ready := by
  simp [ready_bit, TS_RUN]

theorem ready_start (t : Task) :
    ({ t with flags := t.flags ||| TS_RUN } : Task).ready = t.ready := by
  simp [ready_bit, TS_RUN]

/-- Every task is where its flag says. -/
def Window.plain : Window → Bool
  | .none | .due _ | .picked _ => true
  | .waking _ | .moving _ | .cleared => false

theorem Placed.look {w' : Window} (h : Placed k seqs s w) (old : w.plain) (new : w'.plain)
    (ahead : Ahead k seqs s w') : Placed k seqs s w' where
  lists := h.lists
  known := h.known
  runs := h.runs
  ordered := h.ordered
  somewhere t there := by
    rcases h.somewhere t there with linked | moving | free
    · exact .inl linked
    · rw [moving] at old
      cases old
    · exact .inr (.inr free)
  flags l t mem _ := h.flags l t mem fun waking => by
    rw [waking] at old
    cases old
  stands := by
    have stands := h.stands
    cases s with
    | free =>
        have cleared : w ≠ .cleared := by
          rintro rfl
          cases old
        refine ⟨stands.1, ?_, iff_of_true (stands.2.2.mpr cleared) ?_⟩
        · rintro rfl
          cases new
        · rintro rfl
          cases new
    | blocked => exact stands
    | out => trivial
  ahead := ahead

/-- Every task is linked but the one that runs, as long as that has not given up the CPU. -/
theorem Placed.linked (h : Placed k seqs s .none) (task : k.tasks t)
    (other : t = k.running_task → (k.task t).ready → s = .out) : Placed k seqs s (.due t) := by
  refine h.look rfl rfl ?_
  rcases h.somewhere t task with linked | moving | ⟨rfl, rfl⟩
  · exact linked
  · cases moving
  · have ready := h.stands.2.2.mpr nofun
    cases other rfl ready

/-- A task that is not ready is in no list of ready ones. -/
theorem Placed.asleep (h : Placed k seqs s .none) (asleep : (k.task t).ready = false) :
    t ∉ seqs .tasks_ready := by
  intro mem
  rw [(h.flags _ t mem nofun).mpr rfl] at asleep
  cases asleep

/-- A store that sets or clears `TS_READY` of one task. -/
theorem setTask_ready {g : Task → Task} (other : u ≠ t) :
    ((k.setTask t g).task u).ready = (k.task u).ready := by
  rw [Kernel.setTask_other k g other]

theorem setTask_pri {g : Task → Task} (pri : (g (k.task t)).pri = k.pri t) :
    (k.setTask t g).pri = k.pri := by
  funext u
  by_cases here : u = t
  · rw [here, Kernel.pri, Kernel.setTask_self, pri]
  · rw [Kernel.pri, Kernel.setTask_other k g here]
    rfl

theorem Placed.setReady (h : Placed k seqs s (.due t)) (unblocked : s ≠ .blocked) :
    Placed (k.setTask t fun t => { t with flags := t.flags ||| TS_READY }) seqs s (.waking t) := by
  have waits := h.ahead
  have pri : (k.setTask t fun t => { t with flags := t.flags ||| TS_READY }).pri = k.pri :=
    setTask_pri rfl
  refine ⟨h.lists, h.known, h.runs, pri ▸ h.ordered, fun u there => ?_, fun l u mem awake => ?_, ?_,
      waits, ?_⟩
  · rcases h.somewhere u there with linked | moving | free
    · exact .inl linked
    · cases moving
    · exact .inr (.inr free)
  · have other : u ≠ t := fun same => awake (congrArg Window.waking same.symm)
    rw [setTask_ready other]
    exact h.flags l u mem nofun
  · cases s with
    | free =>
        obtain ⟨out, -, ready⟩ := h.stands
        have other : k.running_task ≠ t := by
          rintro rfl
          obtain ⟨l, mem⟩ := waits
          exact out l mem
        refine ⟨out, nofun, iff_of_true ?_ nofun⟩
        exact (congrArg (· = true) (setTask_ready other)).mpr (ready.mpr nofun)
    | blocked => exact absurd rfl unblocked
    | out => trivial
  · rw [Kernel.setTask_self]
    exact ready_set _

/-! ## Moves -/

theorem mem_of_cut (cut : seqs l = xs ++ t :: ys) {i : TaskList}
    (mem : u ∈ Function.update seqs l (xs ++ ys) i) :
    u ∈ seqs i := by
  by_cases here : i = l
  · subst here
    rw [Function.update_self, List.mem_append] at mem
    rw [cut, List.mem_append, List.mem_cons]
    tauto
  · rwa [Function.update_of_ne here] at mem

theorem mem_cut (cut : seqs l = xs ++ t :: ys) {i : TaskList} (mem : u ∈ seqs i) :
    u = t ∨ u ∈ Function.update seqs l (xs ++ ys) i := by
  by_cases here : i = l
  · subst here
    rw [cut, List.mem_append, List.mem_cons] at mem
    rw [Function.update_self, List.mem_append]
    tauto
  · rw [Function.update_of_ne here]
    exact .inr mem

/-- The windows in which a task is taken out of its list. -/
def Takes (t : Ptr32) (w : Window) : Prop := w = .waking t ∨ w = .picked t

theorem Placed.removed (h : Placed k seqs s w) (takes : Takes t w)
    (run : k.removeTask t = some k') :
    ∃ l xs ys, seqs l = xs ++ t :: ys ∧
      Placed k' (Function.update seqs l (xs ++ ys)) s (.moving t) := by
  have linked : (∃ l, t ∈ seqs l) ∧ (k.task t).ready := by
    rcases takes with rfl | rfl
    · exact h.ahead
    · have mem : t ∈ seqs .tasks_ready := List.mem_of_mem_head? h.ahead
      exact ⟨⟨_, mem⟩, (h.flags _ t mem nofun).mpr rfl⟩
  obtain ⟨⟨l, mem⟩, ready⟩ := linked
  obtain ⟨xs, ys, cut⟩ := List.append_of_mem mem
  obtain ⟨links, removed, lists⟩ := remove_spec xs ys h.lists cut
  have same : k' = { k with links := links } := by
    rw [Kernel.removeTask, removed] at run
    exact (Option.some.inj run).symm
  subst same
  have fresh := h.lists.fresh_of_cut cut
  refine ⟨l, xs, ys, cut, lists, fun i u there => h.known i u (mem_of_cut cut there), h.runs, ?_,
    ?_, ?_, ?_, h.known l t mem, fresh, ready⟩
  · by_cases here : l = .tasks_ready
    · subst here
      have ordered := h.ordered
      rw [cut] at ordered
      rw [Function.update_self]
      exact ordered.sublist ((List.sublist_cons_self t ys).append_left xs)
    · rw [Function.update_of_ne (Ne.symm here)]
      exact h.ordered
  · intro u there
    rcases h.somewhere u there with ⟨i, old⟩ | moving | free
    · rcases mem_cut cut old with rfl | stays
      · exact .inr (.inl rfl)
      · exact .inl ⟨i, stays⟩
    · rcases takes with rfl | rfl <;> cases moving
    · exact .inr (.inr free)
  · intro i u there _
    refine h.flags i u (mem_of_cut cut there) ?_
    rintro rfl
    have same : u = t := by
      rcases takes with waking | picked
      · exact Window.waking.inj waking
      · cases picked
    exact fresh i (same ▸ there)
  · cases s with
    | free =>
        obtain ⟨out, -, awake⟩ := h.stands
        refine ⟨fun i there => out i (mem_of_cut cut there), ?_, iff_of_true (awake.mpr ?_) nofun⟩
        · intro moving
          exact out l (Window.moving.inj moving ▸ mem)
        · rcases takes with rfl | rfl <;> exact nofun
    | blocked => exact h.stands
    | out => trivial

/-- The lists after a task was put into one. -/
def put (k : Kernel) (seqs : TaskList → List Ptr32) (l : TaskList) (t : Ptr32) : TaskList →
    List Ptr32 :=
  Function.update seqs l (insertPri k.pri t (seqs l))

theorem mem_put {i : TaskList} : u ∈ put k seqs l t i ↔ (u = t ∧ i = l) ∨ u ∈ seqs i := by
  unfold put
  by_cases here : i = l
  · subst here
    rw [Function.update_self, mem_insertPri]
    tauto
  · rw [Function.update_of_ne here]
    tauto

theorem enqueueTask_spec (lists : Lists k.links k.Used seqs) (used : k.Used l)
    (fresh : ∀ i, t ∉ seqs i)
    (run : k.enqueueTask l t = some k') :
    ∃ links, k' = { k with links } ∧ Lists links k.Used (put k seqs l t) := by
  have enough := ptrs_length (lists.each l used).nodup
  obtain ⟨links, entered, lists'⟩ := enqueue_spec k.pri lists used fresh enough
  refine ⟨links, ?_, lists'⟩
  rw [Kernel.enqueueTask, entered] at run
  exact (Option.some.inj run).symm

theorem put_ordered (ordered : (seqs .tasks_ready).Pairwise fun t u => k.pri u ≤ k.pri t) :
    (put k seqs l t .tasks_ready).Pairwise fun t u => k.pri u ≤ k.pri t := by
  unfold put
  by_cases ready : l = .tasks_ready
  · subst ready
    rw [Function.update_self]
    exact insertPri_ordered k.pri ordered
  · rw [Function.update_of_ne (Ne.symm ready)]
    exact ordered

theorem Placed.queued (h : Placed k seqs s (.moving t))
    (run : k.enqueueTask .tasks_ready t = some k') :
    Placed k' (put k seqs .tasks_ready t) s .none := by
  obtain ⟨task, fresh, ready⟩ := h.ahead
  obtain ⟨links, rfl, lists⟩ := enqueueTask_spec (l := .tasks_ready) h.lists trivial fresh run
  refine ⟨lists, fun i u mem => ?_, h.runs, put_ordered h.ordered, fun u there => ?_,
      fun i u mem _ => ?_, ?_, trivial⟩
  · rcases mem_put.mp mem with ⟨rfl, -⟩ | old
    · exact task
    · exact h.known i u old
  · rcases h.somewhere u there with ⟨i, old⟩ | moving | free
    · exact .inl ⟨i, mem_put.mpr (.inr old)⟩
    · cases moving
      exact .inl ⟨.tasks_ready, mem_put.mpr (.inl ⟨rfl, rfl⟩)⟩
    · exact .inr (.inr free)
  · rcases mem_put.mp mem with ⟨rfl, rfl⟩ | old
    · exact iff_of_true ready rfl
    · exact h.flags i u old nofun
  · cases s with
    | free =>
        obtain ⟨out, other, awake⟩ := h.stands
        refine ⟨fun i there => ?_, nofun, iff_of_true (awake.mpr nofun) nofun⟩
        rcases mem_put.mp there with ⟨same, -⟩ | old
        · exact other (congrArg Window.moving same.symm)
        · exact out i old
    | blocked => exact h.stands
    | out => trivial

/-! ## What `running_task` does to itself -/

theorem Placed.cleared (h : Placed k seqs .free .none) :
    Placed (k.setTask k.running_task fun t => { t with flags := t.flags &&& ~~~TS_READY }) seqs
        .free .cleared := by
  obtain ⟨out, -, -⟩ := h.stands
  have pri : (k.setTask k.running_task fun t => { t with flags := t.flags &&& ~~~TS_READY }).pri =
      k.pri :=
    setTask_pri rfl
  refine ⟨h.lists, h.known, h.runs, pri ▸ h.ordered, fun u there => ?_, fun l u mem _ => ?_, ?_,
      rfl⟩
  · rcases h.somewhere u there with linked | moving | free
    · exact .inl linked
    · cases moving
    · exact .inr (.inr free)
  · have other : u ≠ k.running_task := fun same => out l (same ▸ mem)
    rw [setTask_ready other]
    exact h.flags l u mem nofun
  · refine ⟨out, nofun, iff_of_false ?_ fun other => other rfl⟩
    have running : (k.setTask k.running_task fun t =>
        { t with flags := t.flags &&& ~~~TS_READY }).running_task =
      k.running_task := rfl
    rw [running, Kernel.setTask_self, ready_clear]
    exact nofun

theorem Placed.blocked (h : Placed k seqs .free .cleared) (used : k.Used l)
    (waits : l ≠ .tasks_ready)
    (run : k.enqueueTask l k.running_task = some k') :
    Placed k' (put k seqs l k.running_task) .blocked .none := by
  obtain ⟨out, -, awake⟩ := h.stands
  have asleep : (k.task k.running_task).ready = false := by
    cases ready : (k.task k.running_task).ready with
    | false => rfl
    | true => exact absurd rfl (awake.mp ready)
  obtain ⟨links, rfl, lists⟩ := enqueueTask_spec h.lists used out run
  refine ⟨lists, fun i u mem => ?_, h.runs, put_ordered h.ordered, fun u there => ?_,
    fun i u mem _ => ?_, asleep, trivial⟩
  · rcases mem_put.mp mem with ⟨rfl, -⟩ | old
    · exact h.runs
    · exact h.known i u old
  · rcases h.somewhere u there with ⟨i, old⟩ | moving | ⟨-, rfl⟩
    · exact .inl ⟨i, mem_put.mpr (.inr old)⟩
    · cases moving
    · exact .inl ⟨l, mem_put.mpr (.inl ⟨rfl, rfl⟩)⟩
  · rcases mem_put.mp mem with ⟨rfl, rfl⟩ | old
    · exact iff_of_false (by rw [asleep]; exact nofun) waits
    · exact h.flags i u old nofun

/-- `schedule` takes the task that runs, to put it back. -/
theorem Placed.handed (h : Placed k seqs .free .none) :
    Placed k seqs .out (.moving k.running_task) := by
  obtain ⟨out, -, awake⟩ := h.stands
  refine ⟨h.lists, h.known, h.runs, h.ordered, fun u there => ?_,
    fun l u mem _ => h.flags l u mem nofun, trivial, h.runs, out, awake.mpr nofun⟩
  rcases h.somewhere u there with linked | moving | ⟨-, rfl⟩
  · exact .inl linked
  · cases moving
  · exact .inr (.inl rfl)

theorem Placed.resigned (h : Placed k seqs .blocked .none) : Placed k seqs .out .none := by
  refine ⟨h.lists, h.known, h.runs, h.ordered, fun u there => ?_, h.flags, trivial, trivial⟩
  rcases h.somewhere u there with linked | moving | ⟨free, -⟩
  · exact .inl linked
  · cases moving
  · cases free

theorem Placed.scheduled (h : Placed k seqs s .none) (held : s ≠ .out)
    (run : k.schedule = some (k', true)) :
    ∃ seqs', Placed k' seqs' .out .none := by
  unfold Kernel.schedule at run
  split at run
  · cases run
  · have h₁ : Placed { k with sched_state := k.sched_state &&& ~~~NEED_SCHEDULE } seqs s .none :=
      h.same rfl rfl rfl rfl (fun _ => rfl) rfl
    generalize ({ k with sched_state := k.sched_state &&& ~~~NEED_SCHEDULE } : Kernel) = k₁
        at run h₁
    cases s with
    | free =>
        have ready := h₁.stands.2.2.mpr nofun
        simp only [ready, if_true] at run
        obtain ⟨k₂, entered, same⟩ := Option.bind_eq_some_iff.mp run
        cases same
        exact ⟨_, h₁.handed.queued entered⟩
    | blocked =>
        have asleep : (k₁.task k₁.running_task).ready = false := h₁.stands
        simp only [asleep, Bool.false_eq_true, if_false] at run
        cases run
        exact ⟨seqs, h₁.resigned⟩
    | out => exact absurd rfl held

/-- The task that was chosen runs. -/
theorem Placed.dispatched (h : Placed k seqs .out (.moving t)) :
    Placed { k with running_task := t } seqs .free .none := by
  obtain ⟨task, fresh, ready⟩ := h.ahead
  refine ⟨h.lists, h.known, task, h.ordered, fun u there => ?_,
    fun l u mem _ => h.flags l u mem nofun, ⟨fresh, nofun, iff_of_true ready nofun⟩, trivial⟩
  rcases h.somewhere u there with linked | moving | ⟨free, -⟩
  · exact .inl linked
  · exact .inr (.inr ⟨rfl, (Window.moving.inj moving).symm⟩)
  · cases free

theorem Placed.picks (h : Placed k seqs s .none)
    (head : get_head k.links .tasks_ready = some (.node t)) :
    Placed k seqs s (.picked t) := by
  refine h.look rfl rfl ?_
  have first := get_head_eq (h.lists.each .tasks_ready trivial)
  rw [first] at head
  cases list : seqs .tasks_ready with
  | nil =>
      rw [list] at head
      cases head
  | cons u us =>
      rw [list] at head
      cases head
      simp [Ahead, list]

/-! ## Tasks and queues that come and go -/

theorem Placed.created (h : Placed k seqs s .none) (fresh : k.tasks t = false) (new : Task)
    (ready : new.ready) :
    Placed (({ k with tasks := Function.update k.tasks t true } : Kernel).setTask t fun _ =>
        new) seqs s (.moving t) := by
  have other : ∀ u, k.tasks u → u ≠ t := by
    rintro u task rfl
    rw [fresh] at task
    cases task
  have linked : ∀ l, ∀ u ∈ seqs l, u ≠ t := fun l u mem => other u (h.known l u mem)
  have known : ∀ u, k.tasks u → Function.update k.tasks t true u = true := by
    intro u task
    rw [Function.update_of_ne (other u task)]
    exact task
  have runs := other _ h.runs
  refine ⟨h.lists, fun l u mem => known u (h.known l u mem), known _ h.runs, ?_, fun u there => ?_,
    fun l u mem _ => ?_, ?_, ?_⟩
  · refine h.ordered.imp_of_mem ?_
    intro a b mem mem' le
    unfold Kernel.pri
    rw [Kernel.setTask_other _ _ (linked _ a mem), Kernel.setTask_other _ _ (linked _ b mem')]
    exact le
  · by_cases here : u = t
    · exact .inr (.inl (congrArg Window.moving here.symm))
    · have old : k.tasks u := by
        have there : Function.update k.tasks t true u = true := there
        rwa [Function.update_of_ne here] at there
      rcases h.somewhere u old with linked | moving | free
      · exact .inl linked
      · cases moving
      · exact .inr (.inr free)
  · rw [setTask_ready (linked l u mem)]
    exact h.flags l u mem nofun
  · cases s with
    | free =>
        obtain ⟨out, -, awake⟩ := h.stands
        refine ⟨out, fun moving => runs (Window.moving.inj moving).symm, iff_of_true ?_ nofun⟩
        exact (congrArg (· = true) (setTask_ready runs)).mpr (awake.mpr nofun)
    | blocked => exact (setTask_ready runs).trans h.stands
    | out => trivial
  · refine ⟨Function.update_self .., fun l mem => linked l t mem rfl, ?_⟩
    rw [Kernel.setTask_self]
    exact ready

theorem used_opened {q : Ptr32} (queues : k'.queues = Function.update k.queues q true) :
    k'.Used = fun l => k.Used l ∨ l = .waiters q := by
  funext l
  cases l with
  | waiters q' =>
      by_cases here : q' = q <;> simp [Kernel.Used, queues, here]
  | _ => simp [Kernel.Used]

theorem used_closed {q : Ptr32} (queues : k'.queues = Function.update k.queues q false) :
    k'.Used = fun l => k.Used l ∧ l ≠ .waiters q := by
  funext l
  cases l with
  | waiters q' =>
      by_cases here : q' = q <;> simp [Kernel.Used, queues, here]
  | _ => simp [Kernel.Used]

/-- The lists of the tasks stay as they are, but there are other headers. -/
theorem Placed.headers (h : Placed k seqs s .none) (lists : Lists k'.links k'.Used seqs)
    (running : k'.running_task = k.running_task) (tasks : k'.tasks = k.tasks)
    (task : k'.task = k.task) :
    Placed k' seqs s .none := by
  have pri : k'.pri = k.pri := by
    unfold Kernel.pri
    rw [task]
  refine ⟨lists, tasks ▸ h.known, ?_, pri ▸ h.ordered, ?_, ?_, ?_, trivial⟩
  · rw [tasks, running]
    exact h.runs
  · rw [tasks, running]
    exact h.somewhere
  · rw [task]
    exact h.flags
  · have old := h.stands
    cases s <;> simp only [Stands, running, task] at old ⊢ <;> exact old

end Krypton
