import Krypton.Kernel.Idle
import Krypton.Kernel.Outermost
import Krypton.Kernel.Stack

/-! # The registers of the tasks that do not run

`switch_tasks` stores the registers of the running task in its task structure and
gives the CPU those of the next one. What was stored for a task last is recorded
beside the machine. Interrupts arrive at any statement.
-/

namespace Krypton

open Operations
    (top top_kernel top_task enter_frames enter_k inKernel inKernel_deliver exec_inKernel
  deliver_switch)

/-- The registers that the next statement sets aside for a task. -/
def Frame.saves (k : Kernel) : Frame → Option (Ptr32 × Context)
  | .switchTasks .save cpu_context _ => some (k.running_task, cpu_context)
  | .createTask .init task_pri new_task => some (new_task, (newTask task_pri new_task).task_state)
  | _ => none

/-- The task that the next statement makes the running one. -/
def Frame.chosen : Frame → Option Ptr32
  | .switchTasks .setRunning _ next_task => some next_task
  | _ => none

/-- The machine with the registers that were set aside last for each task. -/
structure Contexts where
  m : Machine
  saved : Ptr32 → Option Context

namespace Contexts

def record (saved : Ptr32 → Option Context) : Option (Ptr32 × Context) → Ptr32 → Option Context
  | some (t, c) => Function.update saved t (some c)
  | none => saved

def saves (m : Machine) : Event → Option (Ptr32 × Context)
  | .stmt _ => (top m).bind (Frame.saves m.k)
  | _ => none

def step (s : Contexts) (e : Event) : Option Contexts := do
  return { m := ← s.m.step e, saved := record s.saved (saves s.m e) }

/-- The lists are well formed: what `switch_tasks` takes from `tasks_ready` is a task. -/
def Ok (s : Contexts) (_ : Event) : Prop := ((top s.m).bind Frame.chosen).all s.m.k.tasks

def Init (kernel_task : Ptr32) (s : Contexts) : Prop := s = ⟨.boot kernel_task, fun _ => none⟩

structure Preserved (s : Contexts) : Prop where
  /-- the registers that a task gets back are those that were set aside last -/
  restored : ∀ cpu_context next_task rest,
      s.m.kstack = .switchTasks .restore cpu_context next_task :: rest →
    ∃ c, s.saved s.m.k.running_task = some c ∧ (s.m.k.task s.m.k.running_task).task_state = c ∧
      ∀ block k n, exec block s.m.k (.switchTasks .restore cpu_context next_task) = some (k, n) →
        n = .ret (.context c)
  /-- and they are the task's own -/
  own : ∀ t regs, s.saved t = some (.user regs) → regs.stack = t

/-- The registers of the task that is interrupted by the frames. -/
def home (regs : Regs) : List Frame → Regs
  | [] => regs
  | f :: fs =>
      match f.context with
      | some (.user r) => r
      | _ => home regs fs

def isUser : Context → Bool
  | .user _ => true
  | .kernel _ => false

/-- `running_task` is the next task, whose registers are still to be restored. One that a handler
    had interrupted in the kernel is dispatched on its own stack, and goes on in its place. -/
def handing (k : Kernel) : Frame → Bool
  | .switchTasks .setRun .. | .switchTasks .restore .. => isUser (k.task k.running_task).task_state
  | _ => false

/-- `switch_tasks` was called with the registers of the frame below. They are stored for the
    running task until another one is. -/
def Called (k : Kernel) (f : Frame) (rest : List Frame) : Prop :=
  ∀ pc c t, f = .switchTasks pc c t → rest.head?.bind Frame.context = some c ∧
    (pc ≠ .save → handing k f = false → (k.task k.running_task).task_state = c)

def Callers (k : Kernel) : List Frame → Prop
  | [] => True
  | f :: rest => Called k f rest ∧ Callers k rest

structure Inv (kernel_task : Ptr32) (s : Contexts) : Prop where
  nested : Nested s.m
  masked : Masked s.m
  state : ∀ t c, s.saved t = some c → (s.m.k.task t).task_state = c
  own : ∀ t regs, s.saved t = some (.user regs) → regs.stack = t
  known : ∀ t, s.m.k.tasks t → s.saved t ≠ none ∨ t = kernel_task
  first : s.saved kernel_task = none →
    s.m.k.running_task = kernel_task ∧ ∀ f ∈ s.m.kstack, f.isSwitch → Activations.starts f
  runs : s.m.k.tasks s.m.k.running_task
  kernel : ∀ f ∈ s.m.kstack, inKernel f
  callers : Callers s.m.k s.m.kstack
  stays : (∀ f ∈ s.m.kstack, handing s.m.k f = false) →
    (home s.m.regs s.m.kstack).stack = s.m.k.running_task

variable {s t : Contexts} {m m' : Machine} {f : Frame} {fs rest : List Frame} {k k' : Kernel}
variable {n : Next} {v : Value} {block kernel_task : Ptr32} {e : Event}
    {saved : Ptr32 → Option Context}

/-! ## One statement -/

theorem handing_switch (h : handing k f) : f.isSwitch := by
  cases f <;> first | rfl | cases h

theorem starts_saves (h : Activations.starts f) : ∃ c, f.saves k = some (k.running_task, c) := by
  cases f with
  | switchTasks pc => cases pc <;> first | exact ⟨_, rfl⟩ | cases h
  | _ => cases h

/-- No other statement writes `task_state`. -/
theorem exec_state (run : exec block k f = some (k', n)) (none : f.saves k = none) (t : Ptr32) :
    (k'.task t).task_state = (k.task t).task_state := by
  have kept (u : Ptr32) {g : Task → Task} (same : ∀ x, (g x).task_state = x.task_state) :
      ((k.setTask u g).task t).task_state = (k.task t).task_state := by
    by_cases here : t = u
    · rw [here, Kernel.setTask_self, same]
    · rw [Kernel.setTask_other k g here]
  cases writes : f.retasks with
  | false => rw [(exec_effect run).task writes]
  | true =>
      cases f with
      | wait pc | signal pc | delay pc | switchTasks pc =>
          cases pc <;> first
            | (cases writes; done)
            | (cases none; done)
            | (cases run; exact kept _ fun _ => rfl)
      | createTask pc => cases pc <;> first | (cases writes; done) | cases none
      | timerCallback pc task =>
          cases pc with
          | count =>
              cases task with
              | node task =>
                  cases run
                  exact kept _ fun _ => rfl
              | _ => cases run
          | _ => cases writes
      | _ => cases writes

theorem exec_saves {c : Context} {t : Ptr32} (run : exec block k f = some (k', n))
    (saves : f.saves k = some (t, c)) :
    (k'.task t).task_state = c ∧ ∀ u, u ≠ t → (k'.task u).task_state = (k.task u).task_state := by
  cases f with
  | switchTasks pc =>
      cases pc with
      | save =>
          cases saves
          cases run
          exact ⟨by rw [Kernel.setTask_self], fun u other => by rw [Kernel.setTask_other _ _ other]⟩
      | _ => cases saves
  | createTask pc =>
      cases pc with
      | init =>
          cases saves
          cases run
          exact ⟨by rw [Kernel.setTask_self], fun u other => by rw [Kernel.setTask_other _ _ other]⟩
      | _ => cases saves
  | _ => cases saves

/-- A task is there from its `create_task` on. -/
theorem exec_tasks (run : exec block k f = some (k', n)) : k'.tasks = k.tasks ∨
    ∃ t c, f.saves k = some (t, c) ∧ k'.tasks = Function.update k.tasks t true := by
  by_cases static : f.fn ∈ [.switch_tasks, .create_task, .create_queue, .destroy_queue]
  · cases f with
    | createTask pc task_pri new_task =>
        cases pc with
        | init =>
            cases run
            exact .inr ⟨_, _, rfl, rfl⟩
        | _ => grind [execCreateTask]
    | switchTasks pc => cases pc <;> grind [execSwitch]
    | createQueue pc | destroyQueue pc =>
        cases pc <;> cases run <;> exact .inl rfl
    | _ => simp [Frame.fn] at static
  · exact .inl (exec_static run static).2.1

theorem exec_running (run : exec block k f = some (k', n)) (none : f.chosen = none) :
    k'.running_task = k.running_task := by
  by_cases static : f.fn ∈ [.switch_tasks, .create_task, .create_queue, .destroy_queue]
  · cases f with
    | switchTasks pc => cases pc <;> grind [execSwitch, Frame.chosen]
    | createTask pc => cases pc <;> grind [execCreateTask]
    | createQueue pc | destroyQueue pc => cases pc <;> cases run <;> rfl
    | _ => simp [Frame.fn] at static
  · exact (exec_static run static).1

/-- The next task is handed the CPU, unless it has it. -/
theorem exec_chosen {t : Ptr32} (run : exec block k f = some (k', n)) (chosen : f.chosen = some t) :
    k' = { k with running_task := t } ∧ ∃ c, f = .switchTasks .setRunning c t ∧
      n = .goto (.switchTasks .setRun c t) ∧
      (handing k' (.switchTasks .setRun c t) = false → t = k.running_task) := by
  cases f with
  | switchTasks pc c next_task =>
      cases pc with
      | setRunning =>
          cases chosen
          simp only [exec, execSwitch] at run
          split at run
          · split at run
            · next same =>
                cases run
                exact ⟨rfl, c, rfl, rfl, fun _ => same⟩
            · cases run
          · next regs state =>
              cases run
              refine ⟨rfl, c, rfl, rfl, fun not => ?_⟩
              simp [handing, state, isUser] at not
      | _ => cases chosen
  | _ => cases chosen

theorem handing_goes {f' : Frame} (run : exec block k f = some (k', .goto f')) (h : handing k f) :
    handing k' f' := by
  cases f with
  | switchTasks pc =>
      cases pc with
      | setRun =>
          cases run
          have same : ∀ f, (k.setTask k.running_task f).running_task = k.running_task :=
            fun _ => rfl
          simp only [handing, same, Kernel.setTask_self]
          exact h
      | restore => cases run
      | _ => cases h
  | _ => cases h

theorem switch_goes {pc : SwitchPc} {c : Context} {t : Ptr32} {f' : Frame}
    (run : exec block k (.switchTasks pc c t) = some (k', .goto f')) :
    ∃ pc' t', f' = .switchTasks pc' c t' := by
  cases pc <;> grind [execSwitch]

theorem handing_returns (run : exec block k f = some (k', .ret v)) (h : handing k f) :
    ∃ c, v = .context c := by
  cases f with
  | switchTasks pc =>
      cases pc with
      | setRun => cases run
      | restore =>
          cases run
          exact ⟨_, rfl⟩
      | _ => cases h
  | _ => cases h

theorem handing_deliver (v : Value) (f : Frame) : handing k (f.deliver v) = handing k f := by
  unfold Frame.deliver
  split <;> rfl

theorem handing_same
    (state : (k'.task k'.running_task).task_state = (k.task k.running_task).task_state) :
    handing k' f = handing k f := by
  unfold handing
  rw [state]

/-- `switch_tasks` returns the registers that it restores. -/
theorem exec_restore {c : Context} (run : exec block k f = some (k', .ret (.context c))) :
    k' = k ∧ (k.task k.running_task).task_state = c ∧
      ∃ cpu_context next_task, f = .switchTasks .restore cpu_context next_task := by
  have switch := (exec_effect run).next.2 c rfl
  cases f with
  | switchTasks pc =>
      cases pc with
      | restore =>
          cases run
          exact ⟨rfl, rfl, _, _, rfl⟩
      | remove =>
          obtain ⟨k₁, -, same⟩ := Option.bind_eq_some_iff.mp run
          cases same
      | test =>
          simp only [exec, execSwitch] at run
          split at run <;> cases run
      | setRunning =>
          simp only [exec, execSwitch] at run
          split at run
          · split at run <;> cases run
          · cases run
      | _ => cases run
  | _ => cases switch

/-- The kernel creates no tasks. -/
theorem kernel_saves (inside : inKernel f) (plain : f.isSwitch = false) : f.saves k = none := by
  cases f with
  | switchTasks => cases plain
  | createTask => cases inside
  | _ => rfl

theorem plain_chosen (plain : f.isSwitch = false) : f.chosen = none := by
  cases f <;> first | rfl | cases plain

/-- `switch_tasks` is called with the registers that the handler returns to. -/
theorem called_switch {f' g : Frame} (run : exec block k f = some (k', .call f' g))
    (switch : g.isSwitch) :
    ∃ c, g = .switchTasks .save c 0 ∧ f'.context = some c := by
  obtain ⟨tests, -⟩ := (exec_effect run).switch f' g rfl switch
  cases f with
  | trap pc call regs | irq pc i regs =>
      cases pc with
      | sched =>
          rcases sched_spec run with ⟨goto, -⟩ | ⟨called, -⟩
          · cases goto
          · cases called
            exact ⟨regs, rfl, rfl⟩
      | _ => cases tests
  | _ => cases tests

/-! ## The stack -/

theorem home_modifyHead {g : Frame → Frame} (same : ∀ f, (g f).context = f.context) (regs : Regs)
    (fs : List Frame) :
    home regs (fs.modifyHead g) = home regs fs := by
  cases fs <;> simp [home, same]

theorem home_none (none : f.context = none) (regs : Regs) (fs : List Frame) :
    home regs (f :: fs) = home regs fs := by
  simp [home, none]

theorem home_head {f' : Frame} (same : f'.context = f.context) (regs : Regs) (fs : List Frame) :
    home regs (f' :: fs) = home regs (f :: fs) := by
  simp [home, same]

/-- Below the only active handler no function switches tasks. -/
theorem shape_quiet (shape : Shape fs) (none : fs.countP Frame.active = 0) :
    ∀ f ∈ fs, f.isSwitch = false := by
  induction fs with
  | nil => simp
  | cons f fs ih =>
      obtain ⟨switch, -, below⟩ := shape
      have rest : fs.countP Frame.active = 0 := by
        simp only [List.countP_cons] at none
        omega
      intro g mem
      cases mem with
      | head =>
          cases same : f.isSwitch with
          | false => rfl
          | true =>
              obtain ⟨e, fs', rfl, active, -⟩ := switch same
              exact absurd active (List.countP_eq_zero.mp rest e List.mem_cons_self)
      | tail _ mem => exact ih below rest g mem

theorem quiet_handing (quiet : f.isSwitch = false) : handing k f = false := by
  cases same : handing k f with
  | false => rfl
  | true =>
      rw [handing_switch same] at quiet
      cases quiet

/-- A task that is switched to was created or has run. -/
theorem Inv.stored (h : Inv kernel_task s) (mem : f ∈ s.m.kstack) (switch : f.isSwitch)
    (later : Activations.starts f = false) :
    ∃ c, s.saved s.m.k.running_task = some c ∧ (s.m.k.task s.m.k.running_task).task_state = c := by
  cases same : s.saved s.m.k.running_task with
  | some c => exact ⟨c, rfl, h.state _ c same⟩
  | none =>
      rcases h.known _ h.runs with stored | kernel
      · exact absurd same stored
      · have starts := (h.first (kernel ▸ same)).2 f mem switch
        rw [later] at starts
        cases starts

theorem Inv.preserved (h : Inv kernel_task s) : Preserved s := by
  refine ⟨fun cpu_context next_task rest stack => ?_, h.own⟩
  obtain ⟨c, saved, state⟩ :=
    h.stored (f := .switchTasks .restore cpu_context next_task) (by simp [stack]) rfl rfl
  refine ⟨c, saved, state, fun block k n run => ?_⟩
  simp only [exec, execSwitch, state] at run
  cases run
  rfl

/-- Below a call of `switch_tasks` is its handler, and no other call. -/
theorem shape_below (shape : Shape (f :: rest)) (switch : f.isSwitch) :
    ∀ g ∈ rest, g.isSwitch = false := by
  obtain ⟨e, fs, rfl, active, none⟩ := shape.1 switch
  intro g mem
  cases mem with
  | head => exact entry_plain (active_entry active)
  | tail _ mem => exact shape_quiet shape.2.2.2.2 none g mem

theorem called_plain (plain : f.isSwitch = false) : Called k f rest := by
  rintro pc c t rfl
  cases plain

theorem callers_plain (plain : ∀ f ∈ fs, f.isSwitch = false) : Callers k fs := by
  induction fs with
  | nil => trivial
  | cons f fs ih =>
      exact ⟨called_plain (plain f List.mem_cons_self),
          ih fun g mem => plain g (List.mem_cons_of_mem f mem)⟩

theorem callers_same
    (state : (k'.task k'.running_task).task_state = (k.task k.running_task).task_state)
    (h : Callers k fs) : Callers k' fs := by
  induction fs with
  | nil => trivial
  | cons f fs ih =>
      refine ⟨fun pc c t same => ?_, ih h.2⟩
      obtain ⟨context, stored⟩ := h.1 pc c t same
      refine ⟨context, fun later keeps => ?_⟩
      rw [handing_same state] at keeps
      exact state.trans (stored later keeps)

theorem callers_deliver (v : Value) (h : Callers k fs) :
    Callers k (fs.modifyHead (.deliver v)) := by
  cases fs with
  | nil => trivial
  | cons f fs =>
      refine ⟨?_, h.2⟩
      cases f with
      | switchTasks pc c t =>
          rw [deliver_switch]
          exact h.1
      | _ => exact called_plain ((deliver_isSwitch v _).trans rfl)

theorem record_none {t : Ptr32} {new : Option (Ptr32 × Context)}
    (unsaved : record saved new t = none) :
    saved t = none ∧ ∀ c, new ≠ some (t, c) := by
  cases new with
  | none => exact ⟨unsaved, nofun⟩
  | some new =>
      obtain ⟨u, d⟩ := new
      by_cases same : t = u
      · simp [record, same] at unsaved
      · refine ⟨by simpa [record, same] using unsaved, fun c both => ?_⟩
        exact same (congrArg Prod.fst (Option.some.inj both)).symm

section Statement

variable (h : Inv kernel_task s) (run : exec block s.m.k f = some (k, n))

include h run

theorem record_state (t : Ptr32) (c : Context)
    (stored : record s.saved (f.saves s.m.k) t = some c) :
    (k.task t).task_state = c := by
  cases saves : f.saves s.m.k with
  | none =>
      rw [saves] at stored
      rw [exec_state run saves]
      exact h.state t c stored
  | some new =>
      obtain ⟨u, d⟩ := new
      obtain ⟨here, others⟩ := exec_saves run saves
      rw [saves] at stored
      by_cases same : t = u
      · subst same
        rw [here]
        simpa [record] using stored
      · rw [others t same]
        exact h.state t c (by simpa [record, same] using stored)

omit run in
theorem record_own (mine : ∀ t regs, f.saves s.m.k = some (t, .user regs) → regs.stack = t)
    (t : Ptr32) (regs : Regs)
    (stored : record s.saved (f.saves s.m.k) t = some (.user regs)) : regs.stack = t := by
  cases saves : f.saves s.m.k with
  | none =>
      rw [saves] at stored
      exact h.own t regs stored
  | some new =>
      obtain ⟨u, d⟩ := new
      rw [saves] at stored
      by_cases same : t = u
      · subst same
        have here : d = .user regs := by simpa [record] using stored
        exact mine t regs (by rw [saves, here])
      · exact h.own t regs (by simpa [record, same] using stored)

theorem record_known (t : Ptr32) (there : k.tasks t) :
    record s.saved (f.saves s.m.k) t ≠ none ∨ t = kernel_task := by
  refine or_iff_not_imp_left.mpr fun none => ?_
  obtain ⟨unsaved, other⟩ := record_none (not_not.mp none)
  rcases exec_tasks run with same | ⟨u, c, saves, tasks⟩
  · rw [same] at there
    exact (h.known t there).resolve_left (not_not.mpr unsaved)
  · have away : t ≠ u := by
      rintro rfl
      exact other c saves
    rw [tasks, Function.update_of_ne away] at there
    exact (h.known t there).resolve_left (not_not.mpr unsaved)

theorem runs_kept (ok : ∀ t, f.chosen = some t → s.m.k.tasks t) : k.tasks k.running_task := by
  cases chosen : f.chosen with
  | none =>
      rw [exec_running run chosen]
      rcases exec_tasks run with same | ⟨u, c, -, tasks⟩
      · rw [same]
        exact h.runs
      · rw [tasks]
        by_cases here : s.m.k.running_task = u
        · simp [here]
        · rw [Function.update_of_ne here]
          exact h.runs
  | some t =>
      obtain ⟨rfl, -⟩ := exec_chosen run chosen
      exact ok t chosen

end Statement

section Kernel

variable (h : Inv kernel_task s) (stack : s.m.kstack = f :: rest)
    (run : exec block s.m.k f = some (k, n))
variable (after : ({ s.m with k } : Machine).afterKernel rest n = some m')

include h stack run after

omit after in
/-- Only `switch_tasks` touches the registers that are stored. -/
theorem plain_state (plain : f.isSwitch = false) : (k.task k.running_task).task_state =
    (s.m.k.task s.m.k.running_task).task_state := by
  have inside := h.kernel f (by simp [stack])
  rw [exec_running run (plain_chosen plain), exec_state run (kernel_saves inside plain)]

omit h in
/-- What is interrupted changes only when registers are restored. -/
theorem kernel_home (keeps : ∀ c, n ≠ .ret (.context c)) :
    home m'.regs m'.kstack = home s.m.regs s.m.kstack := by
  rw [stack]
  have belongs := (exec_effect run).next
  cases n with
  | goto f' =>
      cases after
      exact home_head belongs.2 ..
  | call f' g =>
      cases after
      rw [home_none (calls_plain belongs.2.2.1).2.1]
      exact home_head belongs.2.1 ..
  | int f' call =>
      cases after
      obtain ⟨plain, plain', -⟩ := int_plain belongs
      have same : home s.m.regs (f' :: rest) = home s.m.regs (f :: rest) :=
        home_head ((plain_context plain').trans (plain_context plain).symm) ..
      simpa [Machine.enter, home, Frame.context] using same
  | write f' b =>
      rw [← home_head belongs.2.1]
      cases rest with
      | nil =>
          cases after
          rfl
      | cons g gs =>
          cases after
          have context : (g.deliver (.ptr (some b))).context = g.context :=
            deliver_context _ g (by simp)
          simp [home, context]
  | ret v =>
      cases after
      have context (f : Frame) : (f.deliver v).context = f.context :=
        deliver_context v f fun c same => keeps c (by rw [same])
      rw [home_none (plain_context belongs.1)]
      exact home_modifyHead context ..
  | iret regs =>
      cases regs with
      | user regs =>
          cases after
          simp [home, belongs.1]
      | kernel intr =>
          simp only [Machine.afterKernel, Machine.iret] at after
          split at after <;> cases after
          simp [home, belongs.1]

/-- While the registers of the next task are to be restored, they stay so. -/
theorem kernel_handing (keeps : ∀ c, n ≠ .ret (.context c))
    (quiet : ∀ g ∈ m'.kstack, handing k g = false) : ∀ g ∈ s.m.kstack, handing s.m.k g = false := by
  have belongs := (exec_effect run).next
  have shape := h.nested.shape
  rw [stack] at shape ⊢
  cases switch : f.isSwitch with
  | true =>
      have below := shape_below shape switch
      refine List.forall_mem_cons.mpr ⟨?_, fun g mem => quiet_handing (below g mem)⟩
      cases hands : handing s.m.k f with
      | false => rfl
      | true =>
          cases n with
          | goto f' =>
              have next := handing_goes run hands
              cases after
              rw [quiet f' List.mem_cons_self] at next
              cases next
          | ret v =>
              obtain ⟨c, rfl⟩ := handing_returns run hands
              exact absurd rfl (keeps c)
          | call f' g =>
              rw [calls_plain_caller belongs.2.2.1] at switch
              cases switch
          | int f' call =>
              rw [(traps_plain belongs.2).2] at switch
              cases switch
          | write f' b =>
              rw [entry_plain belongs.2.2] at switch
              cases switch
          | iret regs =>
              rw [entry_plain (Activations.entry_of_context belongs.1)] at switch
              cases switch
  | false =>
      have same := plain_state h stack run switch
      refine List.forall_mem_cons.mpr ⟨quiet_handing switch, fun g mem => ?_⟩
      rw [← handing_same same]
      have delivered (v : Value) (quiet : ∀ g ∈ rest.modifyHead (.deliver v), handing k g = false) :
          handing k g = false := by
        cases rest with
        | nil => cases mem
        | cons e fs =>
            cases mem with
            | head => exact (handing_deliver v g).symm.trans (quiet _ List.mem_cons_self)
            | tail _ mem => exact quiet g (List.mem_cons_of_mem _ mem)
      cases n with
      | goto f' | call f' h =>
          cases after
          exact quiet g (by simp [mem])
      | int f' call =>
          cases after
          exact quiet g (by simp [Machine.enter, mem])
      | write f' b =>
          refine delivered (.ptr (some b)) fun e there => ?_
          cases rest with
          | nil => cases mem
          | cons =>
              cases after
              exact quiet e (List.mem_cons_of_mem _ there)
      | ret v =>
          cases after
          exact delivered v quiet
      | iret regs =>
          cases regs with
          | user regs =>
              exact quiet_handing (shape_quiet shape.2.2 (shape.2.1 regs belongs.1) g mem)
          | kernel intr =>
              simp only [Machine.afterKernel, Machine.iret] at after
              split at after <;> cases after
              exact quiet g mem

omit after in
/-- The registers that are restored are those of the running task. -/
theorem restored_home {c : Context} (restores : n = .ret (.context c)) :
    (home s.m.regs (rest.modifyHead (.deliver (.context c)))).stack = s.m.k.running_task := by
  subst restores
  obtain ⟨-, state, cpu_context, next_task, rfl⟩ := exec_restore run
  have shape := h.nested.shape
  have called := h.callers
  have stays := h.stays
  rw [stack] at shape called stays
  have below := shape_below shape rfl
  obtain ⟨e, fs, rfl, active, -⟩ := shape.1 rfl
  have delivered : (e.deliver (.context c)).context = some c := by
    cases e <;> first | rfl | cases active
  cases c with
  | user regs =>
      have first : .switchTasks .restore cpu_context next_task ∈ s.m.kstack := by simp [stack]
      obtain ⟨c, saved, stored⟩ := h.stored first rfl rfl
      have own := h.own _ regs (by rw [saved, ← stored, state])
      simpa [home, delivered] using own
  | kernel intr =>
      have keeps : handing s.m.k (.switchTasks .restore cpu_context next_task) = false := by
        simp [handing, state, isUser]
      obtain ⟨context, stored⟩ := called.1 _ _ _ rfl
      rw [← stored (by decide) keeps, state] at context
      have context : e.context = some (.kernel intr) := context
      have old := stays (List.forall_mem_cons.mpr ⟨keeps, fun g mem => quiet_handing (below g mem)⟩)
      rw [home_none rfl] at old
      simpa [home, context, delivered] using old

/-- The task that is interrupted stays the running one, until the next is handed the CPU. -/
theorem kernel_stays (quiet : ∀ g ∈ m'.kstack, handing m'.k g = false) :
    (home m'.regs m'.kstack).stack = m'.k.running_task := by
  obtain ⟨intr, same⟩ := afterKernel_k after
  have state :
      (k.task k.running_task).task_state = (m'.k.task m'.k.running_task).task_state := by rw [same]
  have quiet : ∀ g ∈ m'.kstack, handing k g = false :=
    fun g mem => (handing_same state).trans (quiet g mem)
  have running : m'.k.running_task = k.running_task := by rw [same]
  rw [running]
  by_cases restores : ∃ c, n = .ret (.context c)
  · obtain ⟨c, rfl⟩ := restores
    obtain ⟨rfl, -⟩ := exec_restore run
    cases after
    exact restored_home h stack run rfl
  · have keeps : ∀ c, n ≠ .ret (.context c) := fun c same => restores ⟨c, same⟩
    rw [kernel_home stack run after keeps, h.stays (kernel_handing h stack run after keeps quiet)]
    cases chosen : f.chosen with
    | some t =>
        obtain ⟨rfl, c, rfl, rfl, own⟩ := exec_chosen run chosen
        cases after
        exact (own (quiet _ List.mem_cons_self)).symm
    | none => exact (exec_running run chosen).symm

omit after in
/-- A step of `switch_tasks` leaves it called by the same frame. -/
theorem called_goto {f' : Frame} (goes : n = .goto f') : Called k f' rest := by
  subst goes
  rintro pc c t rfl
  have old := h.callers
  rw [stack] at old
  cases f with
  | switchTasks pc' c' t' =>
      obtain ⟨pc, t, same⟩ := switch_goes run
      cases same
      obtain ⟨context, stored⟩ := old.1 _ _ _ rfl
      refine ⟨context, fun _ keeps => ?_⟩
      cases saves : (Frame.switchTasks pc' c t').saves s.m.k with
      | some new =>
          cases pc' <;> cases saves
          rw [exec_running run rfl]
          exact (exec_saves run rfl).1
      | none =>
          have later : pc' ≠ .save := by
            rintro rfl
            cases saves
          cases chosen : (Frame.switchTasks pc' c t').chosen with
          | some u =>
              obtain ⟨rfl, c, same, goes, own⟩ := exec_chosen run chosen
              cases same
              cases goes
              rw [own keeps]
              exact stored later rfl
          | none =>
              rw [exec_running run chosen, exec_state run saves]
              refine stored later ?_
              cases hands : handing s.m.k (.switchTasks pc' c t') with
              | false => rfl
              | true =>
                  rw [handing_goes run hands] at keeps
                  cases keeps
  | _ => cases (exec_effect run).next.1

theorem kernel_callers : Callers k m'.kstack := by
  have eff := exec_effect run
  have below : Callers k rest := by
    have old := h.callers
    have shape := h.nested.shape
    rw [stack] at old shape
    cases switch : f.isSwitch with
    | true => exact callers_plain (shape_below shape switch)
    | false => exact callers_same (plain_state h stack run switch) old.2
  cases n with
  | goto f' =>
      cases after
      exact ⟨called_goto h stack run rfl, below⟩
  | call f' g =>
      have caller : f'.isSwitch = false :=
        (same_isSwitch eff.next.1).trans (calls_plain_caller eff.next.2.2.1)
      cases after
      refine ⟨?_, called_plain caller, below⟩
      rintro pc c t rfl
      obtain ⟨c', same, context⟩ := called_switch run rfl
      cases same
      exact ⟨context, fun later => absurd rfl later⟩
  | int f' call =>
      cases after
      exact ⟨called_plain rfl, called_plain (int_plain eff.next).2.2, below⟩
  | write f' b =>
      have entry : f'.isEntry := (same_isEntry eff.next.1).trans eff.next.2.2
      cases rest with
      | nil =>
          cases after
          exact ⟨called_plain (entry_plain entry), trivial⟩
      | cons g gs =>
          cases after
          exact ⟨called_plain (entry_plain entry), callers_deliver (.ptr (some b)) below⟩
  | ret v =>
      cases after
      exact callers_deliver v below
  | iret regs =>
      cases regs with
      | user regs =>
          cases after
          trivial
      | kernel intr =>
          simp only [Machine.afterKernel, Machine.iret] at after
          split at after <;> cases after
          exact below

end Kernel

/-- Before a task has been switched out no other runs. -/
theorem Inv.first_frames (h : Inv kernel_task s) (mem : f ∈ s.m.kstack)
    (unsaved : record s.saved (f.saves s.m.k) kernel_task = none) : f.isSwitch = false := by
  obtain ⟨old, new⟩ := record_none unsaved
  obtain ⟨running, starting⟩ := h.first old
  cases switch : f.isSwitch with
  | false => rfl
  | true =>
      obtain ⟨c, saves⟩ := starts_saves (k := s.m.k) (starting f mem switch)
      exact absurd (running ▸ saves) (new c)

theorem kernel_inv (h : Inv kernel_task s) (nested : Nested m') (masked : Masked m')
    (ok : ∀ t, f.chosen = some t → s.m.k.tasks t) (stack : s.m.kstack = f :: rest)
    (run : exec block s.m.k f = some (k, n))
    (after : ({ s.m with k } : Machine).afterKernel rest n = some m') :
    Inv kernel_task ⟨m', record s.saved (f.saves s.m.k)⟩ := by
  obtain ⟨intr, same⟩ := afterKernel_k after
  have task : m'.k.task = k.task := by rw [same]
  have tasks : m'.k.tasks = k.tasks := by rw [same]
  have running : m'.k.running_task = k.running_task := by rw [same]
  refine ⟨nested, masked, ?_, ?_, ?_, fun unsaved => ?_, ?_, ?_, ?_, kernel_stays h stack run after⟩
  · exact fun t c stored => (congrArg Task.task_state (congrFun task t)).trans
        (record_state h run t c stored)
  · refine record_own h fun t regs saves => ?_
    cases f with
    | switchTasks pc c next_task =>
        cases pc with
        | save =>
            cases saves
            have callers := h.callers
            have shape := h.nested.shape
            have stays := h.stays
            rw [stack] at callers shape stays
            have below := shape_below shape rfl
            have home :=
              stays (List.forall_mem_cons.mpr ⟨rfl, fun g mem => quiet_handing (below g mem)⟩)
            obtain ⟨e, fs, rfl, -⟩ := shape.1 rfl
            have context : e.context = some (.user regs) := (callers.1 _ _ _ rfl).1
            rw [home_none rfl] at home
            simpa only [Contexts.home, context] using home
        | _ => cases saves
    | createTask pc =>
        cases pc with
        | init =>
            cases saves
            rfl
        | _ => cases saves
    | _ => cases saves
  · exact fun t there => record_known h run t (congrFun tasks t ▸ there)
  · have plain := h.first_frames (f := f) (by simp [stack]) unsaved
    obtain ⟨first, starting⟩ := h.first (record_none unsaved).1
    have chosen : f.chosen = none := by
      cases f <;> first | rfl | cases plain
    refine ⟨running.trans ((exec_running run chosen).trans first), ?_⟩
    refine kernel_frames (fun v f _ => ?_) (fun g mem => starting g (by simp [stack, mem])) ?_
      (fun _ _ _ _ switch => by cases switch) after
    · rw [deliver_isSwitch, Activations.starts_deliver]
      exact id
    · intro g mem switch
      have belongs := (exec_effect run).next
      have others (f' : Frame) (fn : f'.fn = f.fn) : f'.isSwitch = false :=
        (same_isSwitch fn).trans plain
      cases n with
      | goto f' | int f' c | write f' b =>
          cases List.mem_singleton.mp mem
          rw [others _ belongs.1] at switch
          cases switch
      | call f' h =>
          simp only [Next.frames, List.mem_cons, List.not_mem_nil, or_false] at mem
          rcases mem with rfl | rfl
          · obtain ⟨c, rfl, -⟩ := called_switch run switch
            rfl
          · rw [others _ belongs.1] at switch
            cases switch
      | ret v | iret regs => cases mem
  · have kept := runs_kept h run ok
    rw [← tasks, ← running] at kept
    exact kept
  · have kernel := h.kernel
    rw [stack] at kernel
    exact kernel_frames (fun v f _ => inKernel_deliver v)
        (fun f mem => kernel f (List.mem_cons_of_mem _ mem))
      (exec_inKernel run (kernel f List.mem_cons_self)) (fun _ _ _ _ => rfl) after
  · exact callers_same (by rw [task, running]) (kernel_callers h stack run after)

theorem handing_wake (f : Frame) : handing k f.wake = handing k f := by
  unfold Frame.wake
  split <;> rfl

theorem handing_woken :
    (∀ f ∈ fs.modifyHead .wake, handing k f = false) ↔ ∀ f ∈ fs, handing k f = false := by
  cases fs <;> simp [handing_wake]

theorem inKernel_wake (inside : inKernel f) : inKernel f.wake := by
  unfold Frame.wake
  split
  · rfl
  · exact inside

theorem callers_wake (h : Callers k fs) : Callers k (fs.modifyHead .wake) := by
  cases fs with
  | nil => trivial
  | cons f fs =>
      refine ⟨?_, h.2⟩
      cases f with
      | switchTasks pc c t =>
          obtain ⟨context, stored⟩ := h.1 _ _ _ rfl
          cases pc with
          | halted =>
              rintro pc c t same
              cases same
              exact ⟨context, fun _ _ => stored (by decide) rfl⟩
          | _ => exact h.1
      | _ => exact called_plain rfl

theorem starts_wake (old : f.isSwitch → Activations.starts f) : f.wake.isSwitch →
    Activations.starts f.wake := by
  unfold Frame.wake
  split
  · exact fun switch => by cases old switch
  · exact old

/-- An event that leaves the tasks and what runs alone. -/
theorem Inv.same (h : Inv kernel_task s) (nested : Nested m') (masked : Masked m')
    (task : m'.k.task = s.m.k.task)
    (tasks : m'.k.tasks = s.m.k.tasks) (running : m'.k.running_task = s.m.k.running_task)
    (starting : (∀ f ∈ s.m.kstack, f.isSwitch → Activations.starts f) →
        ∀ f ∈ m'.kstack, f.isSwitch → Activations.starts f)
    (kernel : (∀ f ∈ s.m.kstack, inKernel f) → ∀ f ∈ m'.kstack, inKernel f)
    (callers : Callers s.m.k s.m.kstack → Callers s.m.k m'.kstack)
    (handed : (∀ f ∈ m'.kstack, handing s.m.k f = false) →
        ∀ f ∈ s.m.kstack, handing s.m.k f = false)
    (home : (home m'.regs m'.kstack).stack = (home s.m.regs s.m.kstack).stack) :
    Inv kernel_task ⟨m', s.saved⟩ := by
  have state : (m'.k.task m'.k.running_task).task_state =
      (s.m.k.task s.m.k.running_task).task_state := by rw [task, running]
  refine ⟨nested, masked, ?_, h.own, ?_, fun unsaved => ?_, ?_, kernel h.kernel,
    callers_same state (callers h.callers), fun quiet => ?_⟩
  · rw [task]
    exact h.state
  · rw [tasks]
    exact h.known
  · rw [running]
    exact ⟨(h.first unsaved).1, starting (h.first unsaved).2⟩
  · rw [tasks, running]
    exact h.runs
  · rw [running, home]
    exact h.stays (handed fun f mem => (handing_same state).symm.trans (quiet f mem))

/-- The statements of a task do not touch the kernel stack, but for a system call. -/
theorem task_inv (h : Inv kernel_task s) (nested : Nested m') (masked : Masked m')
    (out : s.m.kstack = [])
    (stack : s.m.current = f :: rest) (run : exec block s.m.k f = some (k, n))
    (after : ({ s.m with k } : Machine).afterTask rest n = some m') :
    Inv kernel_task ⟨m', record s.saved (f.saves s.m.k)⟩ := by
  obtain ⟨-, regs, ⟨intr, same⟩, kstack⟩ := afterTask_spec out after
  have task : m'.k.task = k.task := by rw [same]
  have tasks : m'.k.tasks = k.tasks := by rw [same]
  have running : m'.k.running_task = k.running_task := by rw [same]
  have plain : f.library := h.nested.library s.m.regs.stack f
      (by simp [show s.m.ustack s.m.regs.stack = f :: rest from stack])
  have chosen : f.chosen = none := by
    cases f <;> first | rfl | cases plain
  have stays : s.m.k.running_task = s.m.regs.stack := by
    have stays := h.stays (by simp [out])
    rw [out] at stays
    exact stays.symm
  refine ⟨nested, masked, ?_, ?_, ?_, fun unsaved => ⟨?_, ?_⟩, ?_, ?_, ?_, fun _ => ?_⟩
  · exact fun t c stored => (congrArg Task.task_state (congrFun task t)).trans
        (record_state h run t c stored)
  · refine record_own h fun t regs saves => ?_
    cases f with
    | createTask pc =>
        cases pc with
        | init =>
            cases saves
            rfl
        | _ => cases saves
    | switchTasks => cases plain
    | _ => cases saves
  · exact fun t there => record_known h run t (congrFun tasks t ▸ there)
  · exact running.trans ((exec_running run chosen).trans (h.first (record_none unsaved).1).1)
  · rcases kstack with empty | ⟨call, c, trap⟩
    · simp [empty]
    · simp [trap, Frame.isSwitch, Frame.fn]
  · have kept := runs_kept h run fun t same => by simp [chosen] at same
    rw [← tasks, ← running] at kept
    exact kept
  · rcases kstack with empty | ⟨call, c, trap⟩
    · simp [empty]
    · simp [trap, inKernel]
  · refine callers_plain ?_
    rcases kstack with empty | ⟨call, c, trap⟩
    · simp [empty]
    · simp [trap, Frame.isSwitch, Frame.fn]
  · have here := (exec_running run chosen).trans stays
    cases n with
    | int f' call =>
        cases after
        simp [Machine.enter, out, home, Frame.context, here]
    | write f' b => cases after
    | iret c => cases after
    | _ =>
        cases after
        simp [out, home, here]

theorem enter_home {F : Context → Frame} (context : ∀ c, (F c).context = some c) :
    (home (m.enter F).regs (m.enter F).kstack).stack = (home m.regs m.kstack).stack := by
  unfold Machine.enter
  split
  · next empty => simp [home, context, empty]
  · next fs _ => simp [home, context]

theorem saves_top (here : top m = some f) (block : Ptr32) :
    saves m (.stmt block) = f.saves m.k := by
  simp [saves, here]

theorem inv_step (h : Inv kernel_task s) (ok : Ok s e) (step : s.step e = some t) :
    Inv kernel_task t := by
  obtain ⟨m', stepped, same⟩ := Option.bind_eq_some_iff.mp step
  cases same
  have nested := nested_step h.nested stepped
  have masked := masked_step h.masked stepped
  cases stepped_of_step stepped with
  | kernel stack run after =>
      have here := top_kernel stack
      rw [saves_top here]
      exact kernel_inv h nested masked (fun t chosen => by simpa [Ok, here, chosen] using ok)
          stack run after
  | task out stack run after =>
      rw [saves_top (top_task out stack)]
      exact task_inv h nested masked out stack run after
  | @irq i on unmasked =>
      obtain ⟨c, kstack⟩ :=
        enter_frames { s.m with kstack := s.m.kstack.modifyHead .wake } (.irq .enter i)
      refine h.same nested masked ?_ ?_ ?_ (fun starting => ?_) (fun inside => ?_)
          (fun called => ?_)
        (fun quiet => ?_) ?_
      · rw [enter_k]
      · rw [enter_k]
      · rw [enter_k]
      · rw [kstack]
        refine List.forall_mem_cons.mpr ⟨by simp [Frame.isSwitch, Frame.fn], ?_⟩
        exact modifyHead_frames (P := fun f => f.isSwitch → Activations.starts f)
            (fun f => starts_wake) starting
      · rw [kstack]
        refine List.forall_mem_cons.mpr ⟨rfl, ?_⟩
        exact modifyHead_frames (P := fun f => inKernel f) (fun f => inKernel_wake) inside
      · rw [kstack]
        exact ⟨called_plain rfl, callers_wake called⟩
      · rw [kstack] at quiet
        exact handing_woken.mp fun f mem => quiet f (List.mem_cons_of_mem _ mem)
      · rw [enter_home fun c => rfl]
        exact congrArg Regs.stack (home_modifyHead wake_context ..)
  | call user c =>
      have out := user.1
      cases c with
      | yield =>
          obtain ⟨c, kstack⟩ := enter_frames s.m (.trap .enter .yield)
          have same : (s.m.call .yield).k = { s.m.k with intr := false } := enter_k ..
          refine h.same nested masked ?_ ?_ ?_ (fun _ => ?_) (fun _ => ?_) (fun _ => ?_)
            (fun _ => by simp [out]) ?_
          · rw [same]
          · rw [same]
          · rw [same]
          · simp [Machine.call, kstack, out, Frame.isSwitch, Frame.fn]
          · simp [Machine.call, kstack, out, inKernel]
          · rw [Machine.call, kstack, out]
            exact ⟨called_plain rfl, trivial⟩
          · exact enter_home fun c => rfl
      | _ => exact h.same nested masked rfl rfl rfl id id id id rfl
  | compute user others =>
      refine h.same nested masked rfl rfl rfl id id id id ?_
      simp [user.1, home]
  | store user dest byte => exact h.same nested masked rfl rfl rfl id id id id rfl
  | keybd user queue => exact h.same nested masked rfl rfl rfl id id id id rfl

theorem boot_inv (kernel_task : Ptr32) : Inv kernel_task ⟨.boot kernel_task, fun _ => none⟩ where
  nested := (boot_outside kernel_task).nested
  masked := (boot_outside kernel_task).masked
  state := nofun
  own := nofun
  known t there := .inr (of_decide_eq_true there)
  first _ := ⟨rfl, by simp [Machine.boot]⟩
  runs := decide_eq_true rfl
  kernel := by simp [Machine.boot]
  callers := trivial
  stays _ := rfl

instance (s : Contexts) (e : Event) : Decidable (Ok s e) :=
  inferInstanceAs (Decidable (((top s.m).bind Frame.chosen).all s.m.k.tasks = true))

/-- The kernel task creates the task 8, of a higher priority, computes and yields; the task 8
    waits. -/
def switched : List Event :=
  [.call (.createTask 1)] ++ List.replicate 8 (.stmt 8) ++ List.replicate 14 (.stmt 12) ++
    [.compute 7, .call .yield] ++ List.replicate 14 (.stmt 0) ++
    [.call (.wait 2 .tasks_wait)] ++ List.replicate 22 (.stmt 0)

def restores : Frame → Bool
  | .switchTasks .restore .. => true
  | _ => false

/-- The kernel task is about to get its registers back. -/
def restoring (s : Contexts) : Bool :=
  s.m.k.running_task = 4 ∧ s.saved 4 = some (.user ⟨4, true, 7⟩) ∧ s.m.kstack.head?.any restores

end Contexts

end Krypton
