import Krypton.Kernel.Places

/-! # Waits for one signal

Where every `wait` is for one signal, the signal that wakes a task is all that
the task waits for: no task that is ready has a bit in `sigs_waiting`, and no
signal finds one by mistake.
-/

namespace Krypton

open LinkStore

namespace Operations

/-- The mask has one bit. -/
def OneBit (sigs : BitVec 32) : Prop := ∃ i : Fin 32, sigs = BitVec.twoPow 32 i

instance (sigs : BitVec 32) : Decidable (OneBit sigs) :=
  inferInstanceAs (Decidable (∃ _ : Fin 32, _))

/-- What `wait` is called with. -/
def Asks : Frame → Prop
  | .wait pc sigs _ => pc = .setWaiting → OneBit sigs
  | _ => True

/-- A task waits for one signal at a time. -/
def Single (m : Machine) : Event → Prop
  | .stmt _ => ∀ f ∈ top m, Asks f
  | _ => True

instance (f : Frame) : Decidable (Asks f) :=
  match f with
  | .wait _ sigs _ => inferInstanceAs (Decidable (_ → OneBit sigs))
  | .permit _ | .signal .. | .delay .. | .createTask .. => instDecidableTrue
  | .createQueue .. | .destroyQueue .. => instDecidableTrue
  | .queueSend .. | .queueRecv .. | .registerDevice .. | .getDevice .. => instDecidableTrue
  | .trap .. | .irq .. | .switchTasks .. | .timerCallback .. | .keypressIsr .. => instDecidableTrue

instance (m : Machine) (e : Event) : Decidable (Single m e) :=
  match e with
  | .stmt _ => inferInstanceAs (Decidable (∀ f ∈ top m, Asks f))
  | .irq _ | .call _ | .compute _ | .store .. | .keybd _ => instDecidableTrue

/-- The task that is ready and has a bit in `sigs_waiting`, between two statements of a function. -/
def awake (k : Kernel) : Frame → Option Ptr32
  | .wait .clearRecvd .. | .wait .clearReady .. => some k.running_task
  | .signal .clearWaiting t _ => some t
  | _ => none

/-- `signal` has passed its test. -/
def passes : SignalPc → Bool
  | .forbid | .setReady | .clearWaiting => true
  | _ => false

/-- What the tasks wait for, while the frame is executed. -/
structure Awaits (k : Kernel) (f : Option Frame) : Prop where
  bit : ∀ t, (k.task t).sigs_waiting = 0 ∨ OneBit (k.task t).sigs_waiting
  ready : ∀ t, (k.task t).ready → (∀ g ∈ f, awake k g ≠ some t) → (k.task t).sigs_waiting = 0
  passed : ∀ pc t sigs, f = some (.signal pc t sigs) → passes pc →
      (k.task t).sigs_waiting &&& sigs ≠ 0

variable {m m' : Machine} {e : Event} {f g : Frame} {rest : List Frame}
variable {k k' : Kernel} {n : Next} {block : Ptr32}

/-- One bit is in a mask or not. -/
theorem oneBit_and {w : BitVec 32} (bit : OneBit w) (sigs : BitVec 32) : w &&& sigs = 0 ∨
    w &&& sigs = w := by
  obtain ⟨i, rfl⟩ := bit
  rw [BitVec.twoPow_and]
  split
  · exact .inr rfl
  · exact .inl rfl

/-- What a task waits for is gone with the signal. -/
theorem cleared_all {w sigs : BitVec 32} (bit : w = 0 ∨ OneBit w) (meets : w &&& sigs ≠ 0) :
    w &&& ~~~sigs = 0 := by
  rcases bit with rfl | bit
  · simp at meets
  · have all := (oneBit_and bit sigs).resolve_left meets
    rw [← all, BitVec.and_assoc, BitVec.and_not_self]
    simp

theorem Awaits.calm {o : Option Frame} (h : Awaits k o) (calm : ∀ g ∈ o, awake k g = none) :
    Awaits k none where
  bit := h.bit
  ready t ready _ := h.ready t ready fun g mem => by simp [calm g mem]
  passed _ _ _ same := by cases same

theorem Awaits.asleep {t : Ptr32} (h : Awaits k none) (ready : (k.task t).ready) :
    (k.task t).sigs_waiting = 0 :=
  h.ready t ready (by simp)

theorem Awaits.enter {o : Option Frame} (h : Awaits k none)
    (early : ∀ pc t sigs, o = some (.signal pc t sigs) → passes pc = false) : Awaits k o where
  bit := h.bit
  ready t ready _ := h.asleep ready
  passed pc t sigs same passed := by
    rw [early pc t sigs same] at passed
    cases passed

theorem window_passes (pc : SignalPc) (t : Ptr32) (sigs : BitVec 32)
    (window : (Frame.signal pc t sigs).window = .none) : passes pc = false := by
  cases pc <;> first | rfl | cases window

/-- Statements that change neither the signals that tasks wait for nor which are ready. -/
theorem Awaits.same (h : Awaits k (some f)) (calm : awake k f = none)
    (waiting : ∀ t, (k'.task t).sigs_waiting = (k.task t).sigs_waiting)
    (ready : ∀ t, (k'.task t).ready = (k.task t).ready) : Awaits k' none where
  bit t := by
    rw [waiting]
    exact h.bit t
  ready t awake _ := by
    rw [waiting]
    exact h.ready t (ready t ▸ awake) fun g mem => by cases mem; simp [calm]
  passed _ _ _ same := by cases same

/-- The frame goes on at another statement. -/
def goes : Next → Option Frame
  | .goto f => some f
  | _ => none

theorem goes_signal {pc : SignalPc} {t : Ptr32} {sigs : BitVec 32}
    (same : goes n = some (.signal pc t sigs)) :
    n = .goto (.signal pc t sigs) := by
  cases n <;> cases same
  rfl

/-- The next statement sets or clears `TS_READY`. -/
def flags : Frame → Bool
  | .wait .clearReady .. | .signal .setReady .. | .createTask .init .. => true
  | _ => false

theorem setTask_flag (k : Kernel) (u t : Ptr32) {h : Task → Task}
    (same : ∀ x, (h x).ready = x.ready) :
    ((k.setTask u h).task t).ready = (k.task t).ready := by
  by_cases here : t = u
  · rw [here, Kernel.setTask_self, same]
  · rw [Kernel.setTask_other k h here]

theorem exec_flags (run : exec block k f = some (k', n)) (none : flags f = false) (t : Ptr32) :
    (k'.task t).ready = (k.task t).ready := by
  cases writes : f.retasks with
  | false => rw [(exec_effect run).task writes]
  | true =>
      cases f with
      | wait pc | signal pc | delay pc =>
          cases pc <;> first
            | (cases writes; done)
            | (cases none; done)
            | (cases run; exact setTask_flag k _ t fun _ => rfl)
      | createTask pc => cases pc <;> first | (cases writes; done) | cases none
      | switchTasks pc c =>
          cases pc with
          | save =>
              cases run
              exact setTask_flag k _ t fun x => ready_stop x c
          | setRun =>
              cases run
              exact setTask_flag k _ t ready_start
          | _ => cases writes
      | timerCallback pc task =>
          cases pc with
          | count =>
              cases task with
              | node task =>
                  cases run
                  exact setTask_flag k _ t fun _ => rfl
              | _ => cases run
          | _ => cases writes
      | _ => cases writes

theorem exec_waiting (run : exec block k f = some (k', n)) (own : f.shares = false) (t : Ptr32) :
    (k'.task t).sigs_waiting = (k.task t).sigs_waiting :=
  (exec_unshared run own).waiting t

theorem signal_awaits {pc : SignalPc} {u : Ptr32} {sigs : BitVec 32}
    (h : Awaits k (some (.signal pc u sigs)))
    (run : exec block k (.signal pc u sigs) = some (k', n)) :
    Awaits k' (goes n) := by
  have late (quiet : passes pc = false) (other : pc ≠ .test) (calm : Awaits k' none) :
      Awaits k' (goes n) := by
    refine calm.enter fun pc' t' sigs' same => ?_
    obtain rfl := goes_signal same
    cases pc <;> first | (cases quiet; done) | (exact absurd rfl other) | grind [execSignal, passes]
  cases pc with
  | test =>
      have calm := h.calm (by simp [awake])
      simp only [exec, execSignal] at run
      split at run <;> cases run
      · rename_i test
        refine ⟨calm.bit, fun t ready _ => calm.asleep ready, fun pc t sigs same _ => ?_⟩
        cases same
        exact test.2
      · exact calm
  | forbid =>
      cases run
      have calm := h.calm (by simp [awake])
      refine ⟨calm.bit, fun t ready _ => calm.asleep ready, fun pc t sigs same _ => ?_⟩
      cases same
      exact h.passed _ _ _ rfl rfl
  | setReady =>
      cases run
      have calm := h.calm (by simp [awake])
      have waiting (t : Ptr32) :
          ((k.setTask u fun t => { t with flags := t.flags ||| TS_READY }).task t).sigs_waiting =
          (k.task t).sigs_waiting := by
        by_cases here : t = u
        · rw [here, Kernel.setTask_self]
        · rw [Kernel.setTask_other k _ here]
      refine ⟨fun t => ?_, fun t ready other => ?_, fun pc t sigs same _ => ?_⟩
      · rw [waiting]
        exact h.bit t
      · have away : t ≠ u := by
          rintro rfl
          exact other _ rfl rfl
        rw [waiting]
        rw [Kernel.setTask_other k _ away] at ready
        exact calm.asleep ready
      · cases same
        rw [waiting]
        exact h.passed _ _ _ rfl rfl
  | clearWaiting =>
      cases run
      have gone := cleared_all (h.bit u) (h.passed _ _ _ rfl rfl)
      refine .enter (o := some _) ⟨fun t => ?_, fun t ready _ => ?_,
          fun _ _ _ same => by cases same⟩ (by simp [passes])
      · by_cases here : t = u
        · rw [here, Kernel.setTask_self]
          exact .inl gone
        · rw [Kernel.setTask_other k _ here]
          exact h.bit t
      · by_cases here : t = u
        · rw [here, Kernel.setTask_self]
          exact gone
        · rw [Kernel.setTask_other k _ here] at ready ⊢
          exact h.ready t ready fun g mem => by cases mem; simpa [awake] using Ne.symm here
  | setRecvd | remove | enqueue | permit | lower | priTest | ret =>
      exact late rfl (by simp) (h.same rfl (exec_waiting run rfl) (exec_flags run rfl))

theorem wait_awaits {pc : WaitPc} {sigs : BitVec 32} {list : TaskList}
    (h : Awaits k (some (.wait pc sigs list)))
    (asks : Asks (.wait pc sigs list)) (runs : pc = .setWaiting → (k.task k.running_task).ready)
    (run : exec block k (.wait pc sigs list) = some (k', n)) :
    Awaits k' (goes n) := by
  have mine (calm : Awaits k' none) : Awaits k' (goes n) := by
    refine calm.enter fun pc' t' sigs' same => ?_
    obtain rfl := goes_signal same
    cases (exec_effect run).next.1
  cases pc with
  | setWaiting =>
      cases run
      have calm := h.calm (by simp [awake])
      have nothing := calm.asleep (runs rfl)
      refine ⟨fun t => ?_, fun t ready other => ?_, fun _ _ _ same => by cases same⟩
      · by_cases here : t = k.running_task
        · have all : (0 : BitVec 32) ||| sigs = sigs := by simp
          rw [here, Kernel.setTask_self, nothing, all]
          exact .inr (asks rfl)
        · rw [Kernel.setTask_other k _ here]
          exact h.bit t
      · have away : t ≠ k.running_task := by
          rintro rfl
          exact other _ rfl rfl
        rw [Kernel.setTask_other k _ away] at ready ⊢
        exact calm.asleep ready
  | clearRecvd =>
      have waiting := exec_waiting run rfl
      have ready := exec_flags run rfl
      cases run
      refine ⟨fun t => ?_, fun t awake other => ?_, fun _ _ _ same => by cases same⟩
      · rw [waiting]
        exact h.bit t
      · rw [waiting]
        exact h.ready t (ready t ▸ awake) fun g mem => by cases mem; exact other _ rfl
  | clearReady =>
      have waiting := exec_waiting run rfl
      cases run
      refine mine ⟨fun t => ?_, fun t awake _ => ?_, fun _ _ _ same => by cases same⟩
      · rw [waiting]
        exact h.bit t
      · rw [waiting]
        by_cases here : t = k.running_task
        · rw [here, Kernel.setTask_self, ready_clear] at awake
          cases awake
        · rw [Kernel.setTask_other k _ here] at awake
          refine h.ready t awake fun g mem => ?_
          cases mem
          simpa [Operations.awake] using Ne.symm here
  | test | forbid | lock | enqueue | unlock | permit | lower | yield | ret =>
      exact mine (h.same rfl (exec_waiting run rfl) (exec_flags run rfl))

/-- A statement keeps what the tasks wait for in order. -/
theorem exec_awaits (h : Awaits k (some f)) (asks : Asks f)
    (runs : ∀ sigs list, f = .wait .setWaiting sigs list → (k.task k.running_task).ready)
    (run : exec block k f = some (k', n)) : Awaits k' (goes n) := by
  have mine (other : f.fn ≠ .signal) (calm : Awaits k' none) : Awaits k' (goes n) := by
    refine calm.enter fun pc' t' sigs' same => ?_
    obtain rfl := goes_signal same
    exact absurd (exec_effect run).next.1.symm other
  cases f with
  | signal pc t sigs => exact signal_awaits h run
  | wait pc sigs list =>
      refine wait_awaits h asks ?_ run
      rintro rfl
      exact runs _ _ rfl
  | createTask pc task_pri new_task =>
      cases pc with
      | init =>
          cases run
          have calm := h.calm (by simp [awake])
          refine mine (by simp [Frame.fn]) ⟨fun t => ?_, fun t ready _ => ?_,
              fun _ _ _ same => by cases same⟩
          · by_cases here : t = new_task
            · rw [here, Kernel.setTask_self]
              exact .inl rfl
            · rw [Kernel.setTask_other _ _ here]
              exact h.bit t
          · by_cases here : t = new_task
            · rw [here, Kernel.setTask_self]
              rfl
            · rw [Kernel.setTask_other _ _ here] at ready ⊢
              exact calm.asleep ready
      | _ =>
          exact mine (by simp [Frame.fn]) (h.same rfl (exec_waiting run rfl) (exec_flags run rfl))
  | createQueue pc =>
      refine mine (by simp [Frame.fn]) (h.same rfl (fun t => ?_) (exec_flags run rfl))
      rw [(exec_effect run).task rfl]
  | destroyQueue pc =>
      refine mine (by simp [Frame.fn]) (h.same rfl (fun t => ?_) (exec_flags run rfl))
      rw [(exec_effect run).task rfl]
  | queueSend pc =>
      refine mine (by simp [Frame.fn]) (h.same rfl (fun t => ?_) (exec_flags run rfl))
      rw [(exec_effect run).task rfl]
  | queueRecv pc =>
      refine mine (by simp [Frame.fn]) (h.same rfl (fun t => ?_) (exec_flags run rfl))
      rw [(exec_effect run).task rfl]
  | _ => exact mine (by simp [Frame.fn]) (h.same rfl (exec_waiting run rfl) (exec_flags run rfl))

/-! ## Runs -/

/-- The frames after a statement of a task. -/
theorem task_hands (under : ∀ g ∈ rest, Calm g) (out : m.kstack = [])
    (run : exec block m.k f = some (k, n))
    (after : ({ m with k } : Machine).afterTask rest n = some m') : hands m' = n.window := by
  cases n with
  | goto f' | call f' g =>
      cases after
      simp [hands, top, out, Next.window]
  | int f' c =>
      cases after
      simp [hands, top, Machine.enter, out, Frame.window, Next.window]
  | write f' b => cases after
  | ret v =>
      cases after
      have calm : ∀ g ∈ (rest.modifyHead (.deliver v)).head?, Calm g := by
        intro g mem
        exact modifyHead_frames (P := Calm) (fun f => calm_deliver v) under g
            (List.mem_of_mem_head? mem)
      cases first : (rest.modifyHead (.deliver v)).head? with
      | none => simp [hands, top, out, first, Next.window]
      | some g => simpa [hands, top, out, first, Next.window] using (calm g first).window
  | iret regs => cases after

/-- What only a frame has that has a task in its hands, is found on top when a statement has left it
    there. -/
theorem next_top {β : Type} {φ : Frame → Option β} (only : ∀ g, g.window = .none → φ g = none)
    (run : exec block k f = some (k', n)) (goto : ∀ f', n = .goto f' → top m' = some f')
    (window : hands m' = n.window) :
    (top m').bind φ = (goes n).bind φ := by
  have left (empty : n.window = .none) : (top m').bind φ = none := by
    cases here : top m' with
    | none => rfl
    | some g =>
        refine only g ?_
        simpa [hands, here, empty] using window
  cases n with
  | goto f' =>
      rw [goto f' rfl]
      rfl
  | call f' g => exact left (callee_fresh run).1
  | _ => exact left rfl

theorem awaits_intr {o : Option Frame} {intr : Bool} (h : Awaits k o) :
    Awaits { k with intr := intr } o :=
  ⟨h.bit, h.ready, h.passed⟩

/-- What follows a statement puts no frame on top that has a task in its hands. -/
theorem awaits_next (h : Awaits k (goes n)) (run : exec block m.k f = some (k, n))
    (same : ∃ intr, m'.k = { k with intr })
    (goto : ∀ f', n = .goto f' → top m' = some f') (window : hands m' = n.window) :
    Awaits m'.k (top m') := by
  obtain ⟨intr, same⟩ := same
  rw [same]
  refine awaits_intr ?_
  have left (stays : goes n = none) (none : n.window = .none) : Awaits k (top m') := by
    rw [stays] at h
    refine h.enter fun pc t sigs first => window_passes pc t sigs ?_
    rw [none] at window
    simpa [hands, first] using window
  cases n with
  | goto f' =>
      rw [goto f' rfl]
      exact h
  | call f' g => exact left rfl (callee_fresh run).1
  | _ => exact left rfl rfl

/-- `wait` is called by a task that is ready. -/
theorem Inv.ready (h : Inv m) {sigs : BitVec 32} {list : TaskList}
    (here : top m = some (.wait .setWaiting sigs list)) :
    (m.k.task m.k.running_task).ready := by
  obtain ⟨seqs, s, fits, placed⟩ := h.placed
  have window : hands m = .none := by
    rw [hands, here]
    rfl
  rw [window] at placed
  have inside : m.kstack = [] := by
    cases stack : m.kstack with
    | nil => rfl
    | cons f fs =>
        have same : f = .wait .setWaiting sigs list := by simpa [top, stack] using here
        have kernel := h.still.kernel f (by simp [stack])
        rw [same] at kernel
        cases kernel
  cases fits with
  | task out stays => exact placed.stands.2.2.mpr (by simp)
  | leaves out f head leaves =>
      have same : f = .wait .setWaiting sigs list := by
        rw [top, out, head] at here
        simpa using here
      rw [same] at leaves
      cases leaves
  | yields pc r inside' | switched pc c t e inside' =>
      rw [inside] at inside'
      cases inside'
  | handler inside' => exact absurd inside inside'
  | switching fs pc c t e inside' =>
      rw [inside] at inside'
      simp at inside'

/-- A signal that is passed to a task that waits for one finds it waiting. -/
theorem Awaits.sound (h : Awaits m.k (top m)) (block : Ptr32) : Sound m (.stmt block) := by
  intro f here
  cases f with
  | signal pc t sigs =>
      rintro rfl - meets
      intro _ ready
      have none := h.ready t ready fun g mem => by
        rw [Option.mem_unique mem here]
        simp [awake]
      rw [none] at meets
      simp at meets
  | _ => trivial

theorem awaits_enter {F : Context → Frame} (h : Awaits m.k none) (other : ∀ c, (F c).fn ≠ .signal) :
    Awaits (m.enter F).k (top (m.enter F)) := by
  obtain ⟨c, kstack⟩ := enter_frames m F
  rw [enter_k, top_kernel kstack]
  refine awaits_intr (h.enter fun pc t sigs same => ?_)
  exact absurd (congrArg Frame.fn (Option.some.inj same)) (other c)

theorem top_user (user : m.inTask) : top m = none := by
  have current : m.current = [] := user.2
  simp [top, user.1, current]

theorem awaits_user (user : m.inTask) (h : Awaits m.k none) : Awaits m.k (top m) := by
  rw [top_user user]
  exact h

theorem awaits_step (h : Inv m) (a : Awaits m.k (top m)) (single : Single m e) (ok : Ok m e)
    (step : m.step e = some m') :
    Awaits m'.k (top m') := by
  cases stepped_of_step step with
  | @kernel f rest block k n _ stack run after =>
      have here := top_kernel stack
      rw [here] at a
      have still : ∀ g ∈ rest, Calm g := fun g mem => h.still.below g (by rw [stack]; exact mem)
      have next := exec_awaits a (single f here) (fun sigs list same => h.ready (same ▸ here)) run
      refine awaits_next next run (afterKernel_k after) ?_
          (kernel_hands (m := { m with k }) still (h.still.tasks stack) run after)
      rintro f' rfl
      cases after
      rfl
  | @task f rest block k n _ out stack run after =>
      have here := top_task out stack
      rw [here] at a
      have next := exec_awaits a (single f here) (fun sigs list same => h.ready (same ▸ here)) run
      obtain ⟨-, -, same, -⟩ := afterTask_spec out after
      refine awaits_next next run same ?_ (task_hands (under_calm h out stack) out run after)
      rintro f' rfl
      cases after
      simp [top, out]
  | irq on unmasked =>
      have calm : ∀ g ∈ top m, awake m.k g = none := by
        rcases ok with user | halt
        · simp [top_user user]
        · intro g here
          cases stack : m.kstack with
          | nil => simp [stack] at halt
          | cons f fs =>
              have same : f = g := by simpa [top, stack] using here
              have stop : halted g := by simpa [stack, same] using halt
              cases g <;> first | rfl | cases stop
      exact awaits_enter (a.calm calm) fun c => by simp [Frame.fn]
  | call user c =>
      rw [top_user user] at a
      have push (f : Frame) (window : f.window = .none) :
          Awaits (m.setCurrent [f]).k (top (m.setCurrent [f])) := by
        refine Awaits.enter a fun pc t sigs same => window_passes pc t sigs ?_
        simp only [top, Machine.setCurrent_kstack, user.1, Machine.setCurrent_current,
          List.head?_cons, Option.some.injEq] at same
        exact same ▸ window
      cases c with
      | forbid => exact awaits_user user ⟨a.bit, a.ready, a.passed⟩
      | yield => exact awaits_enter a fun c => by simp [Frame.fn]
      | _ => exact push _ rfl
  | compute user others => exact awaits_user user (top_user user ▸ a)
  | store user dest byte =>
      rw [top_user user] at a
      exact awaits_user user ⟨a.bit, a.ready, a.passed⟩
  | keybd user queue =>
      rw [top_user user] at a
      exact awaits_user user ⟨a.bit, a.ready, a.passed⟩

theorem boot_awaits (kernel_task : Ptr32) :
    Awaits (Machine.boot kernel_task).k (top (.boot kernel_task)) :=
  ⟨fun _ => .inl rfl, fun _ _ _ => rfl, fun _ _ _ same => by cases same⟩

/-! ## What `signal` moves -/

/-- The task that `signal` moves is not in `tasks_ready`. -/
def Asleep (k : Kernel) (w : Window) : Prop :=
  ∀ t xs, w = .due t ∨ w = .waking t → IsList k.links .tasks_ready xs → t ∉ xs

theorem window_signal {t : Ptr32} (moves : f.window = .due t ∨ f.window = .waking t) :
    f.fn = .signal := by
  cases f with
  | signal => rfl
  | wait pc | createTask pc | switchTasks pc => cases pc <;> simp [Frame.window] at moves
  | _ => simp [Frame.window] at moves

theorem exec_asleep {seqs : TaskList → List Ptr32} {s : Status} (placed : Placed k seqs s f.window)
    (a : Awaits k (some f)) (h : Asleep k f.window) (run : exec block k f = some (k', n)) :
    Asleep k' n.window := by
  intro t xs moves list
  cases f with
  | signal pc u sigs =>
      cases pc with
      | test =>
          simp only [exec, execSignal] at run
          split at run <;> cases run
          · rename_i test
            obtain rfl : u = t := by simpa [Next.window, Frame.window] using moves
            intro mem
            cases list.inj (placed.lists.each .tasks_ready trivial)
            have ready := (placed.flags _ u mem (by simp [Frame.window])).mpr rfl
            have none := a.ready u ready fun g mem => by
              cases mem
              simp [awake]
            exact test.2 (by simp [none])
          · simp [Next.window] at moves
      | forbid | setReady | clearWaiting | setRecvd =>
          cases run
          obtain rfl : u = t := by simpa [Next.window, Frame.window] using moves
          exact h u xs (by simp [Frame.window]) list
      | remove | enqueue | permit | lower | priTest | ret =>
          have none : n.window ≠ .due t ∧ n.window ≠ .waking t := by
            grind [execSignal, Next.window, Frame.window]
          exact absurd moves (not_or.mpr none)
  | _ =>
      have still := (exec_effect run).next
      cases n with
      | goto f' => exact absurd ((window_signal moves).symm.trans still.1) (by simp [Frame.fn])
      | call f' g =>
          rw [Next.window, (callee_fresh run).1] at moves
          simp at moves
      | _ => simp [Next.window] at moves

theorem asleep_none : Asleep k .none := fun _ _ moves => by simp at moves

theorem statement_asleep (h : Inv m) (a : Awaits m.k (top m)) (old : Asleep m.k (hands m))
    (here : top m = some f)
    (run : exec block m.k f = some (k, n)) (same : ∃ intr, m'.k = { k with intr })
    (window : hands m' = n.window) :
    Asleep m'.k (hands m') := by
  obtain ⟨seqs, s, -, placed⟩ := h.placed
  have first : hands m = f.window := by rw [hands, here]
  rw [first] at placed old
  rw [here] at a
  obtain ⟨intr, same⟩ := same
  rw [window, same]
  exact (exec_asleep placed a old run : Asleep k n.window)

theorem asleep_step (h : Inv m) (a : Awaits m.k (top m)) (old : Asleep m.k (hands m))
    (step : m.step e = some m') :
    Asleep m'.k (hands m') := by
  have quiet (user : m'.inTask) : Asleep m'.k (hands m') := by
    rw [hands, top_user user]
    exact asleep_none
  have push (f : Frame) (user : m.inTask) (window : f.window = .none) :
      Asleep (m.setCurrent [f]).k (hands (m.setCurrent [f])) := by
    have calm : hands (m.setCurrent [f]) = .none := by
      simpa [hands, top, Machine.setCurrent_kstack, user.1] using window
    rw [calm]
    exact asleep_none
  cases stepped_of_step step with
  | @kernel f rest block k n _ stack run after =>
      have still : ∀ g ∈ rest, Calm g := fun g mem => h.still.below g (by rw [stack]; exact mem)
      exact statement_asleep h a old (top_kernel stack) run (afterKernel_k after)
        (kernel_hands (m := { m with k }) still (h.still.tasks stack) run after)
  | task out stack run after =>
      obtain ⟨-, -, same, -⟩ := afterTask_spec out after
      exact statement_asleep h a old (top_task out stack) run same
          (task_hands (under_calm h out stack) out run after)
  | @irq i on unmasked =>
      obtain ⟨c, kstack⟩ :=
        enter_frames { m with kstack := m.kstack.modifyHead .wake } (.irq .enter i)
      rw [hands, top_kernel kstack]
      exact asleep_none
  | call user c =>
      cases c with
      | forbid => exact quiet user
      | yield =>
          obtain ⟨c, kstack⟩ := enter_frames m (.trap .enter .yield)
          rw [Machine.call, hands, top_kernel kstack]
          exact asleep_none
      | _ => exact push _ user rfl
  | compute user | store user | keybd user => exact quiet user

/-- What holds in runs whose operations keep to themselves, with waits for one signal. -/
structure Single.Inv (m : Machine) : Prop where
  inv : Operations.Inv m
  idle : Idle m
  awaits : Awaits m.k (top m)
  asleep : Asleep m.k (hands m)

theorem Single.Inv.ok (h : Single.Inv m) (lawful : Lawful m e) : Ok m e := by
  refine ok_of lawful ?_
  cases e with
  | stmt block => exact h.awaits.sound block
  | _ => trivial

theorem Single.Inv.step (h : Single.Inv m) (lawful : Lawful m e) (single : Single m e)
    (step : m.step e = some m') :
    Single.Inv m' := by
  have ok := h.ok lawful
  exact ⟨inv_step h.inv ok step, idle_step h.inv h.idle ok step,
    awaits_step h.inv h.awaits single ok step, asleep_step h.inv h.awaits h.asleep step⟩

theorem Single.boot (kernel_task : Ptr32) : Single.Inv (.boot kernel_task) :=
  ⟨boot_inv kernel_task, by simp [Idle, Machine.boot], boot_awaits kernel_task, asleep_none⟩

end Operations

end Krypton
