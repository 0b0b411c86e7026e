import Krypton.Kernel.Contexts
import Krypton.Kernel.Signals

/-! # What `wait` returns

The masks that `signal` delivers to a task are recorded beside the machine, from
the task's last call of `wait` on. In runs whose operations keep to themselves,
with waits for one signal, `wait` returns the mask of the only one there is, and
it has the bit that was waited for: no task is woken twice, or for nothing.
-/

namespace Krypton

open Operations (top top_kernel top_task enter_frames enter_k hands OneBit)

/-- The machine with the masks that each task has got since it last called `wait`, the last one
    first. -/
structure Waits where
  m : Machine
  sent : Ptr32 → List (BitVec 32)

namespace Waits

def deliver (k : Kernel) (sent : Ptr32 → List (BitVec 32)) : Frame → Ptr32 → List (BitVec 32)
  | .wait .setWaiting .. => Function.update sent k.running_task []
  | .signal .setRecvd t sigs => Function.update sent t (sigs :: sent t)
  | _ => sent

def record (m : Machine) (sent : Ptr32 → List (BitVec 32)) : Event → Ptr32 → List (BitVec 32)
  | .stmt _ => (top m).elim sent (deliver m.k sent)
  | _ => sent

def step (s : Waits) (e : Event) : Option Waits := do
  return { m := ← s.m.step e, sent := record s.m s.sent e }

/-- Every operation runs to its next yield, and every wait is for one signal. -/
def Ok (s : Waits) (e : Event) : Prop := Operations.Lawful s.m e ∧ Operations.Single s.m e

def Init (kernel_task : Ptr32) (s : Waits) : Prop := s = ⟨.boot kernel_task, fun _ => []⟩

variable {m m' : Machine} {e : Event} {f g : Frame} {rest : List Frame} {k k' : Kernel} {n : Next}
variable {b t u : Ptr32} {sigs w : BitVec 32} {list : TaskList} {o : Option Frame}
    {sent : Ptr32 → List (BitVec 32)}

/-! ## One statement -/

/-- The task whose signals the next statement writes. -/
def touches (k : Kernel) : Frame → Option Ptr32
  | .wait .setWaiting .. | .wait .clearRecvd .. => some k.running_task
  | .signal .clearWaiting t _ | .signal .setRecvd t _ | .createTask .init _ t => some t
  | _ => none

theorem exec_masks (run : exec b k f = some (k', n)) (other : touches k f ≠ some t) :
    (k'.task t).sigs_waiting = (k.task t).sigs_waiting ∧
        (k'.task t).sigs_recvd = (k.task t).sigs_recvd := by
  have kept (u : Ptr32) {g : Task → Task} (same : u ≠ t ∨ ∀ x, (g x).sigs_waiting = x.sigs_waiting ∧
      (g x).sigs_recvd = x.sigs_recvd) :
          ((k.setTask u g).task t).sigs_waiting = (k.task t).sigs_waiting ∧
      ((k.setTask u g).task t).sigs_recvd = (k.task t).sigs_recvd := by
    by_cases here : t = u
    · subst here
      rw [Kernel.setTask_self]
      exact same.resolve_left (not_not.mpr rfl) _
    · rw [Kernel.setTask_other k g here]
      exact ⟨rfl, rfl⟩
  have away {u : Ptr32} (touched : touches k f = some u) : u ≠ t :=
      fun same => other (touched.trans (congrArg some same))
  cases writes : f.retasks with
  | false => rw [(exec_effect run).task writes]; exact ⟨rfl, rfl⟩
  | true =>
      cases f with
      | wait pc | signal pc | delay pc | switchTasks pc =>
          cases pc <;> first
            | (cases writes; done)
            | (cases run; exact kept _ (.inl (away rfl)))
            | (cases run; exact kept _ (.inr fun _ => ⟨rfl, rfl⟩))
      | createTask pc task_pri new_task =>
          cases pc with
          | init =>
              cases run
              rw [Kernel.setTask_other _ _ (away rfl).symm]
              exact ⟨rfl, rfl⟩
          | _ => cases writes
      | timerCallback pc task =>
          cases pc with
          | count =>
              cases task with
              | node task =>
                  cases run
                  exact kept _ (.inr fun _ => ⟨rfl, rfl⟩)
              | _ => cases run
          | _ => cases writes
      | _ => cases writes

theorem deliver_other (other : touches k f ≠ some t) : deliver k sent f t = sent t := by
  cases f with
  | wait pc | signal pc =>
      cases pc <;> first
        | rfl
        | exact Function.update_of_ne (fun same => other (congrArg some same.symm)) ..
  | _ => rfl

/-- The signal that is about to be delivered. -/
def sending : Frame → Option (Ptr32 × BitVec 32)
  | .signal .setRecvd t sigs => some (t, sigs)
  | _ => none

theorem sending_window (empty : f.window = .none) : sending f = none := by
  cases f with
  | signal pc => cases pc <;> first | rfl | cases empty
  | _ => rfl

/-- How far the signal has come that a task waits for, while another one may be about to be
    delivered. -/
inductive Stage (k : Kernel) (o : Option (Ptr32 × BitVec 32)) (got : List (BitVec 32)) (t : Ptr32)
    (sigs : BitVec 32) : Prop where
  | asleep (waiting : (k.task t).sigs_waiting = sigs) (recvd : (k.task t).sigs_recvd = 0)
      (empty : got = [])
      (apart : ∀ w, o ≠ some (t, w))
  | arriving (w : BitVec 32) (here : o = some (t, w)) (meets : sigs &&& w = sigs)
      (waiting : (k.task t).sigs_waiting = 0)
      (recvd : (k.task t).sigs_recvd = 0) (empty : got = [])
  | woken (w : BitVec 32) (meets : sigs &&& w = sigs) (waiting : (k.task t).sigs_waiting = 0)
      (recvd : (k.task t).sigs_recvd = w)
      (one : got = [w]) (apart : ∀ w, o ≠ some (t, w))

theorem Stage.same {x y : Option (Ptr32 × BitVec 32)} {got : List (BitVec 32)}
    (h : Stage k x got t sigs)
    (waiting : (k'.task t).sigs_waiting = (k.task t).sigs_waiting)
    (recvd : (k'.task t).sigs_recvd = (k.task t).sigs_recvd)
    (kept : ∀ w, y = some (t, w) ↔ x = some (t, w)) :
    Stage k' y got t sigs := by
  cases h with
  | asleep waits none empty apart =>
      exact .asleep (waiting.trans waits) (recvd.trans none) empty fun w here =>
          apart w ((kept w).mp here)
  | arriving w here meets waits none empty =>
      exact .arriving w ((kept w).mpr here) meets (waiting.trans waits) (recvd.trans none) empty
  | woken w meets waits same one apart =>
      exact .woken w meets (waiting.trans waits) (recvd.trans same) one fun w here =>
          apart w ((kept w).mp here)

/-- Only `signal` is about to deliver one, when it has cleared what is waited for. -/
theorem goes_sending (run : exec b k f = some (k', n))
    (next : ((Operations.goes n).bind sending) = some (t, w)) :
    f = .signal .clearWaiting t w := by
  obtain ⟨g, goto, sends⟩ := Option.bind_eq_some_iff.mp next
  cases n with
  | goto f' =>
      cases goto
      cases g with
      | signal pc u v =>
          cases pc <;> cases sends
          have same := (exec_effect run).next.1
          cases f with
          | signal pc u v => cases pc <;> grind [execSignal]
          | _ => cases same
      | _ => cases sends
  | _ => cases goto

theorem stage_step (bit : OneBit sigs) (h : Stage k (sending f) (sent t) t sigs)
    (passed : ∀ pc u w, f = .signal pc u w → Operations.passes pc →
        (k.task u).sigs_waiting &&& w ≠ 0)
    (other : f.fn = .wait → t ≠ k.running_task) (old : ∀ task_pri, f ≠ .createTask .init task_pri t)
    (run : exec b k f = some (k', n)) :
    Stage k' ((Operations.goes n).bind sending) (deliver k sent f t) t sigs := by
  by_cases touched : touches k f = some t
  · cases f with
    | wait pc => cases pc <;> cases touched <;> exact absurd rfl (other rfl)
    | createTask pc task_pri u =>
        cases pc <;> cases touched
        exact absurd rfl (old task_pri)
    | signal pc u w =>
        cases pc <;> cases touched
        · have meets := passed _ _ _ rfl rfl
          cases run
          cases h with
          | asleep waits none empty apart =>
              rw [waits] at meets
              have all := (Operations.oneBit_and bit w).resolve_left meets
              refine .arriving w rfl all ?_ ?_ empty
              · rw [Kernel.setTask_self, waits]
                exact Operations.cleared_all (.inr bit) meets
              · rw [Kernel.setTask_self]
                exact none
          | arriving v here => cases here
          | woken v _ waits => simp [waits] at meets
        · cases run
          cases h with
          | asleep _ _ _ apart => exact absurd rfl (apart w)
          | arriving v here meets waits none empty =>
              cases here
              refine .woken w meets ?_ ?_ ?_ (by simp [Operations.goes, sending])
              · rw [Kernel.setTask_self]
                exact waits
              · rw [Kernel.setTask_self, none]
                exact BitVec.zero_or
              · rw [deliver, Function.update_self, empty]
          | woken _ _ _ _ _ apart => exact absurd rfl (apart w)
    | _ => cases touched
  · rw [deliver_other touched]
    obtain ⟨waiting, recvd⟩ := exec_masks run touched
    refine h.same waiting recvd fun v => ⟨fun next => ?_, fun here => ?_⟩
    · rw [goes_sending run next] at touched
      exact absurd rfl touched
    · cases f with
      | signal pc => cases pc <;> cases here; exact absurd rfl touched
      | _ => cases here

/-- `wait` has set what the task waits for. -/
def prepared : WaitPc → Bool
  | .clearRecvd | .clearReady | .lock | .enqueue | .unlock | .permit | .lower | .yield => true
  | _ => false

/-- What `wait` has done so far. -/
structure Calling (k : Kernel) (got : List (BitVec 32)) (pc : WaitPc) (sigs : BitVec 32) :
    Prop where
  bit : OneBit sigs
  waiting : (k.task k.running_task).sigs_waiting = sigs
  empty : got = []
  recvd : pc ≠ .clearRecvd → (k.task k.running_task).sigs_recvd = 0

theorem calling_step {pc pc' : WaitPc} {sigs' : BitVec 32} {list' : TaskList}
    (h : prepared pc → Calling k (sent k.running_task) pc sigs)
    (starts : pc = .setWaiting → OneBit sigs ∧ (k.task k.running_task).sigs_waiting = 0)
    (run : exec b k (.wait pc sigs list) = some (k', .goto (.wait pc' sigs' list')))
    (ahead : prepared pc') :
    Calling k' (deliver k sent (.wait pc sigs list) k'.running_task) pc' sigs' := by
  have next (h : Calling k (sent k.running_task) pc sigs) (here : pc ≠ .clearRecvd)
      (same : sigs' = sigs)
      (running : k'.running_task = k.running_task)
      (kept : touches k (.wait pc sigs list) ≠ some k.running_task) :
      Calling k' (deliver k sent (.wait pc sigs list) k'.running_task) pc' sigs' := by
    obtain ⟨waiting, recvd⟩ := exec_masks run kept
    rw [running, deliver_other kept, same]
    exact ⟨h.bit, by rw [running, waiting, h.waiting], h.empty,
        fun _ => by rw [running, recvd, h.recvd here]⟩
  cases pc with
  | test =>
      simp only [exec, execWait] at run
      split at run <;> cases run
      cases ahead
  | setWaiting =>
      obtain ⟨bit, none⟩ := starts rfl
      cases run
      refine ⟨bit, ?_, Function.update_self .., fun other => absurd rfl other⟩
      have runs : (k.setTask k.running_task
          fun t => { t with sigs_waiting := t.sigs_waiting ||| sigs }).running_task =
        k.running_task := rfl
      rw [runs, Kernel.setTask_self, none]
      exact BitVec.zero_or
  | clearRecvd =>
      have h := h rfl
      cases run
      have runs : (k.setTask k.running_task fun t => { t with sigs_recvd := 0 }).running_task =
          k.running_task := rfl
      refine ⟨h.bit, ?_, h.empty, fun _ => ?_⟩
      · rw [runs, Kernel.setTask_self]
        exact h.waiting
      · rw [runs, Kernel.setTask_self]
  | forbid =>
      cases run
      cases ahead
  | enqueue =>
      obtain ⟨k₁, entered, both⟩ := Option.bind_eq_some_iff.mp run
      cases both
      obtain ⟨links, -, rest⟩ := Option.bind_eq_some_iff.mp entered
      cases rest
      exact next (h rfl) (by simp) rfl rfl (by simp [touches])
  | clearReady | lock | unlock | permit | lower =>
      have h := h rfl
      cases run
      exact next h (by simp) rfl rfl (by simp [touches])
  | yield | ret => cases run

/-! ## Runs -/

/-- A task is stopped in `wait` when it has yielded. -/
def paused : Frame → Bool
  | .wait pc .. => pc = .ret
  | _ => true

structure Inv (kernel_task : Ptr32) (s : Waits) : Prop where
  single : Operations.Single.Inv s.m
  home : ∃ saved, Contexts.Inv kernel_task ⟨s.m, saved⟩
  known : ∀ t, s.m.ustack t ≠ [] → s.m.k.tasks t
  /-- `wait` calls no function -/
  callers : ∀ t, ∀ f ∈ (s.m.ustack t).tail, f.fn ≠ .wait
  heads : ∀ t, (s.m.kstack = [] → t ≠ s.m.regs.stack) → ∀ f ∈ (s.m.ustack t).head?, paused f
  calling : ∀ pc sigs list, top s.m = some (.wait pc sigs list) → prepared pc →
    Calling s.m.k (s.sent s.m.k.running_task) pc sigs
  stages : ∀ t sigs list, (s.m.ustack t).head? = some (.wait .ret sigs list) →
    OneBit sigs ∧ Stage s.m.k ((top s.m).bind sending) (s.sent t) t sigs

variable {s : Waits} {kernel_task : Ptr32}

/-- The task whose stack the CPU uses is the running one. -/
theorem Inv.here (h : Inv kernel_task s) (out : s.m.kstack = []) :
    s.m.regs.stack = s.m.k.running_task := by
  obtain ⟨saved, home⟩ := h.home
  have stays := home.stays (by simp [out])
  simpa [out, Contexts.home] using stays

theorem Inv.runs (h : Inv kernel_task s) : s.m.k.tasks s.m.k.running_task := by
  obtain ⟨saved, home⟩ := h.home
  exact home.runs

theorem oneBit_ne (bit : OneBit sigs) : sigs ≠ 0 := by
  obtain ⟨i, rfl⟩ := bit
  intro zero
  have unset := congrArg (BitVec.getLsbD · i) zero
  simp at unset

/-- A task that has nothing in its hands is ready. -/
theorem running_ready (h : Operations.Inv m) (out : m.kstack = []) (here : m.current.head? = some f)
    (stays : f.leaves = false) (window : f.window = .none) : (m.k.task m.k.running_task).ready := by
  obtain ⟨seqs, s, fits, placed⟩ := h.placed
  have empty : hands m = .none := by
    rw [Operations.hands, top, out, here]
    exact window
  rw [empty] at placed
  cases fits with
  | task => exact placed.stands.2.2.mpr (by simp)
  | leaves _ g first leaves =>
      cases first.symm.trans here
      rw [stays] at leaves
      cases leaves
  | yields pc r inside | switched pc c t e inside =>
      rw [out] at inside
      cases inside
  | handler inside => exact absurd out inside
  | switching fs pc c t e inside =>
      rw [out] at inside
      simp at inside

/-- `wait` returns the mask of the one signal that its task has got, with the bit that was waited
    for. -/
theorem Inv.returned (h : Inv kernel_task s) (out : s.m.kstack = [])
    (here : s.m.current.head? = some (.wait .ret sigs list)) :
    ∃ w, s.sent s.m.regs.stack = [w] ∧ sigs &&& w = sigs ∧ sigs ≠ 0 ∧
      exec b s.m.k (.wait .ret sigs list) = some (s.m.k, .ret (.word w)) := by
  have first : top s.m = some (.wait .ret sigs list) := by
    rw [top, out]
    exact here
  obtain ⟨bit, stage⟩ := h.stages s.m.regs.stack sigs list here
  have ready := running_ready h.single.inv out here rfl rfl
  have none : (s.m.k.task s.m.k.running_task).sigs_waiting = 0 := by
    refine h.single.awaits.ready _ ready fun g mem => ?_
    cases first.symm.trans mem
    simp [Operations.awake]
  rw [first] at stage
  cases stage with
  | asleep waiting =>
      rw [h.here out, none] at waiting
      exact absurd waiting.symm (oneBit_ne bit)
  | arriving w sends => cases sends
  | woken w meets _ recvd one =>
      rw [h.here out] at recvd
      exact ⟨w, one, meets, oneBit_ne bit, by rw [← recvd]; rfl⟩

/-! ## The steps -/

theorem exec_known (run : exec b k f = some (k', n)) (known : k.tasks t) : k'.tasks t := by
  rcases Contexts.exec_tasks run with same | ⟨u, c, -, tasks⟩
  · rw [same]
    exact known
  · rw [tasks]
    by_cases here : t = u
    · rw [here, Function.update_self]
    · rw [Function.update_of_ne here]
      exact known

/-- Frames of handlers do not wait. -/
theorem top_inside (still : Operations.Still m) (inside : m.kstack ≠ []) {pc : WaitPc} :
    top m ≠ some (.wait pc sigs list) := by
  intro here
  cases stack : m.kstack with
  | nil => exact inside stack
  | cons f rest =>
      rw [top_kernel stack] at here
      cases here
      have kernel := still.kernel _ (stack ▸ List.mem_cons_self)
      cases kernel

theorem deliver_wait (v : Value) (other : f.fn = .wait) : f.deliver v = f := by
  unfold Frame.deliver
  split <;> first | rfl | cases other

theorem paused_deliver (v : Value) (f : Frame) : paused (f.deliver v) = paused f := by
  unfold Frame.deliver
  split <;> rfl

/-- The stacks of the tasks after a statement on the kernel stack. -/
theorem kernel_stacks (after : m.afterKernel rest n = some m') (t : Ptr32) :
    m'.ustack t = m.ustack t ∨ ∃ v, m'.ustack t = (m.ustack t).modifyHead (.deliver v) := by
  cases n with
  | write f' b =>
      cases rest with
      | nil =>
          cases after
          by_cases here : t = m.regs.stack
          · subst here
            exact .inr ⟨.ptr (some b), by simp [Machine.setCurrent, Machine.current]⟩
          · exact .inl (by simp [Machine.setCurrent, here])
      | cons g gs =>
          cases after
          exact .inl rfl
  | iret regs =>
      cases regs with
      | user regs =>
          cases after
          exact .inl rfl
      | kernel intr =>
          simp only [Machine.afterKernel, Machine.iret] at after
          split at after <;> cases after
          exact .inl rfl
  | _ =>
      cases after
      exact .inl rfl

/-- A stack keeps what is asked of it, when its first frame gets a value. -/
structure Kept (fs gs : List Frame) : Prop where
  empty : gs ≠ [] → fs ≠ []
  tail : gs.tail = fs.tail
  paused : (∀ f ∈ fs.head?, paused f) → ∀ f ∈ gs.head?, paused f
  waits : ∀ sigs list, gs.head? = some (.wait .ret sigs list) →
      fs.head? = some (.wait .ret sigs list)

theorem kept_deliver (v : Value) (fs : List Frame) : Kept fs (fs.modifyHead (.deliver v)) := by
  cases fs with
  | nil => exact ⟨id, rfl, id, fun _ _ => id⟩
  | cons f fs =>
      refine ⟨nofun, rfl, fun old g mem => ?_, fun sigs list here => ?_⟩
      · cases mem
        rw [paused_deliver]
        exact old f rfl
      · have first : f.deliver v = .wait .ret sigs list := by simpa using here
        have fn : f.fn = .wait := by rw [← deliver_fn v, first]; rfl
        rw [deliver_wait v fn] at first
        exact congrArg some first

theorem kernel_kept (after : m.afterKernel rest n = some m') (t : Ptr32) :
    Kept (m.ustack t) (m'.ustack t) := by
  rcases kernel_stacks after t with same | ⟨v, same⟩
  · rw [same]
    exact ⟨id, rfl, id, fun _ _ => id⟩
  · rw [same]
    exact kept_deliver v _

theorem stage_intr {x : Option (Ptr32 × BitVec 32)} {got : List (BitVec 32)} (intr : Bool)
    (h : Stage k x got t sigs) :
    Stage { k with intr } x got t sigs :=
  h.same rfl rfl fun _ => Iff.rfl

section Statement

variable (h : Inv kernel_task s) (here : top s.m = some f) (run : exec b s.m.k f = some (k, n))

include h here run

/-- The signals of a task that has called `wait` and does not execute, after a statement. -/
theorem Inv.stage_next (ok : Ok s (.stmt b))
    (waits : (s.m.ustack t).head? = some (.wait .ret sigs list))
    (other : f.fn = .wait → t ≠ s.m.k.running_task) :
    OneBit sigs ∧
        Stage k ((Operations.goes n).bind sending) (record s.m s.sent (.stmt b) t) t sigs := by
  obtain ⟨bit, stage⟩ := h.stages t sigs list waits
  have awaits := h.single.awaits
  rw [here] at stage awaits
  refine ⟨bit, ?_⟩
  rw [record, here]
  refine stage_step bit stage
      (fun pc u w same => awaits.passed pc u w (congrArg some same)) other ?_ run
  rintro task_pri rfl
  have fresh := ok.1 _ here rfl
  have some : s.m.ustack t ≠ [] := by
    intro empty
    rw [empty] at waits
    cases waits
  rw [h.known t some] at fresh
  cases fresh

theorem Inv.kernel {m' : Machine} (ok : Ok s (.stmt b)) (single : Operations.Single.Inv m')
    (home : ∃ saved, Contexts.Inv kernel_task ⟨m', saved⟩) (stack : s.m.kstack = f :: rest)
    (after : ({ s.m with k } : Machine).afterKernel rest n = some m') :
    Inv kernel_task ⟨m', record s.m s.sent (.stmt b)⟩ := by
  have still := h.single.inv.still
  have kept := kernel_kept after
  have inside : Operations.inKernel f := still.kernel f (by simp [stack])
  have away : s.m.kstack ≠ [] := by simp [stack]
  obtain ⟨intr, same⟩ := afterKernel_k after
  have paused (t : Ptr32) : ∀ f ∈ (m'.ustack t).head?, paused f :=
    (kept t).paused (h.heads t fun out => absurd out away)
  have sends : (top m').bind sending = (Operations.goes n).bind sending := by
    refine Operations.next_top (fun _ => sending_window) run ?_
        (Operations.kernel_hands (m := { s.m with k })
      (fun g mem => still.below g (by rw [stack]; exact mem)) (still.tasks stack) run after)
    rintro f' rfl
    cases after
    rfl
  refine ⟨single, home, fun t some => ?_, fun t => ?_, fun t _ => paused t,
    fun pc sigs list top ahead => ?_, fun t sigs list waits => ?_⟩
  · have known := exec_known run (h.known t ((kept t).empty some))
    rw [same]
    exact known
  · rw [(kept t).tail]
    exact h.callers t
  · by_cases out : m'.kstack = []
    · have mem : m'.current.head? = some (.wait pc sigs list) := by
        rwa [Operations.top, out] at top
      have stop := paused m'.regs.stack _ mem
      rw [of_decide_eq_true stop] at ahead
      cases ahead
    · exact absurd top (top_inside single.inv.still out)
  · obtain ⟨bit, stage⟩ := h.stage_next here run ok ((kept t).waits sigs list waits)
      fun wait => absurd wait (Operations.inKernel_wait inside)
    refine ⟨bit, ?_⟩
    rw [same, sends]
    exact stage_intr intr stage

omit h here in
/-- What calls a function is not `wait`. -/
theorem calls_plain {f' : Frame} (called : n = .call f' g) : f'.fn ≠ .wait := by
  subst called
  have belongs := (exec_effect run).next
  intro wait
  have calls := belongs.2.2.1
  rw [belongs.1] at wait
  cases f with
  | wait => simp [Frame.calls] at calls
  | _ => cases wait

omit h here in
/-- A call of `wait` starts at its beginning. -/
theorem called_start {f' : Frame} {pc : WaitPc} (called : n = .call f' (.wait pc sigs list)) :
    pc = .test := by
  subst called
  cases f with
  | delay pc => cases pc <;> grind [execDelay]
  | queueSend pc => cases pc <;> grind [execSend]
  | queueRecv pc => cases pc <;> grind [execRecv]
  | _ =>
      have calls := (exec_effect run).next.2.2.1
      simp [Frame.calls] at calls

omit h here in
/-- `wait` has yielded when it returns. -/
theorem returns_yielded (left : ∃ c, n = .int (.wait .ret sigs list) c) :
    f = .wait .yield sigs list ∧ k = s.m.k := by
  obtain ⟨c, rfl⟩ := left
  have fn := (exec_effect run).next.1
  cases f with
  | wait pc sigs' list' => cases pc <;> grind [execWait]
  | _ => cases fn

omit h here in
theorem goes_waiting {pc : WaitPc} (goto : n = .goto (.wait pc sigs list)) :
    ∃ pc', f = .wait pc' sigs list ∧ pc ≠ .ret := by
  subst goto
  have fn := (exec_effect run).next.1
  cases f with
  | wait pc' sigs' list' => cases pc' <;> grind [execWait]
  | _ => cases fn

omit here in
/-- The first frame of a task after its statement. -/
theorem Inv.leaves (stack : s.m.current = f :: rest)
    (after : ({ s.m with k } : Machine).afterTask rest n = some m')
    (first : (n.leave rest).head? = some g)
    (wait : g.fn = .wait) : n = .goto g ∨ (∃ c, n = .int g c) ∨ ∃ f', n = .call f' g := by
  have callers := h.callers s.m.regs.stack
  have mine : s.m.ustack s.m.regs.stack = f :: rest := stack
  rw [mine] at callers
  cases n with
  | goto f' =>
      cases first
      exact .inl rfl
  | int f' c =>
      cases first
      exact .inr (.inl ⟨c, rfl⟩)
  | call f' callee =>
      cases first
      exact .inr (.inr ⟨f', rfl⟩)
  | ret v =>
      cases rest with
      | nil => cases first
      | cons g' gs =>
          cases first
          rw [deliver_fn] at wait
          exact absurd wait (callers g' List.mem_cons_self)
  | write f' b => cases after
  | iret c => cases after

omit h here run in
/-- The other tasks' frames stay as they are. -/
theorem task_elsewhere (out : s.m.kstack = [])
    (after : ({ s.m with k } : Machine).afterTask rest n = some m')
    (other : t ≠ s.m.regs.stack) : m'.ustack t = s.m.ustack t := by
  obtain ⟨ustack, -⟩ := afterTask_spec out after
  rw [ustack, Function.update_of_ne other]

section Task

variable (out : s.m.kstack = []) (stack : s.m.current = f :: rest)
variable (after : ({ s.m with k } : Machine).afterTask rest n = some m')

include out stack after

omit here stack in
theorem Inv.task_known (t : Ptr32) (some : m'.ustack t ≠ []) : m'.k.tasks t := by
  obtain ⟨-, -, ⟨intr, same⟩, -⟩ := afterTask_spec out after
  rw [same]
  by_cases own : t = s.m.regs.stack
  · have known := exec_known run h.runs
    rw [own, h.here out]
    exact known
  · rw [task_elsewhere out after own] at some
    have known := exec_known run (h.known t some)
    exact known

omit here in
theorem Inv.task_callers (t : Ptr32) : ∀ g ∈ (m'.ustack t).tail, g.fn ≠ .wait := by
  by_cases own : t = s.m.regs.stack
  · have mine : s.m.ustack s.m.regs.stack = f :: rest := stack
    have callers := h.callers s.m.regs.stack
    rw [mine] at callers
    obtain ⟨ustack, -⟩ := afterTask_spec out after
    rw [own, ustack, Function.update_self]
    cases n with
    | goto f' | int f' c => exact callers
    | write f' b => cases after
    | iret c => cases after
    | call f' g => exact List.forall_mem_cons.mpr ⟨calls_plain run rfl, callers⟩
    | ret v =>
        rw [Next.leave, (kept_deliver v rest).tail]
        exact fun g mem => callers g (List.mem_of_mem_tail mem)
  · rw [task_elsewhere out after own]
    exact h.callers t

omit here stack in
/-- A task that has made a system call in `wait` has yielded. -/
theorem Inv.task_heads (t : Ptr32) (away : m'.kstack = [] → t ≠ m'.regs.stack) :
    ∀ g ∈ (m'.ustack t).head?, paused g := by
  by_cases own : t = s.m.regs.stack
  · obtain ⟨ustack, regs, -, kstack⟩ := afterTask_spec out after
    have trapped : ∃ f' c, n = .int f' c := by
      rcases kstack with empty | ⟨call, c, trap⟩
      · exact absurd (own.trans (congrArg Regs.stack regs).symm) (away empty)
      · cases n with
        | int f' c => exact ⟨f', c, rfl⟩
        | write f' b => cases after
        | iret c => cases after
        | _ =>
            cases after
            simp [out] at trap
    obtain ⟨f', c, rfl⟩ := trapped
    rw [own, ustack, Function.update_self]
    intro g mem
    cases mem
    cases f' with
    | wait pc sigs list =>
        have fn := (exec_effect run).next.1
        cases f with
        | wait pc' sigs' list' => cases pc' <;> grind [execWait, paused]
        | _ => cases fn
    | _ => rfl
  · rw [task_elsewhere out after own]
    exact h.heads t fun _ => own

theorem Inv.task_calling (ok : Ok s (.stmt b)) (still : Operations.Still m') (pc : WaitPc)
    (sigs : BitVec 32)
    (list : TaskList) (first : top m' = some (.wait pc sigs list)) (ahead : prepared pc) :
    Calling m'.k (record s.m s.sent (.stmt b) m'.k.running_task) pc sigs := by
  obtain ⟨ustack, regs, ⟨intr, same⟩, kstack⟩ := afterTask_spec out after
  have empty : m'.kstack = [] := by
    rcases kstack with empty | ⟨call, c, trap⟩
    · exact empty
    · exact absurd first (top_inside still (by simp [trap]))
  have head : (n.leave rest).head? = some (.wait pc sigs list) := by
    rw [Operations.top, empty] at first
    rwa [Machine.current, ustack, regs, Function.update_self] at first
  rcases h.leaves run stack after head rfl with goto | ⟨c, rfl⟩ | ⟨f', called⟩
  · obtain ⟨pc', rfl, -⟩ := goes_waiting run goto
    subst goto
    have starts (start : pc' = .setWaiting) :
        OneBit sigs ∧ (s.m.k.task s.m.k.running_task).sigs_waiting = 0 := by
      subst start
      refine ⟨ok.2 _ here rfl, h.single.awaits.ready _ (h.single.inv.ready here) fun g mem => ?_⟩
      cases here.symm.trans mem
      simp [Operations.awake]
    have next := calling_step (h.calling pc' sigs list here) starts run ahead
    rw [record, here, same]
    exact ⟨next.bit, next.waiting, next.empty, next.recvd⟩
  · cases after
    simp [Machine.enter, out] at empty
  · rw [called_start run called] at ahead
    cases ahead

/-- What `wait` has prepared is what its task waits for. -/
theorem Inv.task_stages (ok : Ok s (.stmt b)) (t : Ptr32) (sigs : BitVec 32) (list : TaskList)
    (waits : (m'.ustack t).head? = some (.wait .ret sigs list)) :
    OneBit sigs ∧ Stage m'.k ((top m').bind sending) (record s.m s.sent (.stmt b) t) t sigs := by
  have runs := h.here out
  obtain ⟨ustack, -, ⟨intr, same⟩, -⟩ := afterTask_spec out after
  have sends : (top m').bind sending = (Operations.goes n).bind sending := by
    refine Operations.next_top (fun _ => sending_window) run ?_
      (Operations.task_hands (Operations.under_calm h.single.inv out stack) out run after)
    rintro f' rfl
    cases after
    simp [top, out]
  by_cases own : t = s.m.regs.stack
  · rw [own, ustack, Function.update_self] at waits
    rcases h.leaves run stack after waits rfl with goto | left | ⟨f', called⟩
    · obtain ⟨pc', -, other⟩ := goes_waiting run goto
      exact absurd rfl other
    · obtain ⟨rfl, rfl⟩ := returns_yielded run left
      have calling := h.calling .yield sigs list here rfl
      obtain ⟨c, rfl⟩ := left
      refine ⟨calling.bit, ?_⟩
      rw [own, runs, record, here, same, sends]
      exact .asleep calling.waiting (calling.recvd (by simp)) calling.empty
          (by simp [Operations.goes])
    · cases called_start run called
  · rw [task_elsewhere out after own] at waits
    obtain ⟨bit, stage⟩ := h.stage_next here run ok waits fun _ => runs ▸ own
    refine ⟨bit, ?_⟩
    rw [same, sends]
    exact stage_intr intr stage

theorem Inv.task (ok : Ok s (.stmt b)) (single : Operations.Single.Inv m')
    (home : ∃ saved, Contexts.Inv kernel_task ⟨m', saved⟩) :
    Inv kernel_task ⟨m', record s.m s.sent (.stmt b)⟩ where
  single := single
  home := home
  known := h.task_known run out after
  callers := h.task_callers run out stack after
  heads := h.task_heads run out after
  calling := h.task_calling here run out stack after ok single.inv.still
  stages := h.task_stages here run out stack after ok

end Task

end Statement

/-- An event that touches neither the tasks nor their frames. -/
theorem Inv.quiet (h : Inv kernel_task s) (single : Operations.Single.Inv m')
    (home : ∃ saved, Contexts.Inv kernel_task ⟨m', saved⟩) (task : m'.k.task = s.m.k.task)
    (tasks : m'.k.tasks = s.m.k.tasks) (ustack : m'.ustack = s.m.ustack)
    (free : s.m.kstack = [] → s.m.current = [])
    (calm : ∀ pc sigs list, top m' ≠ some (.wait pc sigs list))
    (before : (top s.m).bind sending = none)
    (after : (top m').bind sending = none) : Inv kernel_task ⟨m', s.sent⟩ := by
  refine ⟨single, home, fun t some => ?_, fun t => ?_, fun t _ f mem => ?_,
    fun pc sigs list first => ?_, fun t sigs list waits => ?_⟩
  · rw [ustack] at some
    rw [tasks]
    exact h.known t some
  · rw [ustack]
    exact h.callers t
  · rw [ustack] at mem
    refine h.heads t (fun out own => ?_) f mem
    have none : s.m.ustack s.m.regs.stack = [] := free out
    rw [own, none] at mem
    cases mem
  · exact absurd first (calm pc sigs list)
  · rw [ustack] at waits
    obtain ⟨bit, stage⟩ := h.stages t sigs list waits
    rw [before] at stage
    rw [after]
    exact ⟨bit, stage.same (by rw [task]) (by rw [task]) fun _ => Iff.rfl⟩

/-- The code of a task calls a function. -/
theorem Inv.push (h : Inv kernel_task s) (user : s.m.inTask)
    (single : Operations.Single.Inv (s.m.setCurrent [f]))
    (home : ∃ saved, Contexts.Inv kernel_task ⟨s.m.setCurrent [f], saved⟩)
    (starts : ∀ pc sigs list, f = .wait pc sigs list → pc = .test) (none : sending f = none) :
    Inv kernel_task ⟨s.m.setCurrent [f], s.sent⟩ := by
  have first : top (s.m.setCurrent [f]) = some f :=
    top_task user.1 (Machine.setCurrent_current s.m [f])
  have elsewhere (t : Ptr32) (other : t ≠ s.m.regs.stack) :
      (s.m.setCurrent [f]).ustack t = s.m.ustack t := by
    simp [Machine.setCurrent, other]
  have own : (s.m.setCurrent [f]).ustack s.m.regs.stack = [f] := by simp [Machine.setCurrent]
  refine ⟨single, home, fun t some => ?_, fun t => ?_, fun t away => ?_,
    fun pc sigs list here ahead => ?_, fun t sigs list waits => ?_⟩
  · by_cases mine : t = s.m.regs.stack
    · rw [mine, h.here user.1]
      exact h.runs
    · rw [elsewhere t mine] at some
      exact h.known t some
  · by_cases mine : t = s.m.regs.stack
    · rw [mine, own]
      exact fun g mem => absurd mem List.not_mem_nil
    · rw [elsewhere t mine]
      exact h.callers t
  · have mine := away user.1
    rw [elsewhere t mine]
    exact h.heads t fun _ => mine
  · rw [starts pc sigs list (Option.some.inj (first.symm.trans here))] at ahead
    cases ahead
  · by_cases mine : t = s.m.regs.stack
    · rw [mine, own] at waits
      cases starts .ret sigs list (Option.some.inj waits)
    · rw [elsewhere t mine] at waits
      obtain ⟨bit, stage⟩ := h.stages t sigs list waits
      rw [Operations.top_user user] at stage
      rw [first]
      exact ⟨bit, stage.same rfl rfl fun _ => by simp [none]⟩

theorem enter_sending {F : Context → Frame} (calm : ∀ c, (F c).fn ≠ .signal ∧ (F c).fn ≠ .wait) :
    (top (m.enter F)).bind sending = none ∧ ∀ pc sigs list,
        top (m.enter F) ≠ some (.wait pc sigs list) := by
  obtain ⟨c, kstack⟩ := enter_frames m F
  rw [top_kernel kstack]
  refine ⟨?_, fun pc sigs list same => (calm c).2 (congrArg Frame.fn (Option.some.inj same))⟩
  have other := (calm c).1
  cases first : F c with
  | signal pc t sigs =>
      rw [first] at other
      exact absurd rfl other
  | _ => simp [sending]

/-- The registers of the tasks are kept as they are in any run. -/
theorem home_step (h : Inv kernel_task s) (stepped : s.m.step e = some m') :
    ∃ saved, Contexts.Inv kernel_task ⟨m', saved⟩ := by
  obtain ⟨saved, home⟩ := h.home
  refine ⟨Contexts.record saved (Contexts.saves s.m e), Contexts.inv_step (e := e) home ?_ ?_⟩
  · obtain ⟨seqs, status, -, placed⟩ := h.single.inv.placed
    unfold Contexts.Ok
    cases here : top s.m with
    | none => rfl
    | some f =>
        cases chosen : f.chosen with
        | none => simp [chosen]
        | some t =>
            rw [Operations.hands, here] at placed
            cases f with
            | switchTasks pc c u =>
                cases pc <;> cases chosen
                simpa [Frame.chosen] using placed.ahead.1
            | _ => cases chosen
  · simp [Contexts.step, stepped]

theorem inv_step (h : Inv kernel_task s) (ok : Ok s e) {s' : Waits} (step : step s e = some s') :
    Inv kernel_task s' := by
  obtain ⟨m', stepped, same⟩ := Option.bind_eq_some_iff.mp step
  cases same
  have single := h.single.step ok.1 ok.2 stepped
  have home := home_step h stepped
  have idle {m : Machine} (user : m.inTask) : (top m).bind sending = none := by
    rw [Operations.top_user user]
    rfl
  have bare {m : Machine} (user : m.inTask) (pc : WaitPc) (sigs : BitVec 32) (list : TaskList) :
      top m ≠ some (.wait pc sigs list) := by
    rw [Operations.top_user user]
    exact nofun
  cases stepped_of_step stepped with
  | kernel stack run after => exact h.kernel (top_kernel stack) run ok single home stack after
  | task out stack run after => exact h.task (top_task out stack) run out stack after ok single home
  | @irq i on unmasked =>
      have calm : ∀ c, (Frame.irq .enter i c).fn ≠ .signal ∧ (Frame.irq .enter i c).fn ≠ .wait :=
        fun c => by
        simp [Frame.fn]
      obtain ⟨after, other⟩ :=
        enter_sending (m := { s.m with kstack := s.m.kstack.modifyHead .wake }) calm
      have before : (top s.m).bind sending = none := by
        rcases ok.1 with user | halt
        · exact idle user
        · cases stack : s.m.kstack with
          | nil => simp [stack] at halt
          | cons f fs =>
              rw [top_kernel stack]
              have stop : Operations.halted f := by simpa [stack] using halt
              cases f <;> first | rfl | cases stop
      refine h.quiet single home (by rw [enter_k]) (by rw [enter_k]) ?_
          (fun out => ?_) other before after
      · unfold Machine.enter
        split <;> rfl
      · rcases ok.1 with user | halt
        · exact user.2
        · simp [out] at halt
  | call user c =>
      cases c with
      | forbid =>
          exact h.quiet single home rfl rfl rfl (fun _ => user.2) (bare user) (idle user)
              (idle user)
      | yield =>
          have calm (c : Context) : (Frame.trap .enter .yield c).fn ≠ .signal ∧
              (Frame.trap .enter .yield c).fn ≠ .wait := by
            simp [Frame.fn]
          obtain ⟨after, other⟩ := enter_sending (m := s.m) calm
          refine h.quiet single home (by rw [Machine.call, enter_k])
              (by rw [Machine.call, enter_k]) ?_
            (fun _ => user.2) other (idle user) after
          simp [Machine.call, Machine.enter, user.1]
      | _ => exact h.push user single home (by rintro pc sigs list ⟨⟩ <;> rfl) rfl
  | compute user others =>
      exact h.quiet single home rfl rfl rfl (fun _ => user.2) (bare ⟨user.1, user.2⟩) (idle user)
          (idle ⟨user.1, user.2⟩)
  | store user dest byte =>
      exact h.quiet single home rfl rfl rfl (fun _ => user.2) (bare ⟨user.1, user.2⟩) (idle user)
          (idle ⟨user.1, user.2⟩)
  | keybd user queue =>
      exact h.quiet single home rfl rfl rfl (fun _ => user.2) (bare ⟨user.1, user.2⟩) (idle user)
          (idle ⟨user.1, user.2⟩)

theorem boot_inv (kernel_task : Ptr32) : Inv kernel_task ⟨.boot kernel_task, fun _ => []⟩ where
  single := Operations.Single.boot kernel_task
  home := ⟨_, Contexts.boot_inv kernel_task⟩
  known _ some := absurd rfl some
  callers _ _ mem := nomatch mem
  heads _ _ _ mem := nomatch mem
  calling _ _ _ first := nomatch first
  stages _ _ _ waits := nomatch waits

/-- When `wait` returns to a task, in runs whose operations keep to themselves, with waits for one
    signal, the task has got one signal since it called `wait`, which is what it was waiting for and
    what it gets. -/
theorem wait_returns (reached : Runs.Reach step Ok (Init kernel_task) s) (out : s.m.kstack = [])
    (here : s.m.current.head? = some (.wait .ret sigs list)) (b : Ptr32) :
    ∃ w, s.sent s.m.k.running_task = [w] ∧ sigs &&& w = sigs ∧ sigs ≠ 0 ∧
      exec b s.m.k (.wait .ret sigs list) = some (s.m.k, .ret (.word w)) := by
  have inv : Inv kernel_task s := by
    refine reached.invariant ?_ fun _ _ _ h ok step => inv_step h ok step
    rintro s rfl
    exact boot_inv kernel_task
  have runs := inv.here out
  rw [← runs]
  exact inv.returned out here

instance (s : Waits) (e : Event) : Decidable (Ok s e) := instDecidableAnd

/-- The task 8 waits for a signal, and the kernel task sends it one with another bit. -/
def answered : List Event :=
  [.call (.createTask 1)] ++ List.replicate 8 (.stmt 8) ++ List.replicate 14 (.stmt 12) ++
    [.call .yield] ++ List.replicate 14 (.stmt 0) ++
    [.call (.wait 4 .tasks_wait)] ++ List.replicate 25 (.stmt 0) ++
    [.call (.signal 8 6)] ++ List.replicate 24 (.stmt 0)

def returning (s : Waits) : Bool :=
  s.m.kstack = [] ∧ s.m.current.head? = some (.wait .ret 4 .tasks_wait)

theorem wait_returns_answered : ∃ s : Waits, ∃ w,
    Runs.run step ⟨.boot 4, fun _ => []⟩ answered = some s ∧
    s.sent s.m.k.running_task = [w] ∧ 4 &&& w = 4 ∧ (4 : BitVec 32) ≠ 0 ∧
    exec 0 s.m.k (.wait .ret 4 .tasks_wait) = some (s.m.k, .ret (.word w)) := by
  have meets : Runs.Meets step Ok ⟨.boot 4, fun _ => []⟩ answered := by decide +kernel
  have start : Runs.Reach step Ok (Init 4) ⟨.boot 4, fun _ => []⟩ := .start rfl
  have ends : (Runs.run step ⟨.boot 4, fun _ => []⟩ answered).any returning := by decide +kernel
  obtain ⟨s, run, ends⟩ := (Option.any_eq_true _ _).mp ends
  obtain ⟨out, here⟩ := of_decide_eq_true ends
  obtain ⟨w, returned⟩ := wait_returns (start.of_run meets run) out here 0
  exact ⟨s, w, run, returned⟩

end Waits

end Krypton
