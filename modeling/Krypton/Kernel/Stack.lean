import Krypton.Kernel.Scheduling

/-! # The frames that wait

A task may be interrupted in code of its own, and the CPU while it is halted;
every other function runs to its next yield. Then no frame but the one that
executes has a task in its hands.
-/

namespace Krypton

open LinkStore

namespace Operations

/-- The frame whose statement is next. -/
def top (m : Machine) : Option Frame :=
  match m.kstack with
  | [] => m.current.head?
  | f :: _ => some f

def halted : Frame → Bool
  | .switchTasks .halted .. => true
  | _ => false

/-- `switch_tasks` has not chosen the next task yet. -/
@[grind] def choosing : SwitchPc → Bool
  | .setRun | .restore => false
  | _ => true

def chooses : Frame → Bool
  | .switchTasks pc .. => choosing pc
  | _ => false

/-- `schedule` has put the running task aside. -/
def aside (m : Machine) : Bool := m.kstack.any chooses

/-- The operations are orderly, and no handler breaks into one. -/
def Ok (m : Machine) : Event → Prop
  | .stmt _ => ∀ f ∈ top m, Orderly (aside m) m.k f
  | .irq _ => m.inTask ∨ m.kstack.head?.any halted
  | _ => True

/-- A frame that a handler can have. -/
@[grind] def inKernel : Frame → Bool
  | .trap .. | .irq .. | .timerCallback .. | .keypressIsr .. | .signal .. | .switchTasks .. => true
  | .queueSend pc s =>
      s.blocking = false && match pc with | .wait | .reforbid | .refull => false | _ => true
  | _ => false

/-- A frame that waits for the one above it. -/
structure Calm (f : Frame) : Prop where
  window : f.window = .none
  leaves : f.leaves = false
  entry : f.isEntry → f.active

/-- The frames of a task that do not execute. -/
def behind (m : Machine) (t : Ptr32) : List Frame :=
  if m.kstack = [] ∧ t = m.regs.stack then m.current.tail else m.ustack t

structure Still (m : Machine) : Prop where
  kernel : ∀ f ∈ m.kstack, inKernel f
  rooted : ∀ e ∈ m.kstack.getLast?, e.isEntry
  below : ∀ f ∈ m.kstack.tail, Calm f
  behind : ∀ t, ∀ f ∈ behind m t, Calm f

variable {m m' : Machine} {e : Event} {f g : Frame} {fs rest : List Frame} {v : Value}
variable {k k' : Kernel} {n : Next} {block t : Ptr32}

theorem top_kernel (stack : m.kstack = f :: rest) : top m = some f := by
  simp [top, stack]

theorem top_task (out : m.kstack = []) (stack : m.current = f :: rest) : top m = some f := by
  simp [top, out, stack]

theorem enter_frames (m : Machine) (F : Context → Frame) :
    ∃ c, (m.enter F).kstack = F c :: m.kstack := by
  unfold Machine.enter
  split
  · next empty => exact ⟨_, by rw [empty]⟩
  · exact ⟨_, rfl⟩

theorem enter_k (m : Machine) (F : Context → Frame) :
    (m.enter F).k = { m.k with intr := false } := by
  unfold Machine.enter
  split <;> rfl

theorem deliver_switch (v : Value) (pc : SwitchPc) (c : Context) (t : Ptr32) :
    (Frame.switchTasks pc c t).deliver v = .switchTasks pc c t := by
  unfold Frame.deliver
  split <;> first | rfl | simp_all

theorem calm_deliver (v : Value) (calm : Calm f) : Calm (f.deliver v) := by
  refine ⟨?_, ?_, by simpa using calm.entry⟩
  · have old := calm.window
    unfold Frame.deliver
    split <;> exact old
  · have old := calm.leaves
    unfold Frame.deliver
    split <;> exact old

theorem inKernel_deliver (v : Value) (inside : inKernel f) : inKernel (f.deliver v) := by
  unfold Frame.deliver
  split <;> exact inside

theorem inKernel_iff (other : f.fn ≠ .queue_send) : inKernel f ↔
    f.fn ∈ [.idt_handler, .irq_handler, .timer_callback, .keypress_isr, .signal,
        .switch_tasks] := by
  cases f <;> simp_all [inKernel, Frame.fn]

theorem inKernel_wait (inside : inKernel f) : f.fn ≠ .wait := by
  cases f <;> simp_all [inKernel, Frame.fn]

theorem exec_inKernel (run : exec block k f = some (k', n)) (inside : inKernel f) :
    ∀ g ∈ n.frames, inKernel g := by
  by_cases send : f.fn = .queue_send ∨ f.fn = .keypress_isr
  · have none : n.frames.countP (! inKernel ·) = 0 := by
      cases f with
      | queueSend pc s => cases pc <;> grind [execSend]
      | keypressIsr pc scancode => cases pc <;> grind [execKeypress, keySend]
      | _ => simp [Frame.fn] at send
    intro g mem
    simpa using List.countP_eq_zero.mp none g mem
  · have belongs := (exec_effect run).next
    have other : f.fn ≠ .queue_send := fun same => send (.inl same)
    have same : ∀ f' : Frame, f'.fn = f.fn → inKernel f' := by
      intro f' fn
      rw [inKernel_iff (by rwa [fn]), fn]
      exact (inKernel_iff other).mp inside
    cases n with
    | goto f' | int f' c | write f' b =>
        intro g mem
        cases List.mem_singleton.mp mem
        exact same _ belongs.1
    | call f' g =>
        have callee : inKernel g := by
          have calls := belongs.2.2.1
          cases f with
          | trap | irq | timerCallback => cases g <;> first | rfl | simp [Frame.calls] at calls
          | signal | switchTasks => simp [Frame.calls] at calls
          | queueSend | keypressIsr => simp [Frame.fn] at send
          | _ => cases inside
        intro h mem
        simp only [Next.frames, List.mem_cons, List.not_mem_nil, or_false] at mem
        rcases mem with rfl | rfl
        · exact callee
        · exact same _ belongs.1
    | ret v | iret regs => simp [Next.frames]

theorem caller_calm {f' : Frame} (run : exec block k f = some (k', n))
    (left : (∃ g, n = .call f' g) ∨ ∃ c, n = .int f' c) : Calm f' := by
  obtain ⟨window, leaves⟩ := caller_stops run left
  refine ⟨window, leaves, fun entry => ?_⟩
  have belongs := (exec_effect run).next
  rcases left with ⟨g, rfl⟩ | ⟨c, rfl⟩
  · exact belongs.2.2.2 (same_isEntry belongs.1 ▸ entry)
  · have plain := (int_plain belongs).1
    rw [← same_isEntry belongs.1, entry] at plain
    cases plain

/-! ## The frames -/

/-- The last frame on the kernel stack is that of a handler. -/
theorem kernel_rooted (old : ∀ e ∈ (f :: rest).getLast?, e.isEntry)
    (run : exec block k f = some (k', n))
    (after : m.afterKernel rest n = some m') : ∀ e ∈ m'.kstack.getLast?, e.isEntry := by
  have belongs := (exec_effect run).next
  have same : ∀ f' : Frame, f'.fn = f.fn → rest = [] → f'.isEntry := by
    intro f' fn alone
    rw [same_isEntry fn]
    exact old f (by simp [alone])
  have below : ∀ g, rest.getLast? = some g → g.isEntry := by
    intro g last
    refine old g ?_
    cases rest with
    | nil => cases last
    | cons h hs => simpa using last
  cases n with
  | goto f' =>
      cases after
      cases rest with
      | nil => simpa using same f' belongs.1 rfl
      | cons h hs => simpa using below
  | call f' g =>
      cases after
      cases rest with
      | nil => simpa using same f' belongs.1 rfl
      | cons h hs => simpa using below
  | int f' call =>
      cases after
      cases rest with
      | nil => simpa [Machine.enter] using same f' belongs.1 rfl
      | cons h hs => simpa [Machine.enter] using below
  | write f' b =>
      cases rest with
      | nil =>
          cases after
          simpa using same f' belongs.1 rfl
      | cons h hs =>
          cases after
          cases hs with
          | nil => simpa using below
          | cons i is => simpa using below
  | ret v =>
      cases after
      cases rest with
      | nil => simp
      | cons h hs =>
          cases hs with
          | nil => simpa using below
          | cons i is => simpa using below
  | iret regs =>
      cases regs with
      | user regs =>
          cases after
          simp
      | kernel intr =>
          simp only [Machine.afterKernel, Machine.iret] at after
          split at after
          · cases after
          · cases after
            exact below

/-- The stacks of the tasks, after a statement on the kernel stack. -/
theorem kernel_ustack {P : Frame → Prop} (delivered : ∀ v f, P f → P (f.deliver v))
    (old : ∀ t, ∀ f ∈ m.ustack t, P f) (after : m.afterKernel rest n = some m') :
    ∀ t, ∀ f ∈ m'.ustack t, P f := by
  cases n with
  | write f' b =>
      cases rest with
      | nil =>
          cases after
          exact setCurrent_frames old (modifyHead_frames (delivered _) (old _))
      | cons g gs =>
          cases after
          exact old
  | iret regs =>
      cases regs with
      | user regs =>
          cases after
          exact old
      | kernel intr =>
          simp only [Machine.afterKernel, Machine.iret] at after
          split at after <;> cases after
          exact old
  | _ =>
      cases after
      exact old

theorem behind_sub (h : ∀ t, ∀ f ∈ m.ustack t, Calm f) : ∀ t, ∀ f ∈ behind m t, Calm f := by
  intro t f mem
  unfold behind at mem
  split at mem
  · exact h _ f (List.mem_of_mem_tail mem)
  · exact h t f mem

/-- While a handler executes, all frames of tasks wait. -/
theorem Still.tasks (h : Still m) (stack : m.kstack = f :: rest) : ∀ t, ∀ f ∈ m.ustack t,
    Calm f := by
  intro t f mem
  refine h.behind t f ?_
  rw [Operations.behind, if_neg (by simp [stack])]
  exact mem

theorem kernel_still (h : Still m) (stack : m.kstack = f :: rest)
    (run : exec block m.k f = some (k, n))
    (after : ({ m with k } : Machine).afterKernel rest n = some m') : Still m' := by
  have all := h.tasks stack
  obtain ⟨kernel, rooted, below, -⟩ := h
  rw [stack] at kernel rooted below
  refine ⟨?_, kernel_rooted rooted run after, ?_, ?_⟩
  · exact kernel_frames (fun v f _ => inKernel_deliver v)
        (fun f mem => kernel f (List.mem_cons_of_mem _ mem))
      (exec_inKernel run (kernel f List.mem_cons_self)) (fun _ _ _ _ => rfl) after
  · exact kernel_below (fun v f => calm_deliver v) below
        (fun f' g same => caller_calm run (.inl ⟨g, same⟩))
      (fun f' c same => caller_calm run (.inr ⟨c, same⟩)) after
  · exact behind_sub (kernel_ustack (m := { m with k }) (fun v f => calm_deliver v) all after)

theorem task_still (h : Still m) (out : m.kstack = []) (stack : m.current = f :: rest)
    (run : exec block m.k f = some (k, n))
    (after : ({ m with k } : Machine).afterTask rest n = some m') : Still m' := by
  have calm := h.behind
  have under : ∀ g ∈ rest, Calm g := by
    intro g mem
    refine calm m.regs.stack g ?_
    rw [behind, if_pos ⟨out, rfl⟩, stack]
    exact mem
  have others : ∀ t, t ≠ m.regs.stack → ∀ g ∈ m.ustack t, Calm g := by
    intro t other g mem
    refine calm t g ?_
    rw [behind, if_neg (fun both => other both.2)]
    exact mem
  have set : ∀ fs : List Frame, (∀ g ∈ fs.tail, Calm g) →
      ∀ t, ∀ g ∈ behind (({ m with k } : Machine).setCurrent fs) t, Calm g := by
    intro fs tail t g mem
    unfold behind at mem
    split at mem
    · exact tail g (by simpa using mem)
    · rename_i away
      have other : t ≠ m.regs.stack := fun same => away ⟨out, same⟩
      exact others t other g (by simpa [Machine.setCurrent, other] using mem)
  have none : ∀ m' : Machine, m'.kstack = [] → (∀ t, ∀ g ∈ behind m' t, Calm g) → Still m' := by
    intro m' out calm
    exact ⟨by simp [out], by simp [out], by simp [out], calm⟩
  cases n with
  | goto f' =>
      cases after
      exact none _ out (set _ under)
  | call f' g =>
      cases after
      refine none _ out (set _ ?_)
      simpa using ⟨caller_calm run (.inl ⟨g, rfl⟩), under⟩
  | int f' c =>
      cases after
      refine ⟨?_, ?_, ?_, behind_sub fun t g mem => ?_⟩
      · simp [Machine.enter, out, inKernel]
      · simp [Machine.enter, out, Frame.isEntry, Frame.fn]
      · simp [Machine.enter, out]
      · by_cases here : t = m.regs.stack
        · have mine : g ∈ f' :: rest := by simpa [Machine.enter, out, Machine.setCurrent, here]
              using mem
          cases mine with
          | head => exact caller_calm run (.inr ⟨c, rfl⟩)
          | tail _ mem => exact under g mem
        · exact others t here g (by simpa [Machine.enter, out, Machine.setCurrent, here] using mem)
  | write f' b => cases after
  | ret v =>
      cases after
      refine none _ out (set _ ?_)
      cases rest with
      | nil => simp
      | cons g gs => exact fun g mem => under g (List.mem_cons_of_mem _ mem)
  | iret regs => cases after

theorem call_still (h : Still m) (user : m.inTask) (c : Call) : Still (m.call c) := by
  have all : ∀ t, ∀ g ∈ m.ustack t, Calm g := by
    intro t g mem
    by_cases here : t = m.regs.stack
    · have none : m.ustack m.regs.stack = [] := user.2
      rw [here, none] at mem
      cases mem
    · refine h.behind t g ?_
      rw [behind, if_neg (fun both => here both.2)]
      exact mem
  have push (fs : List Frame) (short : fs.tail = []) : Still (m.setCurrent fs) := by
    have out : (m.setCurrent fs).kstack = [] := user.1
    refine ⟨by simp [user.1], by simp [user.1], by simp [user.1], fun t g mem => ?_⟩
    unfold behind at mem
    split at mem
    · simp [short] at mem
    · rename_i away
      have other : t ≠ m.regs.stack := fun same => away ⟨out, same⟩
      exact all t g (by simpa [Machine.setCurrent, other] using mem)
  cases c with
  | forbid => exact ⟨h.kernel, h.rooted, h.below, h.behind⟩
  | yield =>
      have enter : (m.call .yield).kstack =
          [.trap .enter .yield (.user { m.regs with intr := m.k.intr })] := by
        simp [Machine.call, Machine.enter, user.1]
      have same : (m.call .yield).ustack = m.ustack := by
        simp [Machine.call, Machine.enter, user.1]
      refine ⟨?_, ?_, ?_, behind_sub (same ▸ all)⟩
      · simp [enter, inKernel]
      · simp [enter, Frame.isEntry, Frame.fn]
      · simp [enter]
  | _ => exact push _ rfl

theorem irq_still (h : Still m) (free : m.inTask ∨ m.kstack.head?.any halted) (n : Irq) :
    Still (({ m with kstack := m.kstack.modifyHead .wake } : Machine).enter (.irq .enter n)) := by
  have all : ∀ t, ∀ g ∈ m.ustack t, Calm g := by
    intro t g mem
    by_cases here : m.kstack = [] ∧ t = m.regs.stack
    · rcases free with user | halt
      · have none : m.ustack m.regs.stack = [] := user.2
        rw [here.2, none] at mem
        cases mem
      · simp [here.1] at halt
    · refine h.behind t g ?_
      rw [behind, if_neg here]
      exact mem
  rcases free with user | halt
  · refine ⟨?_, ?_, ?_, behind_sub (by simpa [Machine.enter, user.1] using all)⟩
    · simp [Machine.enter, user.1, inKernel]
    · simp [Machine.enter, user.1, Frame.isEntry, Frame.fn]
    · simp [Machine.enter, user.1]
  · cases stack : m.kstack with
    | nil => simp [stack] at halt
    | cons f rest =>
        cases f with
        | switchTasks pc c t =>
            obtain ⟨kernel, rooted, below, -⟩ := h
            rw [stack] at kernel rooted below
            have top : Calm (.wake (.switchTasks pc c t)) := by
              cases pc <;> first | exact ⟨rfl, rfl, nofun⟩ | simp [stack, halted] at halt
            refine ⟨?_, ?_, ?_, behind_sub (by simpa [Machine.enter] using all)⟩
            · have first : inKernel (.wake (.switchTasks pc c t)) := by cases pc <;> rfl
              simp only [List.modifyHead_cons, Machine.enter, List.mem_cons]
              rintro g (rfl | rfl | mem)
              · rfl
              · exact first
              · exact kernel g (List.mem_cons_of_mem _ mem)
            · cases rest with
              | nil => simp [Frame.isEntry, Frame.fn] at rooted
              | cons g gs => simpa [Machine.enter] using rooted
            · simp only [List.modifyHead_cons, Machine.enter, List.tail_cons, List.mem_cons]
              rintro g (rfl | mem)
              · exact top
              · exact below g mem
        | _ => simp [stack, halted] at halt

theorem still_step (h : Still m) (ok : Ok m e) (step : m.step e = some m') : Still m' := by
  cases stepped_of_step step with
  | kernel stack run after => exact kernel_still h stack run after
  | task out stack run after => exact task_still h out stack run after
  | irq on unmasked => exact irq_still h ok _
  | call user c => exact call_still h user c
  | compute user others => exact ⟨h.kernel, h.rooted, h.below, h.behind⟩
  | store user dest byte => exact ⟨h.kernel, h.rooted, h.below, h.behind⟩
  | keybd user queue => exact ⟨h.kernel, h.rooted, h.below, h.behind⟩

end Operations

end Krypton
