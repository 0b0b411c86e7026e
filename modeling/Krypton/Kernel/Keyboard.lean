import Krypton.Kernel.Queues

/-! # The console and the keyboard

The console task loops over a blocking `queue_recv` on a queue of one slot, and
`keypress_isr` sends to it. The only order that goes wrong is a keystroke between
the console's test for an empty queue and its entry into the signals it waits for.
-/

namespace Krypton

open LinkStore

namespace Keyboard

variable (q console : Ptr32)

/-- Keyboard interrupts, and the console in its loop. -/
def Typing (m : Machine) : Event → Prop
  | .stmt _ | .irq (.keyboard _) | .compute _ | .store .. => True
  | .call (.queueRecv queue _ blocking) => queue = q ∧ blocking ∧ m.regs.stack = console
  | _ => False

/-- The keyboard queue is empty, and the console is about to enter its loop. -/
structure Init (m : Machine) : Prop where
  outside : Outside m
  idle : ∀ t, m.ustack t = []
  keybd : m.k.keybd_queue = q
  slots : (m.k.queue q).free_slots = 1 ∧ (m.k.queue q).max_slots = 1
  owner : (m.k.queue q).owner = console
  empty : IsList m.k.msgs q []

/-- The console sleeps on a message. -/
def Stuck (k : Kernel) : Prop :=
  get_head k.msgs q ≠ some .null ∧ (∃ tasks, IsList k.links .tasks_wait tasks ∧ console ∈ tasks) ∧
    (k.task console).sigs_waiting &&& TB_QUEUE ≠ 0

/-- Between interrupts the console is not stuck. -/
def Awake (m : Machine) : Prop :=
  (∀ f ∈ m.kstack, f.fn ≠ .keypress_isr) → ¬ Stuck q console m.k

/-- How far the console is in `queue_recv`. -/
inductive Stage where
  | out
  /-- it has found the queue empty and does not wait yet -/
  | window
  /-- it has found a message -/
  | taking
  /-- it has unlinked the message and not counted that -/
  | taken
  deriving DecidableEq

def stage : List Frame → Stage
  | .queueRecv pc _ :: _ =>
      match pc with
      | .mode | .wait => .window
      | .unlink => .taking
      | .copy | .freeData | .freeMsg | .count => .taken
      | _ => .out
  | .wait pc .. :: _ =>
      match pc with
      | .test | .forbid | .setWaiting => .window
      | _ => .out
  | _ => .out

/-- No keystroke is linked into the queue while the console is about to wait. -/
def Ok (m : Machine) (e : Event) : Prop :=
  Typing q console m e ∧
    match e, m.kstack with
    | .stmt _, .queueSend .link _ :: _ => stage (m.ustack console) ≠ .window
    | _, _ => True

/-- The frames of the console in its loop. -/
inductive Loop : List Frame → Prop where
  | out : Loop []
  | recv : r.queue = q → Loop [.queueRecv pc r]
  | wait : r.queue = q → Loop [.wait pc TB_QUEUE .tasks_wait, .queueRecv .reforbid r]
  | signal : r.queue = q → Loop [.signal pc task sigs, .queueRecv .next r]

/-- The frames on the kernel stack. -/
@[grind] def fits : Frame → Bool
  | .queueSend pc s =>
      s.queue = q && s.resumed = false && s.blocking = false &&
        match pc with
        | .wait | .reforbid | .refull => false
        | _ => true
  | .signal _ task sigs => task = console && sigs = TB_QUEUE
  | .irq _ n _ => n ≠ .timer
  | .trap .. | .switchTasks .. | .keypressIsr .. => true
  | _ => false

/-- What the frame was called from. -/
def Over (f : Frame) (below : Option Frame) : Prop :=
  match f with
  | .queueSend .. => ∃ scancode, below = some (.keypressIsr .sti scancode)
  | .keypressIsr .. => ∃ n regs, below = some (.irq .cli n regs)
  | .signal .. => ∃ s, below = some (.queueSend .permit s)
  | _ => True

def Stacked : List Frame → Prop
  | [] => True
  | f :: rest => Over f rest.head? ∧ Stacked rest

/-- How far `queue_send` and its `signal` are. -/
inductive Phase where
  | quiet
  /-- it has found a free slot -/
  | room
  /-- it has linked the message and not counted that -/
  | linked
  /-- it has yet to clear what the console waits for -/
  | full
  deriving DecidableEq

def phase : Frame → Phase
  | .queueSend pc _ =>
      match pc with
      | .alloc | .clear | .hasData | .allocData | .setData | .copy | .link => .room
      | .count => .linked
      | .signal => .full
      | _ => .quiet
  | .signal pc .. =>
      match pc with
      | .test | .forbid | .setReady | .clearWaiting => .full
      | _ => .quiet
  | _ => .quiet

/-- The counter and the number of linked messages. -/
def Content (k : Kernel) (free_slots : BitVec 32) (messages : Nat) : Prop :=
  (k.queue q).free_slots = free_slots ∧ ∃ xs, IsList k.msgs q xs ∧ xs.length = messages

def Stage.At (k : Kernel) : Stage → Prop
  | out => Content q k 1 0 ∨ Content q k 0 1
  | window => Content q k 1 0
  | taking => Content q k 0 1
  | taken => Content q k 0 0

def Phase.At (m : Machine) : Phase → Prop
  | quiet => True
  | room =>
      Content q m.k 1 0 ∧ (stage (m.ustack console) = .out ∨ stage (m.ustack console) = .window)
  | linked => Content q m.k 1 1 ∧ stage (m.ustack console) = .out
  | full => Content q m.k 0 1 ∧ stage (m.ustack console) = .out

/-- No message is under way. -/
structure Settled (m : Machine) : Prop where
  stage : (stage (m.ustack console)).At q m.k
  waiting : (m.k.task console).sigs_waiting &&& TB_QUEUE ≠ 0 → Content q m.k 1 0

/-- What is under way on a kernel stack. -/
def under (fs : List Frame) : List Phase := (fs.map phase).filter (· ≠ .quiet)

/-- The state fits what is under way. -/
def Fitting (m : Machine) (phases : List Phase) : Prop :=
  (∀ p ∈ phases, p.At q console m) ∧ (phases = [] → Settled q console m)

structure Inv (m : Machine) : Prop where
  nested : Nested m
  keybd : m.k.keybd_queue = q
  max_slots : (m.k.queue q).max_slots = 1
  owner : (m.k.queue q).owner = console
  others : ∀ t, t ≠ console → m.ustack t = []
  loop : Loop q (m.ustack console)
  fits : ∀ f ∈ m.kstack, fits q console f
  stacked : Stacked m.kstack
  single : m.kstack.countP (·.unacked.isSome) ≤ 1
  fitting : Fitting q console m (under m.kstack)

variable {q console} {m m' : Machine} {e : Event} {f g : Frame} {fs rest : List Frame} {v : Value}
variable {k k' : Kernel} {n : Next} {block : Ptr32}

section Stack

@[grind] def isSend (f : Frame) : Bool := f.fn = .queue_send

@[grind] def isKeypress (f : Frame) : Bool := f.fn = .keypress_isr

@[grind] def isSignal (f : Frame) : Bool := f.fn = .signal

/-- An `irq_handler` in its registered handler. -/
def handling : Frame → Bool
  | .irq .cli .. => true
  | _ => false

/-- Frames that stand on others of a kind are no more than these. -/
theorem Stacked.countP_le {p r : Frame → Bool} (h : Stacked fs)
    (above : ∀ f below, p f → Over f below → ∃ g, below = some g ∧ r g)
    (apart : ∀ f, p f → r f = false) : fs.countP p ≤ fs.tail.countP r := by
  induction fs with
  | nil => simp
  | cons f rest ih =>
      have below := ih h.2
      cases top : p f with
      | false =>
          have tail := (List.tail_sublist rest).countP_le (p := r)
          simp [top]
          omega
      | true =>
          obtain ⟨g, head, caller⟩ := above f _ top h.1
          cases rest with
          | nil => cases head
          | cons g' rest =>
              cases head
              have plain : p g = false := by
                by_contra both
                simp [apart g (by simpa using both)] at caller
              simp [top, caller, plain] at below ⊢
              omega

theorem Stacked.counts (h : Stacked fs) :
    fs.countP isSignal ≤ fs.tail.countP isSend ∧ fs.countP isSend ≤ fs.tail.countP isKeypress ∧
      fs.countP isKeypress ≤ fs.tail.countP handling := by
  refine ⟨h.countP_le ?_ ?_, h.countP_le ?_ ?_, h.countP_le ?_ ?_⟩
  · intro f below top above
    cases f with
    | signal => exact ⟨_, above.choose_spec, rfl⟩
    | _ => cases top
  · intro f top
    cases f <;> first | rfl | cases top
  · intro f below top above
    cases f with
    | queueSend => exact ⟨_, above.choose_spec, rfl⟩
    | _ => cases top
  · intro f top
    cases f <;> first | rfl | cases top
  · intro f below top above
    cases f with
    | keypressIsr =>
        obtain ⟨n, regs, same⟩ := above
        exact ⟨_, same, rfl⟩
    | _ => cases top
  · intro f top
    cases f <;> first | rfl | cases top

theorem phase_quiet (send : isSend f = false) (signal : isSignal f = false) : phase f = .quiet := by
  cases f with
  | queueSend => cases send
  | signal => cases signal
  | _ => rfl

theorem under_nil (quiet : ∀ f ∈ fs, phase f = .quiet) : under fs = [] := by
  simpa [under] using quiet

theorem under_cons (f : Frame) (fs : List Frame) : under (f :: fs) = under [f] ++ under fs := by
  cases h : phase f <;> simp [under, h]

/-- Without an `irq_handler` in its registered handler nothing is under way. -/
theorem Stacked.quiet (h : Stacked fs) (none : fs.countP handling = 0) : under fs = [] := by
  obtain ⟨signals, sends, keypresses⟩ := h.counts
  have tail {p : Frame → Bool} := (List.tail_sublist fs).countP_le (p := p)
  have handlers := tail (p := handling)
  have keypress := tail (p := isKeypress)
  have send := tail (p := isSend)
  have noSend : fs.countP isSend = 0 := by omega
  have noSignal : fs.countP isSignal = 0 := by omega
  apply under_nil
  intro f mem
  apply phase_quiet
  · simpa using List.countP_eq_zero.mp noSend f mem
  · simpa using List.countP_eq_zero.mp noSignal f mem

theorem handling_le {p : Frame → Bool} (weaker : ∀ f, handling f → p f) (fs : List Frame) :
    fs.countP handling ≤ fs.countP p :=
  List.countP_mono_left fun f _ => weaker f

theorem handling_active (f : Frame) (h : handling f) : f.active := by
  cases f with
  | irq pc => cases pc <;> first | rfl | cases h
  | _ => cases h

theorem handling_unacked (f : Frame) (h : handling f) : f.unacked.isSome := by
  cases f with
  | irq pc => cases pc <;> first | rfl | cases h
  | _ => cases h

theorem stacked_modifyHead {g : Frame → Frame}
    (same : ∀ f below, Over f below → Over (g f) below) (h : Stacked fs) :
    Stacked (fs.modifyHead g) := by
  cases fs with
  | nil => exact h
  | cons f rest => exact ⟨same f _ h.1, h.2⟩

end Stack

section Structure

theorem phase_deliver (v : Value) (f : Frame) : phase (f.deliver v) = phase f := by
  unfold Frame.deliver
  split <;> rfl

theorem phase_wake (f : Frame) : phase f.wake = phase f := by
  unfold Frame.wake
  split <;> rfl

theorem fits_deliver (v : Value) (h : fits q console f) : fits q console (f.deliver v) := by
  unfold Frame.deliver
  split <;> exact h

theorem fits_wake (h : fits q console f) : fits q console f.wake := by
  unfold Frame.wake
  split <;> exact h

theorem over_deliver (f : Frame) (below : Option Frame) (h : Over f below) :
    Over (f.deliver v) below := by
  unfold Frame.deliver
  split <;> exact h

theorem over_wake (f : Frame) (below : Option Frame) (h : Over f below) : Over f.wake below := by
  unfold Frame.wake
  split <;> exact h

/-- The frames that a statement on the kernel stack puts there. -/
theorem exec_fits (keybd : k.keybd_queue = q) (owner : (k.queue q).owner = console)
    (run : exec block k f = some (k', n)) (fit : fits q console f) :
    n.frames.countP (! fits q console ·) = 0 := by
  cases f with
  | queueSend pc s => cases pc <;> grind [execSend]
  | signal pc => cases pc <;> grind [execSignal]
  | irq pc n => cases pc <;> cases n <;> grind [execIrq]
  | trap pc call => cases pc <;> cases call <;> grind [execTrap]
  | switchTasks pc => cases pc <;> grind [execSwitch]
  | keypressIsr pc => cases pc <;> grind [execKeypress, keySend]
  | _ => cases fit

theorem unacked_irq (h : f.unacked.isSome) : f.fn = .irq_handler := by
  cases f with
  | irq => rfl
  | _ => cases h

/-- An `irq_handler` that has sent its end-of-interrupt does not do so again. -/
theorem exec_unacked (run : exec block k f = some (k', n)) :
    n.frames.countP (·.unacked.isSome) ≤ f.unacked.isSome.toNat := by
  cases f with
  | irq pc n => cases pc <;> cases n <;> grind [execIrq, Frame.unacked]
  | _ =>
      have belongs := (exec_effect run).next
      have none : n.frames.countP (·.unacked.isSome) = 0 := by
        apply List.countP_eq_zero.mpr
        intro g mem unacked
        have entry := unacked_irq unacked
        cases n with
        | call f' callee =>
            have plain := (calls_plain belongs.2.2.1).2.2
            grind
        | _ => grind
      omega

theorem over_goto {f' : Frame} {below : Option Frame} (h : Over f below) (same : f'.fn = f.fn) :
    Over f' below := by
  cases f <;> cases f' <;> first | exact h | cases same

theorem exec_over {f' : Frame} (run : exec block k f = some (k', .call f' g))
    (fit : fits q console f) : Over g (some f') := by
  cases f with
  | queueSend pc s => cases pc <;> grind [execSend, Over]
  | signal pc => cases pc <;> grind [execSignal]
  | irq pc n => cases pc <;> cases n <;> grind [execIrq, Over]
  | trap pc call => cases pc <;> cases call <;> grind [execTrap, Over]
  | switchTasks pc => cases pc <;> grind [execSwitch]
  | keypressIsr pc => cases pc <;> grind [execKeypress, Over]
  | _ => cases fit

theorem kernel_stacked (h : Stacked (f :: rest)) (fit : fits q console f)
    (run : exec block k f = some (k', n)) (after : m.afterKernel rest n = some m') :
    Stacked m'.kstack := by
  have belongs := (exec_effect run).next
  cases n with
  | goto f' =>
      cases after
      exact ⟨over_goto h.1 belongs.1, h.2⟩
  | call f' g =>
      cases after
      exact ⟨exec_over run fit, over_goto h.1 belongs.1, h.2⟩
  | int f' call =>
      cases after
      exact ⟨trivial, over_goto h.1 belongs.1, h.2⟩
  | write f' b =>
      have top (below : Option Frame) : Over f' below := by
        have entry : f'.isEntry := by grind
        cases f' <;> trivial
      cases rest with
      | nil =>
          cases after
          exact ⟨top _, trivial⟩
      | cons g rest =>
          cases after
          exact ⟨top _, over_deliver g _ h.2.1, h.2.2⟩
  | ret v =>
      cases after
      exact stacked_modifyHead over_deliver h.2
  | iret regs =>
      cases regs with
      | user regs =>
          cases after
          trivial
      | kernel intr =>
          simp only [Machine.afterKernel, Machine.iret] at after
          split at after
          · cases after
          · cases after
            exact h.2

end Structure

section Contents

theorem Content.same {free_slots : BitVec 32} {messages : Nat} (same : Unshared k k')
    (h : Content q k free_slots messages) : Content q k' free_slots messages := by
  simpa [Content, same.queue, same.msgs] using h

theorem Stage.same {s : Stage} (same : Unshared k k') (h : s.At q k) : s.At q k' := by
  cases s with
  | out => exact h.imp (.same same) (.same same)
  | _ => exact Content.same same h

theorem Phase.same {p : Phase} (same : Unshared m.k m'.k)
    (ustack : m'.ustack console = m.ustack console) (h : p.At q console m) :
    p.At q console m' := by
  cases p with
  | quiet => trivial
  | _ => exact ⟨h.1.same same, by simpa [ustack] using h.2⟩

theorem Settled.same (same : Unshared m.k m'.k) (ustack : m'.ustack console = m.ustack console)
    (h : Settled q console m) : Settled q console m' := by
  constructor
  · rw [ustack]
    exact Stage.same same h.stage
  · rw [same.waiting]
    exact fun waits => (h.waiting waits).same same

/-- The list of a queue, as a family of one. -/
theorem lists_one {xs : List Ptr32} (h : IsList k.msgs q xs) :
    Lists k.msgs (· = q) (Function.update (fun _ => []) q xs) where
  each := by
    rintro l rfl
    simpa using h
  unused l other := Function.update_of_ne other ..
  apart l l' apart := by
    by_cases here : l = q
    · have other : l' ≠ q := fun same => apart (here.trans same.symm)
      simp [Function.update_of_ne other]
    · simp [Function.update_of_ne here]

theorem link_content {msg : Ptr32} {msgs : Store Ptr32 Ptr32} (h : Content q k 1 0)
    (linked : add_head k.msgs q msg = some msgs) : Content q { k with msgs } 1 1 := by
  obtain ⟨free, xs, list, len⟩ := h
  have empty := List.length_eq_zero_iff.mp len
  subst empty
  have fresh : ∀ l, msg ∉ Function.update (fun _ => []) q [] l := by simp
  obtain ⟨msgs', linked', lists⟩ := add_head_spec (lists_one list) rfl fresh
  cases linked.symm.trans linked'
  exact ⟨free, [msg], by simpa using lists.each q rfl, rfl⟩

theorem unlink_content {p : Ptr Ptr32 Ptr32} {msgs : Store Ptr32 Ptr32} (h : Content q k 0 1)
    (unlinked : remove_tail k.msgs q = some (p, msgs)) : Content q { k with msgs } 0 0 := by
  obtain ⟨free, xs, list, len⟩ := h
  obtain ⟨msg, rfl⟩ := List.length_eq_one_iff.mp len
  have last : Function.update (fun _ => []) q [msg] q = [] ++ [msg] := by simp
  obtain ⟨msgs', unlinked', lists⟩ := remove_tail_spec (lists_one list) last
  cases unlinked.symm.trans unlinked'
  exact ⟨free, [], by simpa using lists.each q rfl, rfl⟩

/-- The counter tells the two proper contents apart. -/
theorem content_free {free_slots : BitVec 32} (h : Content q k 1 0 ∨ Content q k 0 1)
    (free : (k.queue q).free_slots = free_slots) :
    free_slots = 1 ∧ Content q k 1 0 ∨ free_slots = 0 ∧ Content q k 0 1 := by
  cases h with
  | inl empty => exact .inl ⟨free.symm.trans empty.1, empty⟩
  | inr full => exact .inr ⟨free.symm.trans full.1, full⟩

end Contents

section Kernel

/-- Under a sender or its `signal` nothing else is under way. -/
theorem Inv.alone (h : Inv q console m) (stack : m.kstack = f :: rest)
    (top : isSend f ∨ isSignal f) : under rest = [] := by
  have stacked := h.stacked
  have single := h.single
  rw [stack] at stacked single
  obtain ⟨signals, sends, keypresses⟩ := stacked.counts
  have handlers := handling_le handling_unacked rest
  simp only [List.countP_cons, List.tail_cons] at signals sends keypresses single
  apply under_nil
  intro g mem
  have none (p : Frame → Bool) (zero : rest.countP p = 0) : p g = false := by
    simpa using List.countP_eq_zero.mp zero g mem
  cases top with
  | inl send =>
      rw [if_pos send] at sends
      apply phase_quiet (none _ (by omega)) (none _ (by omega))
  | inr signal =>
      rw [if_pos signal] at signals
      have noSignal := none isSignal (by omega)
      cases f with
      | signal =>
          obtain ⟨s, head⟩ := stacked.1
          cases rest with
          | nil => cases mem
          | cons g' rest =>
              cases head
              cases mem with
              | head => rfl
              | tail _ mem =>
                  have noSend : rest.countP isSend = 0 := by
                    simp only [List.countP_cons] at sends signals
                    grind
                  exact phase_quiet (by simpa using List.countP_eq_zero.mp noSend g mem) noSignal
      | _ => cases signal

theorem Fitting.same {phases : List Phase} (h : Fitting q console m phases)
    (same : Unshared m.k m'.k) (ustack : m'.ustack console = m.ustack console) :
    Fitting q console m' phases :=
  ⟨fun p mem => Phase.same same ustack (h.1 p mem), fun none => (h.2 none).same same ustack⟩

theorem under_modifyHead {g : Frame → Frame} (same : ∀ f, phase (g f) = phase f)
    (fs : List Frame) : under (fs.modifyHead g) = under fs := by
  cases fs <;> simp [under, same]

theorem kernel_under (bottom : ∀ regs, n = .iret (.user regs) → under rest = [])
    (after : m.afterKernel rest n = some m') :
    under m'.kstack = under n.frames ++ under rest := by
  cases n with
  | goto f' =>
      cases after
      exact under_cons f' rest
  | call f' g =>
      cases after
      simp [Next.frames, under_cons g (f' :: rest), under_cons g [f'], under_cons f' rest]
  | int f' call =>
      cases after
      exact under_cons f' rest
  | write f' b =>
      cases rest with
      | nil =>
          cases after
          simp [Next.frames, under]
      | cons g rest =>
          cases after
          have same := under_modifyHead (phase_deliver (.ptr (some b))) (g :: rest)
          exact (under_cons f' _).trans (congrArg (under [f'] ++ ·) same)
  | ret v =>
      cases after
      simpa [Next.frames, under] using under_modifyHead (phase_deliver v) rest
  | iret regs =>
      cases regs with
      | user regs =>
          cases after
          rw [bottom regs rfl]
          rfl
      | kernel intr =>
          simp only [Machine.afterKernel, Machine.iret] at after
          split at after
          · cases after
          · cases after
            simp [Next.frames, under]

/-- Nothing is under way below the handler that returns to a task. -/
theorem Inv.bottom (h : Inv q console m) (stack : m.kstack = f :: rest)
    (run : exec block k f = some (k', n)) : ∀ regs, n = .iret (.user regs) → under rest = [] := by
  rintro regs rfl
  have stacked := h.stacked
  have shape := h.nested.shape
  rw [stack] at stacked shape
  have idle := shape.2.1 regs (exec_effect run).next.1
  have handlers := handling_le handling_active rest
  exact stacked.2.quiet (by omega)

/-- The statements that end or begin a phase. -/
def turns : Frame → Bool
  | .queueSend pc _ => match pc with | .full | .link | .count => true | _ => false
  | .signal pc .. => match pc with | .test | .clearWaiting => true | _ => false
  | _ => false

theorem quiet_frames (run : exec block k f = some (k', n)) (fit : fits q console f)
    (send : isSend f = false) (signal : isSignal f = false) : under n.frames = [] := by
  have belongs := (exec_effect run).next
  have same (g : Frame) (fn : g.fn = f.fn) : phase g = .quiet := by
    apply phase_quiet
    · simpa [isSend, fn] using send
    · simpa [isSignal, fn] using signal
  apply under_nil
  intro g mem
  cases n with
  | call f' callee =>
      have caller := same f' belongs.1
      suffices quiet : phase callee = .quiet by grind
      cases f with
      | keypressIsr pc =>
          cases pc with
          | send =>
              cases run
              rfl
          | _ => grind [execKeypress]
      | irq pc n | trap pc n =>
          have calls := belongs.2.2.1
          cases callee <;> first | rfl | cases calls
      | queueSend => cases send
      | signal => cases signal
      | switchTasks => cases belongs.2.2.1
      | _ => cases fit
  | _ => grind

/-- The other statements go on in the same phase and write nothing shared. -/
theorem exec_under (run : exec block k f = some (k', n)) (fit : fits q console f)
    (goes : turns f = false) : under n.frames = under [f] ∧ f.shares = false := by
  cases f with
  | queueSend pc s =>
      cases pc with
      | full | link | count => cases goes
      | wait | reforbid | refull => simp [fits] at fit
      | hasData | mode =>
          simp only [exec, execSend] at run
          split at run <;> cases run <;> exact ⟨rfl, rfl⟩
      | copy =>
          obtain ⟨msg, -, same⟩ := Option.bind_eq_some_iff.mp run
          cases same
          exact ⟨rfl, rfl⟩
      | permit =>
          cases run
          unfold Kernel.past
          split <;> exact ⟨rfl, rfl⟩
      | _ =>
          cases run
          exact ⟨rfl, rfl⟩
  | signal pc =>
      cases pc with
      | test | clearWaiting => cases goes
      | permit =>
          cases run
          unfold Kernel.past
          split <;> exact ⟨rfl, rfl⟩
      | remove | enqueue =>
          obtain ⟨k₁, -, same⟩ := Option.bind_eq_some_iff.mp run
          cases same
          exact ⟨rfl, rfl⟩
      | priTest =>
          simp only [exec, execSignal] at run
          split at run <;> cases run <;> exact ⟨rfl, rfl⟩
      | _ =>
          cases run
          exact ⟨rfl, rfl⟩
  | irq | trap | switchTasks | keypressIsr => exact ⟨quiet_frames run fit rfl rfl, rfl⟩
  | _ => cases fit

theorem loop_deliver (b : Ptr32) (h : Loop q fs) :
    fs.modifyHead (.deliver (.ptr (some b))) = fs := by
  cases h <;> rfl

theorem kernel_ustack (h : Inv q console m)
    (after : ({ m with k } : Machine).afterKernel rest n = some m') : m'.ustack = m.ustack := by
  have same (b : Ptr32) : m.current.modifyHead (.deliver (.ptr (some b))) = m.current := by
    by_cases here : m.regs.stack = console
    · rw [Machine.current, here]
      exact loop_deliver b h.loop
    · rw [Machine.current, h.others _ here]
      rfl
  cases n with
  | write f' b =>
      cases rest with
      | nil =>
          cases after
          simpa [Machine.setCurrent, Machine.current] using same b
      | cons g rest =>
          cases after
          rfl
  | iret regs =>
      cases regs with
      | user regs =>
          cases after
          rfl
      | kernel intr =>
          simp only [Machine.afterKernel, Machine.iret] at after
          split at after
          · cases after
          · cases after
            rfl
  | _ =>
      cases after
      rfl

theorem and_not_and (w sigs : BitVec 32) : w &&& ~~~sigs &&& sigs = 0 := by
  ext i
  simp

theorem and_not_of {w sigs mask : BitVec 32} (none : w &&& mask = 0) :
    w &&& ~~~sigs &&& mask = 0 := by
  rw [BitVec.and_assoc, BitVec.and_comm (~~~sigs), ← BitVec.and_assoc, none]
  exact BitVec.zero_and

theorem fitting_one {p : Phase} (h : p.At q console m) : Fitting q console m [p] :=
  ⟨by simpa using h, by simp⟩

theorem fitting_nil (h : Settled q console m) : Fitting q console m [] := ⟨by simp, fun _ => h⟩

/-- With a free slot the console is before its test or in the window after it. -/
theorem room_of_settled (h : Settled q console m) (free : (m.k.queue q).free_slots > 0) :
    Phase.room.At q console m := by
  have at_ := h.stage
  cases here : stage (m.ustack console) with
  | out =>
      rw [here] at at_
      cases at_ with
      | inl empty => exact ⟨empty, .inl here⟩
      | inr full => simp [full.1] at free
  | window =>
      rw [here] at at_
      exact ⟨at_, .inr here⟩
  | taking | taken =>
      rw [here] at at_
      simp [at_.1] at free

/-- A statement of the sender that ends a phase. -/
theorem send_fitting {pc : SendPc} {s : Send} (fit : fits q console (.queueSend pc s))
    (max_slots : (m.k.queue q).max_slots = 1)
    (ok : pc = .link → stage (m.ustack console) ≠ .window)
    (old : Fitting q console m (under [.queueSend pc s])) (goes : turns (.queueSend pc s))
    (run : execSend m.k s pc = some (k, n)) : Fitting q console { m with k } (under n.frames) := by
  obtain ⟨⟨⟨rfl, resumed⟩, -⟩, -⟩ := by simpa [fits] using fit
  cases pc with
  | full =>
      have settled := old.2 rfl
      simp only [execSend] at run
      split at run
      · next free =>
          cases run
          exact fitting_one (room_of_settled settled free)
      · cases run
        exact fitting_nil settled
  | link =>
      obtain ⟨empty, out⟩ : Phase.room.At s.queue console m := old.1 _ List.mem_cons_self
      obtain ⟨msgs, linked, same⟩ := Option.bind_eq_some_iff.mp run
      cases same
      exact fitting_one (p := .linked) ⟨link_content empty linked, out.resolve_right (ok rfl)⟩
  | count =>
      obtain ⟨linked, out⟩ : Phase.linked.At s.queue console m := old.1 _ List.mem_cons_self
      have free := linked.1
      simp only [execSend, resumed, free, max_slots, and_self, if_true] at run
      cases run
      have full : Phase.full.At s.queue console
          { m with k := m.k.setQueue s.queue fun x => { x with free_slots := x.free_slots - 1 } } :=
        ⟨⟨by simp [Kernel.setQueue, free], linked.2⟩, out⟩
      exact fitting_one full
  | _ => cases goes

/-- A statement of the keyboard's `signal` that ends a phase. -/
theorem signal_fitting {pc : SignalPc} {task : Ptr32} {sigs : BitVec 32}
    (fit : fits q console (.signal pc task sigs))
    (old : Fitting q console m (under [.signal pc task sigs])) (goes : turns (.signal pc task sigs))
    (run : execSignal m.k task sigs pc = some (k, n)) :
    Fitting q console { m with k } (under n.frames) := by
  obtain ⟨rfl, rfl⟩ := by simpa [fits] using fit
  cases pc with
  | test =>
      obtain ⟨content, out⟩ : Phase.full.At q task m := old.1 _ List.mem_cons_self
      simp only [execSignal] at run
      split at run
      · cases run
        exact fitting_one (p := .full) ⟨content, out⟩
      · next deaf =>
          cases run
          apply fitting_nil
          constructor
          · rw [out]
            exact .inr content
          · intro waits
            exact absurd ⟨by decide, waits⟩ deaf
  | clearWaiting =>
      obtain ⟨content, out⟩ : Phase.full.At q task m := old.1 _ List.mem_cons_self
      cases run
      apply fitting_nil
      constructor
      · rw [out]
        exact .inr content
      · intro waits
        simp [Kernel.setTask, and_not_and] at waits
  | _ => cases goes

theorem kernel_fitting (h : Inv q console m) (ok : Ok q console m (.stmt block))
    (stack : m.kstack = f :: rest) (run : exec block m.k f = some (k, n))
    (after : ({ m with k } : Machine).afterKernel rest n = some m') :
    Fitting q console m' (under m'.kstack) := by
  have ustack := congrFun (kernel_ustack h after) console
  obtain ⟨intr, same⟩ := afterKernel_k after
  rw [kernel_under (h.bottom stack run) after]
  have fitting := h.fitting
  rw [stack, under_cons] at fitting
  have fit := h.fits f (by simp [stack])
  cases goes : turns f with
  | false =>
      obtain ⟨phases, own⟩ := exec_under run fit goes
      have unshared := exec_unshared run own
      rw [phases]
      exact fitting.same (same ▸ ⟨unshared.queue, unshared.msgs, unshared.waiting⟩) ustack
  | true =>
      have kept : Unshared k m'.k := same ▸ ⟨rfl, rfl, fun _ => rfl⟩
      cases f with
      | queueSend pc s =>
          have alone := h.alone stack (.inl rfl)
          rw [alone, List.append_nil] at fitting ⊢
          have open_ : pc = .link → stage (m.ustack console) ≠ .window := by
            rintro rfl
            simpa [Ok, stack] using ok.2
          exact (send_fitting fit h.max_slots open_ fitting goes run).same kept ustack
      | signal pc task sigs =>
          have alone := h.alone stack (.inr rfl)
          rw [alone, List.append_nil] at fitting ⊢
          exact (signal_fitting fit fitting goes run).same kept ustack
      | _ => cases goes

end Kernel

section Console

/-- The console's part of the state. -/
def At (q console : Ptr32) (k : Kernel) (fs : List Frame) : Prop :=
  Loop q fs ∧ (stage fs).At q k ∧ ((k.task console).sigs_waiting &&& TB_QUEUE ≠ 0 → Content q k 1 0)

/-- A statement of the console that writes nothing shared. -/
theorem at_same {fs' : List Frame} (h : At q console k fs) (run : exec block k f = some (k', n))
    (own : f.shares = false) (loop : Loop q fs') (stays : (stage fs').At q k) :
    At q console k' fs' := by
  have same := exec_unshared run own
  refine ⟨loop, Stage.same same stays, ?_⟩
  rw [same.waiting]
  exact fun waits => (h.2.2 waits).same same

/-- The tests of the counter for an empty queue. -/
theorem recv_tested {free_slots : BitVec 32} (stays : Content q k 1 0 ∨ Content q k 0 1)
    (free : (k.queue q).free_slots = free_slots) :
    if free_slots < 1 then Content q k 0 1 else Content q k 1 0 := by
  cases content_free stays free with
  | inl empty =>
      rw [empty.1]
      exact empty.2
  | inr full =>
      rw [full.1]
      exact full.2

theorem recv_stage {pc : RecvPc} {r : Recv} (max_slots : (k.queue r.queue).max_slots = 1)
    (stays : (stage [.queueRecv pc r]).At r.queue k) (own : (Frame.queueRecv pc r).shares = false)
    (run : execRecv k r pc = some (k', n)) :
    Loop r.queue (n.leave []) ∧ (stage (n.leave [])).At r.queue k := by
  cases pc with
  | empty =>
      have tested := recv_tested stays rfl
      simp only [execRecv, max_slots] at run
      split at run
      · next some_ =>
          cases run
          rw [if_pos some_] at tested
          exact ⟨.recv rfl, tested⟩
      · next none_ =>
          cases run
          rw [if_neg none_] at tested
          exact ⟨.recv rfl, tested⟩
  | reempty =>
      have kinds := content_free stays rfl
      simp only [execRecv, max_slots] at run
      split at run
      · next none_ =>
          cases run
          have empty : Content r.queue k 1 0 := by
            cases kinds with
            | inl empty => exact empty.2
            | inr full => simp [full.1] at none_
          exact ⟨.recv rfl, empty⟩
      · next some_ =>
          cases run
          have full : Content r.queue k 0 1 := by
            cases kinds with
            | inl empty => exact absurd empty.1 some_
            | inr full => exact full.2
          exact ⟨.recv rfl, full⟩
  | unlink | count => cases own
  | copy =>
      simp only [execRecv] at run
      split at run
      · obtain ⟨ptr, -, same⟩ := Option.bind_eq_some_iff.mp run
        cases same
        exact ⟨.recv rfl, stays⟩
      · cases run
        exact ⟨.recv rfl, stays⟩
  | freeData | first | next =>
      obtain ⟨p, -, same⟩ := Option.bind_eq_some_iff.mp run
      cases same
      exact ⟨.recv rfl, stays⟩
  | each =>
      simp only [execRecv] at run
      split at run <;> cases run
      · exact ⟨.recv rfl, stays⟩
      · exact ⟨.signal rfl, stays⟩
  | mode =>
      simp only [execRecv] at run
      split at run <;> cases run
      · exact ⟨.recv rfl, stays⟩
      · exact ⟨.out, .inl stays⟩
  | wait =>
      cases run
      exact ⟨.wait rfl, stays⟩
  | permit =>
      cases run
      unfold Kernel.past
      split <;> exact ⟨.recv rfl, stays⟩
  | ret =>
      cases run
      exact ⟨.out, stays⟩
  | _ =>
      cases run
      exact ⟨.recv rfl, stays⟩

theorem recv_at {pc : RecvPc} {r : Recv} (max_slots : (k.queue r.queue).max_slots = 1)
    (h : At r.queue console k [.queueRecv pc r])
    (run : exec block k (.queueRecv pc r) = some (k', n)) :
    At r.queue console k' (n.leave []) := by
  cases own : (Frame.queueRecv pc r).shares with
  | false =>
      obtain ⟨loop, stays⟩ := recv_stage max_slots h.2.1 own run
      exact at_same h run own loop stays
  | true =>
      cases pc with
      | unlink =>
          simp only [exec, execRecv] at run
          split at run <;> cases run
          next unlinked =>
            have taken := unlink_content h.2.1 unlinked
            refine ⟨.recv rfl, taken, ?_⟩
            intro waits
            have full : Content r.queue k 0 1 := h.2.1
            simpa [full.1] using (h.2.2 waits).1
      | count =>
          have taken : Content r.queue k 0 0 := h.2.1
          have free := taken.1
          have counted : Content r.queue
              (k.setQueue r.queue fun x => { x with free_slots := x.free_slots + 1 }) 1 0 :=
            ⟨by simp [Kernel.setQueue, free], taken.2⟩
          simp only [exec, execRecv] at run
          split at run <;> cases run <;> exact ⟨.recv rfl, .inl counted, fun _ => counted⟩
      | _ => cases own

theorem wait_at {pc : WaitPc} {r : Recv}
    (h : At r.queue console k [.wait pc TB_QUEUE .tasks_wait, .queueRecv .reforbid r])
    (run : exec block k (.wait pc TB_QUEUE .tasks_wait) = some (k', n)) :
    At r.queue console k' (n.leave [.queueRecv .reforbid r]) := by
  cases own : (Frame.wait pc TB_QUEUE .tasks_wait).shares with
  | false =>
      suffices stays : Loop r.queue (n.leave [.queueRecv .reforbid r]) ∧
          (stage (n.leave [.queueRecv .reforbid r])).At r.queue k from
        at_same h run own stays.1 stays.2
      have stays := h.2.1
      cases pc with
      | setWaiting => cases own
      | enqueue =>
          obtain ⟨k₁, -, same⟩ := Option.bind_eq_some_iff.mp run
          cases same
          exact ⟨.wait rfl, stays⟩
      | test | ret =>
          cases run
          first | exact ⟨.wait rfl, stays⟩ | exact ⟨.recv rfl, stays⟩
      | permit =>
          cases run
          unfold Kernel.past
          split <;> exact ⟨.wait rfl, stays⟩
      | _ =>
          cases run
          exact ⟨.wait rfl, stays⟩
  | true =>
      cases pc with
      | setWaiting =>
          have empty : Content r.queue k 1 0 := h.2.1
          cases run
          exact ⟨.wait rfl, .inl empty, fun _ => empty⟩
      | _ => cases own

theorem signal_at {pc : SignalPc} {task : Ptr32} {sigs : BitVec 32} {r : Recv}
    (h : At r.queue console k [.signal pc task sigs, .queueRecv .next r])
    (run : exec block k (.signal pc task sigs) = some (k', n)) :
    At r.queue console k' (n.leave [.queueRecv .next r]) := by
  cases own : (Frame.signal pc task sigs).shares with
  | false =>
      suffices stays : Loop r.queue (n.leave [.queueRecv .next r]) ∧
          (stage (n.leave [.queueRecv .next r])).At r.queue k from
        at_same h run own stays.1 stays.2
      have stays := h.2.1
      cases pc with
      | clearWaiting => cases own
      | remove | enqueue =>
          obtain ⟨k₁, -, same⟩ := Option.bind_eq_some_iff.mp run
          cases same
          exact ⟨.signal rfl, stays⟩
      | test | priTest =>
          simp only [exec, execSignal] at run
          split at run <;> cases run <;>
            first | exact ⟨.signal rfl, stays⟩ | exact ⟨.recv rfl, stays⟩
      | permit =>
          cases run
          unfold Kernel.past
          split <;> exact ⟨.signal rfl, stays⟩
      | ret =>
          cases run
          exact ⟨.recv rfl, stays⟩
      | _ =>
          cases run
          exact ⟨.signal rfl, stays⟩
  | true =>
      cases pc with
      | clearWaiting =>
          cases run
          refine ⟨.signal rfl, h.2.1, ?_⟩
          intro waits
          apply h.2.2
          by_cases here : console = task
          · subst here
            intro none
            exact waits (by simp only [Kernel.setTask_self, and_not_of none])
          · simpa only [Kernel.setTask_other _ _ here] using waits
      | _ => cases own

theorem Inv.at_ (h : Inv q console m) (out : m.kstack = []) :
    At q console m.k (m.ustack console) := by
  have fitting := h.fitting
  rw [out] at fitting
  have settled := fitting.2 rfl
  exact ⟨h.loop, settled.stage, settled.waiting⟩

/-- A statement of the console. -/
theorem task_at (h : Inv q console m) (out : m.kstack = []) (stack : m.current = f :: rest)
    (run : exec block m.k f = some (k, n)) :
    At q console k (n.leave rest) ∧ m.regs.stack = console ∧ f.fn ≠ .create_queue ∧
      f.fn ≠ .destroy_queue := by
  have here : m.regs.stack = console := by
    by_contra other
    have none := h.others _ other
    simp [show m.ustack m.regs.stack = f :: rest from stack] at none
  have start := h.at_ out
  have max_slots := h.max_slots
  rw [← here, show m.ustack m.regs.stack = f :: rest from stack, here] at start
  refine ⟨?_, here, ?_⟩
  · cases start.1 with
    | recv queue =>
        subst queue
        exact recv_at max_slots start run
    | wait queue =>
        subst queue
        exact wait_at start run
    | signal queue =>
        subst queue
        exact signal_at start run
  · cases start.1 <;> exact ⟨nofun, nofun⟩

theorem fitting_out {fs : List Frame} (at_ : At q console m.k fs)
    (ustack : m.ustack console = fs) : Fitting q console m [] := by
  subst ustack
  exact fitting_nil ⟨at_.2.1, at_.2.2⟩

end Console

theorem inv_init (start : Init q console m) : Inv q console m := by
  obtain ⟨outside, idle, keybd, ⟨free, max_slots⟩, owner, empty⟩ := start
  have content : Content q m.k 1 0 := ⟨free, [], empty, rfl⟩
  have none := outside.kstack
  constructor
  · exact outside.nested
  · exact keybd
  · exact max_slots
  · exact owner
  · exact fun t _ => idle t
  · rw [idle]
    exact .out
  · simp [none]
  · simp [none, Stacked]
  · simp [none]
  · rw [none]
    refine fitting_nil ⟨?_, fun _ => content⟩
    rw [idle]
    exact .inl content

theorem kernel_inv (h : Inv q console m) (ok : Ok q console m (.stmt block)) (nested : Nested m')
    (stack : m.kstack = f :: rest) (run : exec block m.k f = some (k, n))
    (after : ({ m with k } : Machine).afterKernel rest n = some m') : Inv q console m' := by
  have fit := h.fits f (by simp [stack])
  have ustack := kernel_ustack h after
  obtain ⟨intr, same⟩ := afterKernel_k after
  obtain ⟨max_slots, owner⟩ :=
    exec_owner run (q := q) (by rintro fn; cases f <;> cases fn; cases fit)
    (by rintro fn; cases f <;> cases fn; cases fit)
  have stacked := h.stacked
  have single := h.single
  rw [stack] at stacked single
  constructor
  · exact nested
  · rw [same]
    exact (exec_keybd run).trans h.keybd
  · rw [same]
    exact max_slots.trans h.max_slots
  · rw [same]
    exact owner.trans h.owner
  · rw [ustack]
    exact h.others
  · rw [ustack]
    exact h.loop
  · apply kernel_frames (P := fun f => fits q console f) (fun v f _ => fits_deliver v) _ _ _ after
    · exact fun g mem => h.fits g (by simp [stack, mem])
    · simpa using List.countP_eq_zero.mp (exec_fits h.keybd h.owner run fit)
    · intro f' call intr _
      rfl
  · exact kernel_stacked stacked fit run after
  · have count := kernel_countP (p := fun f => f.unacked.isSome)
      (fun v f => by rw [deliver_unacked]) (fun _ _ => rfl) after
    have fewer := exec_unacked run
    rw [List.countP_cons] at single
    cases unacked : f.unacked.isSome with
    | true =>
        simp only [unacked, Bool.toNat_true, if_true] at fewer single
        omega
    | false =>
        simp only [unacked, Bool.toNat_false, Bool.false_eq_true, if_false] at fewer single
        omega
  · exact kernel_fitting h ok stack run after

theorem task_inv (h : Inv q console m) (nested : Nested m') (out : m.kstack = [])
    (stack : m.current = f :: rest) (run : exec block m.k f = some (k, n))
    (after : ({ m with k } : Machine).afterTask rest n = some m') : Inv q console m' := by
  obtain ⟨at_, here, create, destroy⟩ := task_at h out stack run
  obtain ⟨ustack, regs, ⟨intr, same⟩, frames⟩ := afterTask_spec out after
  obtain ⟨max_slots, owner⟩ := exec_owner run create destroy q
  rw [here] at ustack
  have mine : m'.ustack console = n.leave rest := by rw [ustack, Function.update_self]
  have at' : At q console m'.k (n.leave rest) := same ▸ at_
  constructor
  · exact nested
  · rw [same]
    exact (exec_keybd run).trans h.keybd
  · rw [same]
    exact max_slots.trans h.max_slots
  · rw [same]
    exact owner.trans h.owner
  · intro t other
    rw [ustack, Function.update_of_ne other]
    exact h.others t other
  · exact mine ▸ at'.1
  · cases frames with
    | inl empty => simp [empty]
    | inr trap =>
        obtain ⟨call, c, trap⟩ := trap
        simp [trap, fits]
  · cases frames with
    | inl empty => simp [empty, Stacked]
    | inr trap =>
        obtain ⟨call, c, trap⟩ := trap
        simp [trap, Stacked, Over]
  · cases frames with
    | inl empty => simp [empty]
    | inr trap =>
        obtain ⟨call, c, trap⟩ := trap
        simp [trap, Frame.unacked]
  · have quiet : under m'.kstack = [] := by
      cases frames with
      | inl empty => rw [empty]; rfl
      | inr trap =>
          obtain ⟨call, c, trap⟩ := trap
          rw [trap]
          rfl
    rw [quiet]
    exact fitting_out at' mine

theorem unmasked_none {scancode : BitVec 8} (unmasked : ¬ m.masks (.keyboard scancode)) :
    m.kstack.countP (·.unacked.isSome) = 0 := by
  apply List.countP_eq_zero.mpr
  intro f mem pending
  apply unmasked
  obtain ⟨n, unacked⟩ := Option.isSome_iff_exists.mp pending
  simp only [Machine.masks, List.any_eq_true]
  refine ⟨f, mem, ?_⟩
  cases n <;> simp [unacked, Irq.line]

theorem irq_inv (h : Inv q console m) (scancode : BitVec 8)
    (unmasked : ¬ m.masks (.keyboard scancode))
    (nested : Nested (({ m with kstack := m.kstack.modifyHead .wake } : Machine).enter
      (.irq .enter (.keyboard scancode)))) :
    Inv q console (({ m with kstack := m.kstack.modifyHead .wake } : Machine).enter
      (.irq .enter (.keyboard scancode))) := by
  have none := unmasked_none unmasked
  have fits := modifyHead_frames (P := fun f => fits q console f) (fun f => fits_wake) h.fits
  have stacked := stacked_modifyHead over_wake h.stacked
  have count : (m.kstack.modifyHead .wake).countP (·.unacked.isSome) = 0 :=
    (countP_modifyHead (fun f => by rw [wake_unacked]) m.kstack).trans none
  have fitting := h.fitting
  rw [← under_modifyHead phase_wake m.kstack] at fitting
  unfold Machine.enter at nested ⊢
  cases stack : m.kstack.modifyHead .wake with
  | nil =>
      simp only [stack] at nested fitting ⊢
      exact ⟨nested, h.keybd, h.max_slots, h.owner, h.others, h.loop, by simp [Keyboard.fits],
        ⟨trivial, trivial⟩, Nat.le_refl 1, fitting.same ⟨rfl, rfl, fun _ => rfl⟩ rfl⟩
  | cons f rest =>
      simp only [stack] at nested fitting fits stacked count ⊢
      refine ⟨nested, h.keybd, h.max_slots, h.owner, h.others, h.loop, ?_, ⟨trivial, stacked⟩, ?_,
        fitting.same ⟨rfl, rfl, fun _ => rfl⟩ rfl⟩
      · intro g mem
        cases mem with
        | head => rfl
        | tail _ mem => exact fits g mem
      · rw [List.countP_cons, count]
        rfl

theorem call_inv (h : Inv q console m) (user : m.inTask) (c : Call)
    (typing : Typing q console m (.call c)) (nested : Nested (m.call c)) :
    Inv q console (m.call c) := by
  cases c with
  | queueRecv queue ptr blocking =>
      obtain ⟨rfl, -, here⟩ := typing
      have start := h.at_ user.1
      have current : m.ustack console = [] := here ▸ user.2
      rw [current] at start
      have ustack : (m.call (.queueRecv queue ptr blocking)).ustack console =
          [.queueRecv .forbid ⟨queue, ptr, blocking, false, 0, .null⟩] := by
        simp [Machine.call, Call.frame, Machine.setCurrent, here]
      have under_ : under (m.call (.queueRecv queue ptr blocking)).kstack = [] := by
        rw [show (m.call (.queueRecv queue ptr blocking)).kstack = m.kstack from rfl, user.1]
        rfl
      refine ⟨nested, h.keybd, h.max_slots, h.owner, ?_, ?_, h.fits, h.stacked, h.single, ?_⟩
      · intro t other
        simp [Machine.call, Machine.setCurrent, here, other, h.others t other]
      · rw [ustack]
        exact .recv rfl
      · rw [under_]
        have at_ : At queue console (m.call (.queueRecv queue ptr blocking)).k
            [.queueRecv .forbid ⟨queue, ptr, blocking, false, 0, .null⟩] :=
          ⟨.recv rfl, start.2.1, start.2.2⟩
        exact fitting_out at_ ustack
  | _ => cases typing

theorem inv_step (h : Inv q console m) (ok : Ok q console m e) (step : m.step e = some m') :
    Inv q console m' := by
  have nested := nested_step h.nested step
  have typing := ok.1
  cases stepped_of_step step with
  | kernel stack run after => exact kernel_inv h ok nested stack run after
  | task out stack run after => exact task_inv h nested out stack run after
  | irq on unmasked =>
      cases ‹Irq› with
      | timer => cases typing
      | keyboard scancode => exact irq_inv h scancode unmasked nested
  | call user c => exact call_inv h user c typing nested
  | compute user others =>
      exact ⟨nested, h.keybd, h.max_slots, h.owner, h.others, h.loop, h.fits, h.stacked, h.single,
        h.fitting.same ⟨rfl, rfl, fun _ => rfl⟩ rfl⟩
  | store user dest byte =>
      have same : Unshared m.k (m.k.store dest byte) := ⟨rfl, rfl, fun _ => rfl⟩
      exact ⟨nested, h.keybd, h.max_slots, h.owner, h.others, h.loop, h.fits, h.stacked, h.single,
        h.fitting.same same rfl⟩
  | keybd user queue => cases typing

/-- Between interrupts the list of messages and the console's signals agree. -/
theorem Inv.awake (h : Inv q console m) : Awake q console m := by
  intro between stuck
  obtain ⟨message, -, waits⟩ := stuck
  obtain ⟨signals, sends, -⟩ := h.stacked.counts
  have tail {p : Frame → Bool} := (List.tail_sublist m.kstack).countP_le (p := p)
  have keypress := tail (p := isKeypress)
  have send := tail (p := isSend)
  have none : m.kstack.countP isKeypress = 0 := by
    apply List.countP_eq_zero.mpr
    intro f mem
    simpa [isKeypress] using between f mem
  have quiet : under m.kstack = [] := by
    apply under_nil
    intro f mem
    have noSend : m.kstack.countP isSend = 0 := by omega
    have noSignal : m.kstack.countP isSignal = 0 := by omega
    apply phase_quiet
    · simpa using List.countP_eq_zero.mp noSend f mem
    · simpa using List.countP_eq_zero.mp noSignal f mem
  have settled := h.fitting.2 quiet
  obtain ⟨-, xs, list, len⟩ := settled.waiting waits
  have empty := List.length_eq_zero_iff.mp len
  subst empty
  simp [get_head_eq list] at message

/-- Where no keystroke is linked while the console is about to wait, the console never
    sleeps on a message. -/
theorem console_awake (reached : Runs.Reach Machine.step (Ok q console) (Init q console) m) :
    Awake q console m :=
  (Runs.Reach.invariant (fun _ => inv_init) (fun _ _ _ => inv_step) reached).awake

instance (q console : Ptr32) (m : Machine) : (e : Event) → Decidable (Typing q console m e)
  | .stmt _ | .irq (.keyboard _) | .compute _ | .store .. => instDecidableTrue
  | .call (.queueRecv ..) => instDecidableAnd
  | .call .forbid | .call .permit | .call .yield | .call (.wait ..) | .call (.signal ..) =>
      instDecidableFalse
  | .call (.delay _) | .call (.createTask _) | .call (.createQueue ..) => instDecidableFalse
  | .call (.destroyQueue _) | .call (.queueSend ..) | .call (.registerDevice _) =>
      instDecidableFalse
  | .call (.getDevice _) | .irq .timer | .keybd _ => instDecidableFalse

/-- The statement links a message. -/
def linking : Event → List Frame → Bool
  | .stmt _, .queueSend .link _ :: _ => true
  | _, _ => false

theorem ok_iff (q console : Ptr32) (m : Machine) (e : Event) :
    (Typing q console m e ∧ (linking e m.kstack → stage (m.ustack console) ≠ .window)) ↔
      Ok q console m e := by
  unfold Ok linking
  split <;> simp

instance (q console : Ptr32) (m : Machine) (e : Event) : Decidable (Ok q console m e) :=
  decidable_of_iff _ (ok_iff q console m e)

/-- The console, alone, with its queue registered for the keyboard. -/
def listening : Machine :=
  let m := Machine.boot 4
  { m with k := { m.k with
      keybd_queue := 8
      queue := fun _ => ⟨1, 1, 1, 4⟩
      msgs := new_list (fun _ => .null) 8 } }

theorem listening_init : Init 8 4 listening := by
  obtain ⟨kstack, reenter, library⟩ := boot_outside 4
  exact ⟨⟨kstack, reenter, library⟩, fun _ => rfl, rfl, ⟨rfl, rfl⟩, rfl,
    by decide +kernel⟩

/-- The console finds its queue empty, and a key is pressed. -/
def early : List Event :=
  [.call (.queueRecv 8 (some (256, 0)) true)] ++ List.replicate 2 (.stmt 0) ++
    [.irq (.keyboard 30)] ++ List.replicate 17 (.stmt 12) ++ List.replicate 45 (.stmt 16)

/-- The console is idle with a message. -/
def sleeps (m : Machine) : Bool :=
  m.kstack.all (·.fn ≠ .keypress_isr) ∧ get_head m.k.msgs 8 ≠ some .null ∧
    IsList m.k.links .tasks_wait [4] ∧ (m.k.task 4).sigs_waiting &&& TB_QUEUE ≠ 0

theorem console_sleeps : ¬ ∀ q console m,
    Runs.Reach Machine.step (Typing q console) (Init q console) m → Awake q console m := by
  intro awake
  have meets : Runs.Meets Machine.step (Typing 8 4) listening early := by decide +kernel
  obtain ⟨m, -, reached, ends⟩ := Runs.Reach.exists_of_run (p := sleeps) (.start listening_init)
    meets (by decide +kernel)
  obtain ⟨between, message, waits, signals⟩ := of_decide_eq_true ends
  apply awake 8 4 m reached
  · simpa using between
  · exact ⟨message, ⟨[4], waits, List.mem_cons_self⟩, signals⟩

/-- The console is idle, and a key is pressed. -/
def late : List Event :=
  [.call (.queueRecv 8 (some (256, 0)) true)] ++ List.replicate 25 (.stmt 0) ++
    [.irq (.keyboard 30)] ++ List.replicate 17 (.stmt 12) ++ List.replicate 45 (.stmt 16)

theorem console_awake_late : ∃ m : Machine, Runs.run Machine.step listening late = some m ∧
    (m.k.queue 8).free_slots = 0 ∧ Awake 8 4 m := by
  have meets : Runs.Meets Machine.step (Ok 8 4) listening late := by decide +kernel
  obtain ⟨m, run, reached, ends⟩ := Runs.Reach.exists_of_run
    (p := fun m => (m.k.queue 8).free_slots = 0) (.start listening_init) meets (by decide +kernel)
  exact ⟨m, run, of_decide_eq_true ends, console_awake reached⟩

end Keyboard

end Krypton
