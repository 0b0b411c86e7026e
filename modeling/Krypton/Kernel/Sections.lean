import Krypton.Kernel.Nesting

/-! # Sections between `forbid()` and `permit()`

How often the code on each task's stack has executed `forbid()` more often than
`permit()` is recorded beside the machine. A task is not switched out in such a
section unless a handler that interrupts it readies a task and yields for it,
which clears `forbid_counter`.
-/

namespace Krypton

/-- The machine with the depth of the section that each task is in. -/
structure Sections where
  m : Machine
  held : Ptr32 → Nat

/-- A task that calls one of these functions gives up its section. -/
def Next.gives : Next → Bool
  | .int _ .yield => true
  | .call _ (.wait ..) | .call _ (.signal ..) | .call _ (.delay ..) => true
  | _ => false

namespace Sections

/-- The depth of the section of the running task after an event. A `permit()` that finds
    the counter at zero ends at its test, any other one at its decrement. -/
def depth (m : Machine) (e : Event) (held : Nat) : Nat :=
  match e, m.kstack, m.current with
  | .stmt block, [], f :: _ =>
      if (exec block m.k f).any fun r => r.2.gives then 0
      else if f.forbids then held + 1
      else if f.lowers ∨ f.permits ∧ m.k.forbid_counter ≤ 0 then held - 1
      else held
  | .call .forbid, _, _ => held + 1
  | .call .yield, _, _ | .call (.wait ..), _, _ | .call (.signal ..), _, _
  | .call (.delay ..), _, _ => 0
  | _, _, _ => held

def step (s : Sections) (e : Event) : Option Sections := do
  let m ← s.m.step e
  let running := s.m.regs.stack
  return { m, held := Function.update s.held running (depth s.m e (s.held running)) }

/-- The running task is in its section, or some `permit()` has tested the counter and not
    decremented it yet. -/
def Inside (s : Sections) : Prop :=
  s.held s.m.regs.stack ≠ 0 ∨ s.m.current.head?.any Frame.lowers ∨ s.m.kstack.any Frame.lowers

/-- No `signal` of a handler readies a task that goes before one in its section or in the
    middle of a `permit()`. -/
def Ok (s : Sections) (e : Event) : Prop :=
  match e, s.m.kstack with
  | .stmt _, .signal .priTest task _ :: _ =>
      Inside s → s.m.k.pri task < s.m.k.pri s.m.k.running_task
  | _, _ => True

structure Init (s : Sections) : Prop where
  outside : Outside s.m
  counter : 0 ≤ s.m.k.forbid_counter
  whole : ∀ t, ∀ f ∈ s.m.ustack t, f.lowers = false
  held : s.held = fun _ => 0

/-- In a section of the running task `switch_tasks` is not executed. -/
def Kept (s : Sections) : Prop :=
  s.held s.m.regs.stack ≠ 0 → ∀ f ∈ s.m.kstack, f.isSwitch = false

end Sections

/-- A frame that a handler of a hardware interrupt can have, and no switch. -/
@[grind] def Frame.handling : Frame → Bool
  | .trap pc call _ => call ≠ .yield && pc ≠ .yielded
  | .irq .. | .timerCallback .. | .keypressIsr .. | .signal .. => true
  | .queueSend pc s =>
      s.blocking = false && match pc with | .wait | .reforbid | .refull => false | _ => true
  | _ => false

namespace Sections

/-- What the code of the running task needs of the counter. -/
def units (m : Machine) (held : Nat) : Nat :=
  if held = 0 then (m.current.head?.any Frame.lowers).toNat else held

/-- What the frames on the kernel stack, over a task that needs `units`, need of the counter.
    The lowest one that needs something is a decrement that is due. -/
def debt (units : Nat) : List Frame → Nat
  | [] => units
  | f :: rest =>
      if 0 < debt units rest then debt units rest + f.holds.toNat else f.lowers.toNat

/-- Nothing that has interrupted a need of the counter clears it. -/
def Calm (units : Nat) : List Frame → Prop
  | [] => True
  | f :: rest => (0 < debt units rest → f.handling) ∧ Calm units rest

/-- The handlers that have interrupted a task that needs `units` of the counter. -/
structure Safe (m : Machine) (units : Nat) : Prop where
  counter : debt units m.kstack ≤ m.k.forbid_counter
  calm : Calm units m.kstack
  returns : 0 < units →
    ∀ f ∈ m.kstack, ∀ regs, f.context = some (.user regs) → regs.stack = m.regs.stack

/-- A `permit()` in the middle is the innermost activation of the running task. -/
structure Whole (m : Machine) : Prop where
  callers : ∀ f ∈ m.current.tail, f.lowers = false
  others : ∀ t, t ≠ m.regs.stack → ∀ f ∈ m.ustack t, f.lowers = false

structure Inv (s : Sections) : Prop where
  nested : Nested s.m
  running : ∀ task, s.held task ≠ 0 → task = s.m.regs.stack
  whole : Whole s.m
  safe : Safe s.m (units s.m (s.held s.m.regs.stack))

variable {s t : Sections} {m m' : Machine} {e : Event} {f : Frame} {fs rest : List Frame}
variable {k k' : Kernel} {n : Next} {block : Ptr32} {held u : Nat}

/-- The statements of handlers, up to a switch. -/
structure Handles (f : Frame) (k : Kernel) (n : Next) : Prop where
  frames : (∀ f' g, n = .call f' g → g.isSwitch = false) → n.frames.countP (! Frame.handling ·) = 0
  int : ∀ f' call, n = .int f' call →
    call ≠ .yield ∨ ∃ task sigs, f = .signal .priTest task sigs ∧ k.pri k.running_task ≤ k.pri task

theorem exec_handles (run : exec block k f = some (k', n)) (handling : f.handling) :
    Handles f k n := by
  cases f with
  | signal pc task sigs => cases pc <;> constructor <;> grind [execSignal]
  | queueSend pc s => cases pc <;> constructor <;> grind [execSend]
  | trap pc call regs => cases pc <;> cases call <;> constructor <;> grind [execTrap]
  | irq pc n regs => cases pc <;> cases n <;> constructor <;> grind [execIrq]
  | timerCallback pc task =>
      cases pc with
      | each | delayed | count | expired | signal =>
          cases task <;> constructor <;> grind [execTimer]
      | _ => constructor <;> grind [execTimer]
  | keypressIsr pc scancode => cases pc <;> constructor <;> grind [execKeypress, keySend]
  | _ => cases handling

theorem handling_deliver (v : Value) (f : Frame) : (f.deliver v).handling = f.handling := by
  unfold Frame.deliver
  split <;> rfl

theorem handling_wake (f : Frame) : f.wake.handling = f.handling := by
  unfold Frame.wake
  split <;> rfl

section Debt

variable {g : Frame → Frame}

theorem debt_modifyHead (holds : ∀ f, (g f).holds = f.holds)
    (lowers : ∀ f, (g f).lowers = f.lowers) (fs : List Frame) :
    debt u (fs.modifyHead g) = debt u fs := by
  cases fs <;> simp [debt, holds, lowers]

theorem calm_modifyHead (same : ∀ f, (g f).handling = f.handling) (h : Calm u fs) :
    Calm u (fs.modifyHead g) := by
  cases fs with
  | nil => exact h
  | cons f fs => exact ⟨fun due => (same f).trans (h.1 due), h.2⟩

theorem debt_deliver (v : Value) (fs : List Frame) :
    debt u (fs.modifyHead (.deliver v)) = debt u fs :=
  debt_modifyHead (deliver_holds v) (deliver_lowers v) fs

/-- What the running task needs is needed under every handler. -/
theorem units_le_debt (u : Nat) (fs : List Frame) : u ≤ debt u fs := by
  induction fs with
  | nil => exact le_rfl
  | cons f fs ih =>
      simp only [debt]
      split <;> omega

theorem debt_pos (due : 0 < debt u fs) : u ≠ 0 ∨ fs.any Frame.lowers := by
  induction fs with
  | nil => exact .inl due.ne'
  | cons f fs ih =>
      by_cases below : 0 < debt u fs
      · cases ih below with
        | inl inside => exact .inl inside
        | inr middle => exact .inr (by simp [middle])
      · simp only [debt, if_neg below] at due
        have lowers : f.lowers := by
          by_contra plain
          rw [Bool.not_eq_true] at plain
          simp [plain] at due
        exact .inr (by simp [lowers])

theorem debt_plain (holds : f.holds = false) (lowers : f.lowers = false) :
    debt u (f :: rest) = debt u rest := by
  simp only [debt, holds, lowers]
  split
  · rfl
  · simp_all

theorem debt_append (due : 0 < debt u rest) (fs : List Frame) :
    debt u (fs ++ rest) = debt u rest + fs.countP Frame.holds := by
  induction fs with
  | nil => rfl
  | cons f fs ih =>
      have positive : 0 < debt u (fs ++ rest) := by omega
      rw [List.cons_append, debt, if_pos positive, ih]
      cases h : f.holds <;> simp [h, Nat.add_assoc]

theorem debt_append_none (none : debt u rest = 0) (plain : ∀ f ∈ fs, f.lowers = false) :
    debt u (fs ++ rest) = 0 := by
  induction fs with
  | nil => exact none
  | cons f fs ih =>
      have inner := ih fun g mem => plain g (List.mem_cons_of_mem f mem)
      simp [debt, inner, plain f List.mem_cons_self]

theorem calm_append (calm : Calm u rest) (handled : ∀ f ∈ fs, 0 < debt u rest → f.handling)
    (plain : debt u rest = 0 → ∀ f ∈ fs.tail, f.lowers = false) : Calm u (fs ++ rest) := by
  induction fs with
  | nil => exact calm
  | cons f fs ih =>
      have later := fun none g mem => plain none g (List.mem_of_mem_tail mem)
      refine ⟨?_, ih (fun g mem => handled g (List.mem_cons_of_mem f mem)) later⟩
      intro due
      apply handled f List.mem_cons_self
      by_contra none
      have zero : debt u rest = 0 := by omega
      have inner : debt u (fs ++ rest) = 0 := debt_append_none zero (plain zero)
      exact due.ne' inner

/-- Over a section every frame is one of a handler. -/
theorem Calm.handling (h : Calm u fs) (inside : 0 < u) : ∀ f ∈ fs, f.handling := by
  induction fs with
  | nil => simp
  | cons f fs ih =>
      have under := units_le_debt u fs
      intro g mem
      cases mem with
      | head => exact h.1 (by omega)
      | tail _ mem => exact ih h.2 g mem

end Debt

/-- The counter after a statement of a handler. -/
theorem handling_counter (handling : f.handling) (forbid_counter : Int) :
    f.counter forbid_counter = if f.forbids then forbid_counter + 1 else
      if f.lowers then forbid_counter - 1 else forbid_counter := by
  cases f with
  | trap pc call => cases pc <;> first | rfl | simp [Frame.handling] at handling
  | _ => rfl

theorem counter_cases (f : Frame) (forbid_counter : Int) :
    f.counter forbid_counter = 0 ∨
      f.counter forbid_counter = if f.forbids then forbid_counter + 1 else
        if f.lowers then forbid_counter - 1 else forbid_counter := by
  cases f with
  | trap pc => cases pc <;> first | exact .inr rfl | exact .inl rfl
  | _ => exact .inr rfl

/-- What a statement leaves of the counter. -/
structure Spent (u : Nat) (rest : List Frame) (k : Kernel) (n : Next) : Prop where
  nonneg : 0 ≤ k.forbid_counter
  due : 0 < debt u rest →
    (debt u rest + n.frames.countP Frame.holds : Int) ≤ k.forbid_counter
  tested : ∀ g ∈ n.frames, g.lowers → n = .goto g ∧ 0 < k.forbid_counter

theorem spent (run : exec block k f = some (k', n)) (calm : 0 < debt u rest → f.handling)
    (counter : debt u (f :: rest) ≤ k.forbid_counter) : Spent u rest k' n := by
  have eff := exec_effect run
  have moved := eff.counter
  have holds := eff.holds
  have nonneg : 0 ≤ k.forbid_counter := by omega
  simp only [debt] at counter
  constructor
  · have positive : f.lowers → 0 < k.forbid_counter := by
      intro lowers
      split at counter <;> simp_all <;> omega
    rw [moved]
    rcases counter_cases f k.forbid_counter with cleared | counted
    · omega
    · rw [counted]
      split
      · omega
      · split
        · have := positive ‹_›
          omega
        · exact nonneg
  · intro due
    rw [moved, handling_counter (calm due)]
    rw [if_pos due] at counter
    grind
  · intro g mem lowers
    obtain ⟨same, -, rfl, positive⟩ := eff.tested g mem lowers
    exact ⟨same, positive⟩

/-- The counter covers the frames that take the place of the one that ran. -/
theorem Spent.covers (h : Spent u rest k n) : debt u (n.frames ++ rest) ≤ k.forbid_counter := by
  by_cases due : 0 < debt u rest
  · have low := h.due due
    have value := debt_append due n.frames
    omega
  · have none : debt u rest = 0 := by omega
    by_cases middle : ∃ g ∈ n.frames, g.lowers
    · obtain ⟨g, mem, lowers⟩ := middle
      obtain ⟨rfl, positive⟩ := h.tested g mem lowers
      have one : debt u ([g] ++ rest) = 1 := by simp [debt, none, lowers]
      simp only [Next.frames, one]
      omega
    · rw [debt_append_none none (by simpa using middle)]
      exact h.nonneg

/-- The frames on the kernel stack after a statement, if it is no `iret` to a task. -/
theorem kernel_stack (after : m.afterKernel rest n = some m') :
    (∃ regs, n = .iret (.user regs) ∧ m'.kstack = []) ∨ ∃ fs rest', m'.kstack = fs ++ rest' ∧
      (rest' = rest ∨ ∃ v, rest' = rest.modifyHead (.deliver v)) ∧
      (fs = n.frames ∨ ∃ f' call c, n = .int f' call ∧ fs = [.trap .enter call c, f']) := by
  cases n with
  | goto f' | call f' g =>
      cases after
      exact .inr ⟨_, rest, rfl, .inl rfl, .inl rfl⟩
  | int f' call =>
      cases after
      exact .inr ⟨[_, f'], rest, rfl, .inl rfl, .inr ⟨f', call, _, rfl, rfl⟩⟩
  | write f' b =>
      cases rest with
      | nil =>
          cases after
          exact .inr ⟨[f'], [], rfl, .inl rfl, .inl rfl⟩
      | cons g rest =>
          cases after
          exact .inr ⟨[f'], _, rfl, .inr ⟨.ptr (some b), rfl⟩, .inl rfl⟩
  | ret v =>
      cases after
      exact .inr ⟨[], _, rfl, .inr ⟨v, rfl⟩, .inl rfl⟩
  | iret regs =>
      cases regs with
      | user regs =>
          cases after
          exact .inl ⟨regs, rfl, rfl⟩
      | kernel intr =>
          simp only [Machine.afterKernel, Machine.iret] at after
          split at after
          · cases after
          · cases after
            exact .inr ⟨[], rest, rfl, .inl rfl, .inl rfl⟩

theorem delivered_rest {rest' : List Frame} (calm : Calm u rest)
    (same : rest' = rest ∨ ∃ v, rest' = rest.modifyHead (.deliver v)) :
    debt u rest' = debt u rest ∧ Calm u rest' := by
  rcases same with rfl | ⟨v, rfl⟩
  · exact ⟨rfl, calm⟩
  · exact ⟨debt_deliver v rest, calm_modifyHead (handling_deliver v) calm⟩

/-- The counter covers what a statement of a handler leaves on the kernel stack, and what
    it leaves there clears no need of the counter. -/
theorem kernel_calm (calm : Calm u rest) (spent : Spent u rest k n)
    (handled : ∀ f ∈ n.frames, 0 < debt u rest → f.handling)
    (trapped : ∀ f' call, n = .int f' call → 0 < debt u rest → call ≠ .yield)
    (after : ({ m with k } : Machine).afterKernel rest n = some m') :
    (∃ regs, n = .iret (.user regs)) ∨
      debt u m'.kstack ≤ m'.k.forbid_counter ∧ Calm u m'.kstack := by
  obtain ⟨intr, same⟩ := afterKernel_k after
  have covers := spent.covers
  rcases kernel_stack after with ⟨regs, rfl, -⟩ | ⟨fs, rest', stack, below, top⟩
  · exact .inl ⟨regs, rfl⟩
  · right
    obtain ⟨debts, calm'⟩ := delivered_rest calm below
    have same_debt (fs : List Frame) : debt u (fs ++ rest') = debt u (fs ++ rest) := by
      induction fs with
      | nil => exact debts
      | cons f fs ih => simp only [List.cons_append, debt, ih]
    rw [stack, same]
    rcases top with rfl | ⟨f', call, c, rfl, rfl⟩
    · refine ⟨same_debt n.frames ▸ covers, calm_append calm' (debts ▸ handled) ?_⟩
      intro none f mem
      by_contra lowers
      obtain ⟨rfl, -⟩ := spent.tested f (List.mem_of_mem_tail mem) (by simpa using lowers)
      cases mem
    · refine ⟨?_, calm_append calm' ?_ ?_⟩
      · have trap : debt u ([.trap .enter call c, f'] ++ rest') = debt u ([f'] ++ rest') :=
          debt_plain rfl rfl
        exact trap ▸ same_debt [f'] ▸ covers
      · rw [debts]
        intro g mem due
        cases mem with
        | head => simp [Frame.handling, trapped f' call rfl due]
        | tail _ mem => exact handled g mem due
      · intro none f mem
        obtain rfl := List.mem_singleton.mp mem
        by_contra lowers
        cases (spent.tested f List.mem_cons_self (by simpa using lowers)).1

/-- Over a need of the counter no handler switches tasks. -/
theorem no_switch (due : 0 < debt u rest) (counter : debt u (f :: rest) ≤ k.forbid_counter)
    (run : exec block k f = some (k', n)) : ∀ f' g, n = .call f' g → g.isSwitch = false := by
  intro f' g same
  by_contra switch
  have low := ((exec_effect run).switch f' g same (by simpa using switch)).2.2.2.1
  rw [debt, if_pos due] at counter
  omega

/-- Where an `iret` goes that a section of the running task waits for. -/
theorem kernel_returns (h : Safe m u) (inside : 0 < u) (stack : m.kstack = f :: rest)
    (run : exec block m.k f = some (k, n))
    (after : ({ m with k } : Machine).afterKernel rest n = some m') :
    m'.regs.stack = m.regs.stack ∧
      ∀ f ∈ m'.kstack, ∀ regs, f.context = some (.user regs) → regs.stack = m.regs.stack := by
  have belongs := (exec_effect run).next
  have mine := h.calm.handling inside f (by simp [stack])
  have returns := h.returns inside
  rw [stack] at returns
  have plain (v : Value) (same : ∀ c, v = .context c → n = .ret v) : ∀ c, v ≠ .context c := by
    rintro c rfl
    cases same c rfl
    have isSwitch := belongs.2 c rfl
    cases f <;> simp_all [Frame.isSwitch, Frame.fn, Frame.handling]
  constructor
  · cases n with
    | iret regs =>
        cases regs with
        | user regs =>
            cases after
            exact returns f List.mem_cons_self regs belongs.1
        | kernel intr =>
            simp only [Machine.afterKernel, Machine.iret] at after
            split at after
            · cases after
            · cases after
              rfl
    | write f' b => cases rest <;> cases after <;> rfl
    | _ =>
        cases after
        rfl
  · apply kernel_frames (P := fun f => ∀ regs, f.context = some (.user regs) →
      regs.stack = m.regs.stack) _ _ _ _ after
    · intro v f same
      rw [deliver_context v f (plain v same)]
      exact id
    · exact fun g mem => returns g (List.mem_cons_of_mem f mem)
    · intro g mem regs context
      apply returns f List.mem_cons_self regs
      cases n with
      | call f' callee =>
          have outside := (calls_plain belongs.2.2.1).2.1
          grind
      | int f' call =>
          have outside := plain_context (int_plain belongs).2.1
          grind
      | _ => grind
    · intro f' call intr same regs context
      cases context

/-- A statement of a handler keeps what the running task needs. -/
theorem kernel_safe (h : Safe m u) (stack : m.kstack = f :: rest)
    (quiet : ∀ task sigs, f = .signal .priTest task sigs → 0 < debt u rest →
      m.k.pri task < m.k.pri m.k.running_task)
    (run : exec block m.k f = some (k, n))
    (after : ({ m with k } : Machine).afterKernel rest n = some m') :
    Safe m' u ∧ (0 < u → m'.regs.stack = m.regs.stack) := by
  have returned (inside : 0 < u) := kernel_returns h inside stack run after
  obtain ⟨counter, calm, -⟩ := h
  rw [stack] at counter calm
  have spent := spent run calm.1 counter
  have handles (due : 0 < debt u rest) := exec_handles run (calm.1 due)
  have handled : ∀ f ∈ n.frames, 0 < debt u rest → f.handling := by
    intro g mem due
    have all := (handles due).frames (no_switch due counter run)
    simpa using List.countP_eq_zero.mp all g mem
  have trapped : ∀ f' call, n = .int f' call → 0 < debt u rest → call ≠ .yield := by
    intro f' call same due
    cases (handles due).int f' call same with
    | inl other => exact other
    | inr yields =>
        obtain ⟨task, sigs, rfl, goes⟩ := yields
        have stops := quiet task sigs rfl due
        omega
  have stays (inside : 0 < u) : m'.regs.stack = m.regs.stack := (returned inside).1
  refine ⟨?_, stays⟩
  rcases kernel_calm calm.2 spent handled trapped after with ⟨regs, rfl⟩ | ⟨counter', calm'⟩
  · cases after
    have under := units_le_debt u rest
    have covers := spent.covers
    simp only [Next.frames, List.nil_append] at covers
    exact ⟨by simp only [debt]; omega, trivial, by simp⟩
  · exact ⟨counter', calm', fun inside => by simpa [stays inside] using (returned inside).2⟩

/-- A statement of a handler changes no frame of a task but by the block it delivers. -/
theorem kernel_lowers (after : m.afterKernel rest n = some m') (t : Ptr32) :
    (m'.ustack t).map Frame.lowers = (m.ustack t).map Frame.lowers := by
  have delivered (v : Value) (fs : List Frame) :
      (fs.modifyHead (.deliver v)).map Frame.lowers = fs.map Frame.lowers := by
    cases fs <;> simp
  cases n with
  | write f' b =>
      cases rest with
      | nil =>
          cases after
          by_cases here : t = m.regs.stack
          · subst here
            simp [Machine.setCurrent, Machine.current, delivered]
          · simp [Machine.setCurrent, here]
      | cons g rest =>
          cases after
          rfl
  | iret regs =>
      cases regs with
      | user regs =>
          cases after
          rfl
      | kernel intr =>
          simp only [Machine.afterKernel, Machine.iret] at after
          split at after
          · cases after
          · cases after
            rfl
  | _ =>
      cases after
      rfl

theorem lowers_of_map {fs fs' : List Frame} (same : fs'.map Frame.lowers = fs.map Frame.lowers)
    (plain : ∀ f ∈ fs, f.lowers = false) : ∀ f ∈ fs', f.lowers = false := by
  intro f mem
  have found : f.lowers ∈ fs.map Frame.lowers := same ▸ List.mem_map_of_mem mem
  obtain ⟨g, mem, lowers⟩ := List.mem_map.mp found
  exact lowers ▸ plain g mem

theorem units_of_map (same : m'.current.map Frame.lowers = m.current.map Frame.lowers)
    (held : Nat) :
    units m' held = units m held := by
  have heads : (m'.current.head?.any Frame.lowers) = (m.current.head?.any Frame.lowers) := by
    cases new : m'.current <;> cases old : m.current <;> simp_all
  simp [units, heads]

/-- The running task is neither in a section nor in the middle of a `permit()`. -/
theorem units_zero : units m held = 0 ↔ held = 0 ∧ m.current.head?.any Frame.lowers = false := by
  unfold units
  split
  · cases h : m.current.head?.any Frame.lowers <;> simp_all
  · simp_all

theorem Whole.none (h : Whole m) (out : m.current.head?.any Frame.lowers = false) (t : Ptr32) :
    ∀ f ∈ m.ustack t, f.lowers = false := by
  by_cases here : t = m.regs.stack
  · subst here
    intro f mem
    cases stack : m.current with
    | nil => simp [Machine.current] at stack; simp [stack] at mem
    | cons g rest =>
        have callers := h.callers
        rw [stack] at callers out
        rw [show m.ustack m.regs.stack = g :: rest from stack] at mem
        cases mem with
        | head => simpa using out
        | tail _ mem => exact callers f mem
  · exact h.others t here

theorem whole_kernel (h : Whole m) (same : ∀ t, (m'.ustack t).map Frame.lowers =
    (m.ustack t).map Frame.lowers)
    (stays : m'.regs.stack = m.regs.stack ∨ m.current.head?.any Frame.lowers = false) :
    Whole m' := by
  rcases stays with stays | out
  · constructor
    · apply lowers_of_map _ h.callers
      rw [List.map_tail, List.map_tail, Machine.current, stays, same]
      rfl
    · intro t other
      exact lowers_of_map (same t) (h.others t (stays ▸ other))
  · have all := h.none out
    exact ⟨fun f mem => lowers_of_map (same _) (all _) f (List.mem_of_mem_tail mem),
      fun t _ => lowers_of_map (same t) (all t)⟩

/-- A decrement that is due on the stack of a task is the statement after its test. -/
theorem leave_lowers (tested : ∀ g ∈ n.frames, g.lowers → n = .goto g)
    (plain : ∀ f ∈ rest, f.lowers = false) (lowers : (n.leave rest).head?.any Frame.lowers) :
    ∃ g, n = .goto g ∧ g.lowers := by
  cases n with
  | ret v => cases rest <;> simp_all [Next.leave]
  | iret regs => cases rest <;> simp_all [Next.leave]
  | _ => simp_all [Next.leave, Next.frames]

theorem leave_callers (tested : ∀ g ∈ n.frames, g.lowers → n = .goto g)
    (plain : ∀ f ∈ rest, f.lowers = false) : ∀ f ∈ (n.leave rest).tail, f.lowers = false := by
  intro f mem
  cases n with
  | call f' g =>
      cases mem with
      | head =>
          by_contra lowers
          cases tested f (by simp [Next.frames]) (by simpa using lowers)
      | tail _ mem => exact plain f mem
  | ret v =>
      apply plain f
      cases rest with
      | nil => cases mem
      | cons g rest => exact List.mem_cons_of_mem g mem
  | iret regs => exact plain f (List.mem_of_mem_tail mem)
  | _ => exact plain f mem

/-- What the running task needs after a statement of its code. -/
theorem task_units (nested : Nested m) (whole : Whole m) (out : m.kstack = [])
    (stack : m.current = f :: rest) (low : units m held ≤ m.k.forbid_counter)
    (run : exec block m.k f = some (k, n))
    (after : ({ m with k } : Machine).afterTask rest n = some m') :
    units m' (depth m (.stmt block) held) ≤ m'.k.forbid_counter ∧ Whole m' := by
  obtain ⟨ustack, regs, ⟨intr, same⟩, -⟩ := afterTask_spec out after
  have eff := exec_effect run
  have counter := eff.counter
  have current : m'.current = n.leave rest := by simp [Machine.current, ustack, regs]
  have plain : ∀ f ∈ rest, f.lowers = false := by simpa [stack] using whole.callers
  have tested : ∀ g ∈ n.frames, g.lowers → n = .goto g := fun g mem lowers =>
    (eff.tested g mem lowers).1
  have library := nested.library m.regs.stack f
    (by simp [show m.ustack m.regs.stack = f :: rest from stack])
  rw [library_counter library] at counter
  have covers : held ≤ m.k.forbid_counter ∧ (f.lowers → 1 ≤ m.k.forbid_counter) := by
    simp only [units, stack, List.head?_cons, Option.any_some] at low
    split at low <;> cases h : f.lowers <;> simp [h] at low ⊢ <;> omega
  constructor
  · have deep : depth m (.stmt block) held ≤ k.forbid_counter := by
      simp only [depth, out, stack]
      grind
    have nonneg : 0 ≤ k.forbid_counter := by omega
    rw [same]
    simp only [units, current]
    split
    · cases lowers : (n.leave rest).head?.any Frame.lowers with
      | false => simpa using nonneg
      | true =>
          obtain ⟨g, rfl, due⟩ := leave_lowers tested plain lowers
          obtain ⟨-, -, rfl, positive⟩ := eff.tested g List.mem_cons_self due
          simp
          omega
    · exact deep
  · constructor
    · exact current ▸ leave_callers tested plain
    · intro t other
      rw [ustack, Function.update_of_ne (regs ▸ other)]
      exact whole.others t (regs ▸ other)

/-- A task that makes a system call in its section does not yield. -/
theorem task_traps (out : m.kstack = []) (stack : m.current = f :: rest)
    (run : exec block m.k f = some (k, n))
    (after : ({ m with k } : Machine).afterTask rest n = some m')
    (inside : 0 < units m' (depth m (.stmt block) held)) : ∀ f', n ≠ .int f' .yield := by
  rintro f' rfl
  obtain ⟨ustack, regs, -, -⟩ := afterTask_spec out after
  have current : m'.current = f' :: rest := by simp [Machine.current, ustack, regs, Next.leave]
  have gives : depth m (.stmt block) held = 0 := by simp [depth, out, stack, run, Next.gives]
  have tested := (exec_effect run).tested f' List.mem_cons_self
  cases lowers : f'.lowers with
  | false => simp [units, gives, current, lowers] at inside
  | true => cases (tested lowers).1

/-- What the frame of a task leaves on the kernel stack. -/
theorem task_stack (out : m.kstack = [])
    (after : ({ m with k } : Machine).afterTask rest n = some m') :
    m'.regs = m.regs ∧ (m'.kstack = [] ∨ ∃ f' call intr, n = .int f' call ∧
      m'.kstack = [.trap .enter call (.user { m.regs with intr := intr })]) := by
  cases n with
  | int f' call =>
      cases after
      simp [Machine.enter, out]
  | write f' b => cases after
  | iret regs => cases after
  | _ =>
      cases after
      exact ⟨rfl, .inl out⟩

theorem safe_empty (out : m.kstack = []) (counter : u ≤ m.k.forbid_counter) : Safe m u :=
  ⟨by simpa [out, debt] using counter, by simp [out, Calm], by simp [out]⟩

theorem Safe.same (h : Safe m u) (kstack : m'.kstack = m.kstack)
    (counter : m'.k.forbid_counter = m.k.forbid_counter) (regs : m'.regs.stack = m.regs.stack) :
    Safe m' u := by
  obtain ⟨low, calm, returns⟩ := h
  exact ⟨by simpa [kstack, counter] using low, by simpa [kstack] using calm,
    by simpa [kstack, regs] using returns⟩

/-- A statement of a task keeps what it leaves the task in need of. -/
theorem task_safe (nested : Nested m) (whole : Whole m) (out : m.kstack = [])
    (stack : m.current = f :: rest) (low : units m held ≤ m.k.forbid_counter)
    (run : exec block m.k f = some (k, n))
    (after : ({ m with k } : Machine).afterTask rest n = some m') :
    Safe m' (units m' (depth m (.stmt block) held)) ∧ Whole m' := by
  obtain ⟨covers, whole'⟩ := task_units nested whole out stack low run after
  refine ⟨?_, whole'⟩
  obtain ⟨regs, frames⟩ := task_stack out after
  cases frames with
  | inl empty => exact safe_empty empty covers
  | inr trap =>
      obtain ⟨f', call, intr, rfl, trap⟩ := trap
      constructor
      · rw [trap, debt_plain rfl rfl]
        exact covers
      · rw [trap]
        refine ⟨fun inside => ?_, trivial⟩
        have other : call ≠ .yield := fun same =>
          task_traps out stack run after inside f' (by rw [same])
        simp [Frame.handling, other]
      · simp [trap, Frame.context, regs]

/-- A call leaves no decrement due. -/
theorem call_lowers (user : m.inTask) (c : Call) : ∀ f ∈ (m.call c).current, f.lowers = false := by
  have none : m.current = [] := user.2
  cases c with
  | forbid =>
      have same : (m.call .forbid).current = [] := none
      simp [same]
  | yield =>
      have same : (m.call .yield).current = [] := by
        simp only [Machine.call, Machine.enter, user.1]
        exact none
      simp [same]
  | _ => simp [Machine.call, Call.frame, Frame.lowers]

theorem call_safe (user : m.inTask) (c : Call) (whole : Whole m)
    (low : units m held ≤ m.k.forbid_counter) :
    Safe (m.call c) (units (m.call c) (depth m (.call c) held)) ∧ Whole (m.call c) := by
  have out : m.current = [] := user.2
  have plain : (m.call c).current.head?.any Frame.lowers = false := by
    have all := call_lowers user c
    cases stack : (m.call c).current <;> simp_all
  have same (d : Nat) : units (m.call c) d = d := by
    unfold units
    split <;> simp_all
  have stays : (m.call c).regs.stack = m.regs.stack := by
    cases c <;> simp [Machine.call, Machine.enter, user.1]
  have covers : held ≤ m.k.forbid_counter := by
    unfold units at low
    split at low <;> simp_all
  rw [same]
  constructor
  · cases c with
    | forbid =>
        have counter : (held + 1 : Nat) ≤ m.k.forbid.forbid_counter := by
          simp only [Kernel.forbid]
          omega
        exact safe_empty user.1 counter
    | yield =>
        let trap : Frame := .trap .enter .yield (.user { m.regs with intr := m.k.intr })
        have due : debt 0 [trap] = debt 0 [] := debt_plain rfl rfl
        constructor <;> simp [Machine.call, Machine.enter, user.1, depth, trap, due, debt, Calm]
        omega
    | wait sigs wait_list | signal task sigs | delay ticks =>
        have counter : (0 : Nat) ≤ m.k.forbid_counter := by omega
        exact safe_empty user.1 counter
    | _ => exact safe_empty user.1 covers
  · constructor
    · exact fun f mem => call_lowers user c f (List.mem_of_mem_tail mem)
    · intro t other
      rw [stays] at other
      have old := whole.others t other
      cases c <;> simp [Machine.call, Machine.enter, user.1, Machine.setCurrent, other] <;>
        exact old

theorem Inv.kept (h : Inv s) : Kept s := by
  intro inside f mem
  have section_ : 0 < units s.m (s.held s.m.regs.stack) := by
    unfold units
    split <;> omega
  have handling := h.safe.calm.handling section_ f mem
  cases f with
  | switchTasks => cases handling
  | _ => rfl

theorem enter_spec (m : Machine) (f : Context → Frame) :
    ∃ c, (m.enter f).kstack = f c :: m.kstack ∧ ∀ regs, c = .user regs →
        regs.stack = m.regs.stack := by
  unfold Machine.enter
  split
  · next empty => exact ⟨_, by rw [empty], by rintro regs ⟨⟩; rfl⟩
  · exact ⟨_, rfl, by simp⟩

theorem irq_safe (h : Safe m u) (n : Irq) :
    Safe (({ m with kstack := m.kstack.modifyHead .wake } : Machine).enter (.irq .enter n)) u := by
  obtain ⟨counter, calm, returns⟩ := h
  obtain ⟨c, stack, returns'⟩ :=
    enter_spec { m with kstack := m.kstack.modifyHead .wake } (.irq .enter n)
  have regs : (({ m with kstack := m.kstack.modifyHead .wake } : Machine).enter
      (.irq .enter n)).regs =
      m.regs := by
    unfold Machine.enter
    split <;> rfl
  have same : (({ m with kstack := m.kstack.modifyHead .wake } : Machine).enter
      (.irq .enter n)).k.forbid_counter = m.k.forbid_counter := by
    unfold Machine.enter
    split <;> rfl
  constructor
  · rw [stack, same, debt_plain rfl rfl, debt_modifyHead wake_holds wake_lowers]
    exact counter
  · rw [stack]
    exact ⟨fun _ => rfl, calm_modifyHead handling_wake calm⟩
  · intro inside f mem regs' context
    rw [stack] at mem
    rw [regs]
    cases mem with
    | head => exact returns' regs' (Option.some.inj context)
    | tail _ mem =>
        refine modifyHead_frames (P := fun f => ∀ regs, f.context = some (.user regs) →
          regs.stack = m.regs.stack) ?_ (returns inside) f mem regs' context
        simp

theorem inv_init (start : Init s) : Inv s := by
  obtain ⟨outside, counter, whole, held⟩ := start
  have plain : s.m.current.head?.any Frame.lowers = false := by
    cases stack : s.m.current with
    | nil => rfl
    | cons f rest =>
        have mem : f ∈ s.m.current := by simp [stack]
        simpa using whole _ f mem
  constructor
  · exact outside.nested
  · simp [held]
  · exact ⟨fun f mem => whole _ f (List.mem_of_mem_tail mem), fun t _ => whole t⟩
  · apply safe_empty outside.kstack
    simpa [units, held, plain] using counter

theorem running_update (h : ∀ task, s.held task ≠ 0 → task = s.m.regs.stack) (d : Nat) :
    ∀ task, Function.update s.held s.m.regs.stack d task ≠ 0 → task = s.m.regs.stack := by
  intro task inside
  by_contra other
  rw [Function.update_of_ne other] at inside
  exact other (h task inside)

/-- A step that stays with the running task. -/
theorem Inv.update (h : Inv s) (nested : Nested m') {d : Nat}
    (stays : m'.regs.stack = s.m.regs.stack) (kept : Safe m' (units m' d) ∧ Whole m') :
    Inv ⟨m', Function.update s.held s.m.regs.stack d⟩ := by
  refine ⟨nested, ?_, kept.2, ?_⟩
  · simpa [stays] using running_update h.running d
  · simpa [stays] using kept.1

/-- A step that leaves the stacks of the tasks alone. -/
theorem Inv.stay (h : Inv s) (nested : Nested m') (stays : m'.regs.stack = s.m.regs.stack)
    (ustack : m'.ustack = s.m.ustack) (safe : Safe m' (units s.m (s.held s.m.regs.stack))) :
    Inv ⟨m', Function.update s.held s.m.regs.stack (s.held s.m.regs.stack)⟩ := by
  have current : m'.current = s.m.current := by rw [Machine.current, stays, ustack]; rfl
  refine h.update nested stays ⟨?_, ?_, ?_⟩
  · simpa [units, current] using safe
  · simpa [current] using h.whole.callers
  · simpa [stays, ustack] using h.whole.others

theorem kernel_inv (h : Inv s) (ok : Ok s (.stmt block)) (stack : s.m.kstack = f :: rest)
    (run : exec block s.m.k f = some (k, n))
    (after : ({ s.m with k } : Machine).afterKernel rest n = some m') (nested : Nested m') :
    Inv ⟨m', s.held⟩ := by
  have lowers := kernel_lowers after
  have quiet : ∀ task sigs, f = .signal .priTest task sigs →
      0 < debt (units s.m (s.held s.m.regs.stack)) rest →
        s.m.k.pri task < s.m.k.pri s.m.k.running_task := by
    rintro task sigs rfl due
    have inside : Inside s := by
      cases debt_pos due with
      | inl needs =>
          unfold units at needs
          split at needs
          · exact .inr (.inl (by simpa using needs))
          · exact .inl ‹_›
      | inr middle => exact .inr (.inr (by simp [stack, middle]))
    simpa [Ok, stack, inside] using ok
  obtain ⟨safe, stays⟩ := kernel_safe h.safe stack quiet run after
  by_cases here : m'.regs.stack = s.m.regs.stack
  · have frames : m'.current.map Frame.lowers = s.m.current.map Frame.lowers := by
      rw [Machine.current, here, lowers]
      rfl
    have same := units_of_map frames
    refine ⟨nested, ?_, whole_kernel h.whole lowers (.inl here), ?_⟩
    · simpa [here] using h.running
    · simpa [here, same] using safe
  · -- the handler returns to another task, which a need of the counter excludes
    have none : units s.m (s.held s.m.regs.stack) = 0 := by
      by_contra inside
      exact here (stays (by omega))
    obtain ⟨free, out⟩ := units_zero.mp none
    have whole := whole_kernel h.whole lowers (.inr out)
    have idle (task : Ptr32) : s.held task = 0 := by
      by_contra inside
      exact inside (h.running task inside ▸ free)
    have due : units m' 0 = 0 := by
      have all := h.whole.none out m'.regs.stack
      have all' := lowers_of_map (lowers m'.regs.stack) all
      apply units_zero.mpr ⟨rfl, _⟩
      cases stack : m'.current with
      | nil => rfl
      | cons g fs =>
          have mem : g ∈ m'.current := by simp [stack]
          simpa using all' g mem
    refine ⟨nested, by simp [idle], whole, ?_⟩
    rw [none] at safe
    simpa [idle, due] using safe

theorem inv_step (h : Inv s) (ok : Ok s e) (step : s.step e = some t) : Inv t := by
  obtain ⟨m, move, same⟩ := Option.bind_eq_some_iff.mp step
  cases same
  have nested := nested_step h.nested move
  cases stepped_of_step move with
  | kernel stack run after =>
      have same : ∀ block, depth s.m (.stmt block) (s.held s.m.regs.stack) =
          s.held s.m.regs.stack := by
        simp [depth, stack]
      rw [same, Function.update_eq_self]
      exact kernel_inv h ok stack run after nested
  | task out stack run after =>
      have low := h.safe.counter
      rw [out] at low
      exact h.update nested (by rw [(task_stack out after).1])
        (task_safe h.nested h.whole out stack low run after)
  | irq on unmasked =>
      refine h.stay nested ?_ ?_ (irq_safe h.safe _)
      all_goals
        unfold Machine.enter
        split <;> rfl
  | call user c =>
      have low := h.safe.counter
      rw [user.1] at low
      refine h.update nested ?_ (call_safe user c h.whole low)
      cases c <;> simp [Machine.call, Machine.enter, user.1, Call.frame]
  | compute user others => exact h.stay nested rfl rfl (h.safe.same rfl rfl rfl)
  | store user dest byte => exact h.stay nested rfl rfl (h.safe.same rfl rfl rfl)
  | keybd user queue => exact h.stay nested rfl rfl (h.safe.same rfl rfl rfl)

/-- The running task is not switched out in its section. -/
theorem sections_kept (reached : Runs.Reach step Ok Init s) : Kept s :=
  (Runs.Reach.invariant (fun _ => inv_init) (fun _ _ _ => inv_step) reached).kept

instance (s : Sections) : Decidable (Inside s) := by
  unfold Inside
  infer_instance

instance (s : Sections) (e : Event) : Decidable (Ok s e) := by
  unfold Ok
  split <;> infer_instance

/-- The kernel before its first task switch. -/
def start : Sections := ⟨.boot 4, fun _ => 0⟩

theorem start_init : Init start :=
  ⟨boot_outside 4, Int.le_refl 0, (fun _ _ none => nomatch none), rfl⟩

/-- A task of priority one goes to sleep for a tick; the kernel task, of priority zero,
    executes `forbid()`. -/
def sleeping : List Event :=
  [.call (.createTask 1)] ++ List.replicate 8 (.stmt 8) ++ List.replicate 14 (.stmt 12) ++
    [.call .yield] ++ List.replicate 14 (.stmt 0) ++ [.call (.delay 1)] ++
    List.replicate 30 (.stmt 0) ++ [.call .forbid]

/-- In its section the running task is being switched out. -/
def preempted (s : Sections) : Bool :=
  s.held s.m.regs.stack ≠ 0 ∧ s.m.kstack.any Frame.isSwitch

theorem sleeper_preempts : ¬ ∀ s, Runs.Reach step (fun _ _ => True) Init s → Kept s := by
  intro kept
  have meets : Runs.Meets step (fun _ _ => True) start
      (sleeping ++ [.irq .timer] ++ List.replicate 37 (.stmt 0)) :=
    Runs.meets_true _ _
  obtain ⟨s, -, reached, preempts⟩ := Runs.Reach.exists_of_run (p := preempted) (.start start_init)
    meets (by decide +kernel)
  obtain ⟨inside, f, mem, switch⟩ := by simpa [preempted] using preempts
  simp [kept s reached inside f mem] at switch

theorem sections_kept_sleeping : ∃ s : Sections, Runs.run step start sleeping = some s ∧
    s.held s.m.regs.stack = 1 ∧ Kept s := by
  have meets : Runs.Meets step Ok start sleeping := by decide +kernel
  obtain ⟨s, run, reached, inside⟩ := Runs.Reach.exists_of_run
    (p := fun s => s.held s.m.regs.stack = 1) (.start start_init) meets (by decide +kernel)
  exact ⟨s, run, of_decide_eq_true inside, sections_kept reached⟩

end Sections

end Krypton
